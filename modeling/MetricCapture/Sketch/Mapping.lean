import MetricCapture.Number.Logarithm
import MetricCapture.Sketch.Failure
/-! The logarithmic scale of a sketch: the key of the bin a magnitude falls into, and the
representative of a bin. -/
namespace MetricCapture.Sketch
open MetricCapture.Number

structure Mapping where
  base : Float
  /-- How many bins there are to a factor of two. -/
  binsPerOctave : Float
  /-- The largest magnitude that counts as zero. -/
  smallest : Float

namespace Mapping

/-- The scale whose representatives lie within the given relative distance of all values of
their bins. -/
def ofAccuracy (accuracy : Float) : Mapping :=
  let excess := 2.0 * accuracy / (1.0 - accuracy)
  let base := 1.0 + excess
  { base
    binsPerOctave := 1.0 / logOnePlus excess * log 2.0
    smallest := Float.ofBits 0x0010000000000000 * base }

def key (m : Mapping) (magnitude : Float) : Except Failure Int :=
  let place := log magnitude / log 2.0 * m.binsPerOctave
  match Exact.ofFloat place with
  | .undefined => .error .keyUndefined
  | .infinite _ => .error .keyInfinite
  | .finite .. => .ok (ceiling place)

def value (m : Mapping) (key : Int) : Except Failure Float :=
  let power := Float.pow 2.0 (ofInt key / m.binsPerOctave)
  if isFinite power then .ok (power * (2.0 / (1.0 + m.base))) else .error .valueOverflow

end Mapping
end MetricCapture.Sketch
