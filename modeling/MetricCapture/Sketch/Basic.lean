import MetricCapture.Sketch.Mapping
import MetricCapture.Sketch.Outcome
import MetricCapture.Sketch.Store
/-! Quantile sketches: counts of values by magnitude on a logarithmic scale, with the exact
count, sum, least and greatest value. -/
namespace MetricCapture

open MetricCapture.Number MetricCapture.Sketch

structure Sketch where
  accuracy : Float
  /-- The limit it was made with. A store taken over from another sketch keeps its own. -/
  binLimit : Nat
  mapping : Mapping
  positive : Store
  negative : Store
  /-- How many values are too close to zero for a key. -/
  zeros : Nat := 0
  count : Nat := 0
  sum : Float := 0.0
  least : Float := 1.0 / 0.0
  greatest : Float := -1.0 / 0.0

namespace Sketch

def empty (accuracy : Float) (binLimit : Nat) : Sketch :=
  { accuracy, binLimit, mapping := Mapping.ofAccuracy accuracy
    positive := { binLimit }, negative := { binLimit } }

def create (accuracy : Float) (binLimit : Int) : Except Failure Sketch :=
  if !(0.0 < accuracy && accuracy < 1.0) then .error .accuracyRange
  else if binLimit < 1 then .error .binLimit
  else .ok (empty accuracy binLimit.toNat)

def place (s : Sketch) (x : Float) : Except Failure Sketch :=
  if s.mapping.smallest < x then do
    let key ← s.mapping.key x
    pure { s with positive := s.positive.add key }
  else if x < -s.mapping.smallest then do
    let key ← s.mapping.key (-x)
    pure { s with negative := s.negative.add key }
  else pure { s with zeros := s.zeros + 1 }

/-- Takes in a value. Only a finite one is taken. -/
def add (s : Sketch) (x : Float) : Except Failure Sketch :=
  if !isFinite x then .error (.notFinite x)
  else do
    let s ← s.place x
    pure
      { s with
        count := s.count + 1
        sum := s.sum + x
        least := if x < s.least then x else s.least
        greatest := if s.greatest < x then x else s.greatest }

def extend (s : Sketch) (xs : List Float) : Outcome Failure Sketch :=
  Outcome.each (fun s x => Outcome.ofExcept s (s.add x)) s xs

def isClose (a b : Float) : Bool :=
  let distance := Float.abs (b - a)
  a == b || distance ≤ Float.abs (1e-9 * b) || distance ≤ Float.abs (1e-9 * a)

/-- Takes in the counts of another sketch of one scale. A sketch without values takes over its
stores as they are. -/
def mergeBins (s other : Sketch) : Sketch :=
  if s.count = 0 then
    { s with positive := other.positive, negative := other.negative, zeros := other.zeros }
  else
    { s with
      positive := s.positive.merge other.positive
      negative := s.negative.merge other.negative
      zeros := s.zeros + other.zeros }

/-- Takes in all values of another sketch. One without values changes nothing. -/
def merge (s other : Sketch) : Except Failure Sketch :=
  if !isClose s.accuracy other.accuracy then .error .accuracyMismatch
  else if other.count = 0 then .ok s
  else if s.mapping.base != other.mapping.base then
    .error (.baseMismatch s.mapping.base other.mapping.base)
  else
    .ok
      { s.mergeBins other with
        count := s.count + other.count
        sum := s.sum + other.sum
        least := if other.least < s.least then other.least else s.least
        greatest := if s.greatest < other.greatest then other.greatest else s.greatest }

def mean (s : Sketch) : Option Float :=
  if s.count = 0 then none else some (s.sum / Float.ofNat s.count)

def summary (s : Sketch) : String :=
  "Sketch(count=" ++ toString s.count ++ ", min=" ++ shortestText s.least ++ ", max=" ++
    shortestText s.greatest ++ ", relative_accuracy=" ++ shortestText s.accuracy ++
    ", bin_limit=" ++ toString s.binLimit ++ ")"

end Sketch
end MetricCapture
