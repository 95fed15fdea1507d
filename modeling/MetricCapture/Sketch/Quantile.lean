import MetricCapture.Sketch.Basic
/-! Quantiles of a sketch: the representative of the bin that holds the value of a rank, between
the least and the greatest value. -/
namespace MetricCapture.Sketch

/-- The representative of the bin that holds the value of a rank. Values are ranked from zero, the
negative ones first. -/
def representative (s : Sketch) (rank : Float) : Except Failure (Option Float) :=
  let count := Float.ofNat
  if rank < count s.negative.count then
    let reversed := count s.negative.count - rank - 1.0
    match s.negative.firstKey fun n => reversed + 1.0 ≤ count n with
    | none => .ok none
    | some key => (s.mapping.value key).map fun x => some (-x)
  else if rank < count (s.zeros + s.negative.count) then .ok (some 0.0)
  else
    let rest := rank - count s.zeros - count s.negative.count
    match s.positive.firstKey fun n => rest < count n with
    | none => .ok none
    | some key => (s.mapping.value key).map some

/-- The estimate of a quantile. The least and the greatest value are exact, and nothing lies
outside of them. -/
def quantile (s : Sketch) (q : Float) : Except Failure (Option Float) :=
  if !(0.0 ≤ q && q ≤ 1.0) then .error (.quantileRange q)
  else if s.count = 0 then .ok none
  else if q == 0.0 then .ok (some s.least)
  else if q == 1.0 then .ok (some s.greatest)
  else do
    let v? ← s.representative (q * Float.ofNat (s.count - 1))
    pure <| v?.map fun v =>
      let raised := if v < s.least then s.least else v
      if s.greatest < raised then s.greatest else raised

end MetricCapture.Sketch
