import MetricCapture.Number.Layout
/-! Sketch errors: what a sketch refuses to do. -/
namespace MetricCapture.Sketch
open MetricCapture.Number

inductive Failure where
  | accuracyRange
  | binLimit
  | notFinite (x : Float)
  | accuracyMismatch
  | baseMismatch (mine other : Float)
  | quantileRange (q : Float)
  /-- A key that is infinite. -/
  | keyInfinite
  /-- A key that is no number. -/
  | keyUndefined
  /-- A representative beyond the largest double. -/
  | valueOverflow

def Failure.message : Failure → String
  | .accuracyRange => "relative_accuracy must be in (0, 1)"
  | .binLimit => "bin_limit must be >= 1"
  | .notFinite x => "cannot add non-finite value " ++ shortestText x
  | .accuracyMismatch => "cannot merge sketches with different relative accuracy"
  | .baseMismatch mine other =>
    "Cannot merge two DDSketches with different parameters, got " ++ shortestText mine ++
      " and " ++ shortestText other
  | .quantileRange q => "quantile " ++ shortestText q ++ " outside [0, 1]"
  | .keyInfinite => "cannot convert float infinity to integer"
  | .keyUndefined => "cannot convert float NaN to integer"
  | .valueOverflow => "math range error"

end MetricCapture.Sketch
