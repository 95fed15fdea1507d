import MetricCapture.Settings.Value
/-! Analysis settings: how exact the statistics are, and which quantiles a report shows. -/
namespace MetricCapture.Settings

structure Analysis where
  /-- The relative error bound of the quantile sketches. -/
  accuracy : Float := 0.01
  /-- The most bins a sketch keeps for each sign. -/
  binLimit : Nat := 2048
  /-- The binary logarithm of the number of registers of a cardinality counter. -/
  precision : Nat := 14
  /-- The quantiles of a report. -/
  quantiles : List Float := [0.5, 0.9, 0.99]
  accuracy_mem : 0.0 < accuracy ∧ accuracy < 1.0 := by decide
  le_binLimit : 16 ≤ binLimit := by decide
  precision_mem : 4 ≤ precision ∧ precision ≤ 16 := by decide
  quantiles_ne : quantiles ≠ [] := by simp
  quantiles_mem : ∀ q ∈ quantiles, 0.0 ≤ q ∧ q ≤ 1.0 := by decide

def Analysis.standard : Analysis := {}

/-- An accuracy lies strictly between zero and one. The upper bound is checked first. -/
def readAccuracy (v : Value) : Except Problem { x : Float // 0.0 < x ∧ x < 1.0 } := do
  let x ← v.toNumber
  if below : x < 1.0 then
    if above : 0.0 < x then pure ⟨x, above, below⟩ else .error .greaterThan
  else .error .lessThan

def readBinLimit (v : Value) : Except Problem { n : Nat // 16 ≤ n } := do
  let n ← v.toInteger
  if h : 16 ≤ n then pure ⟨n.toNat, by omega⟩ else .error .greaterThanEqual

def readPrecision (v : Value) : Except Problem { n : Nat // 4 ≤ n ∧ n ≤ 16 } := do
  let n ← v.toInteger
  if most : n ≤ 16 then
    if least : 4 ≤ n then pure ⟨n.toNat, by omega⟩ else .error .greaterThanEqual
  else .error .lessThanEqual

def readQuantiles (v : Value) :
    Except (List Complaint) { qs : List Float // qs ≠ [] ∧ ∀ q ∈ qs, 0.0 ≤ q ∧ q ≤ 1.0 } := do
  let qs ← nonEmptyList "quantiles" Value.toNumber v
  if some : qs ≠ [] then
    if within : ∀ q ∈ qs, 0.0 ≤ q ∧ q ≤ 1.0 then pure ⟨qs, some, within⟩
    else .error [⟨"quantiles", none, .valueError⟩]
  else .error [⟨"quantiles", none, .tooShort⟩]

/-- Reads analysis settings. What is not given has its default, and every complaint is
reported in the order of the settings. -/
def Analysis.ofValues (given : List (String × Value)) : Except (List Complaint) Analysis :=
  let d := Analysis.standard
  let accuracy := field given "relative_accuracy" ⟨d.accuracy, d.accuracy_mem⟩
    (plain "relative_accuracy" readAccuracy)
  let bins := field given "bin_limit" ⟨d.binLimit, d.le_binLimit⟩ (plain "bin_limit" readBinLimit)
  let precision := field given "cardinality_precision" ⟨d.precision, d.precision_mem⟩
    (plain "cardinality_precision" readPrecision)
  let quantiles := field given "quantiles" ⟨d.quantiles, d.quantiles_ne, d.quantiles_mem⟩
    readQuantiles
  match accuracy, bins, precision, quantiles with
  | .ok a, .ok b, .ok p, .ok qs =>
    .ok ⟨a.1, b.1, p.1, qs.1, a.2, b.2, p.2, qs.2.1, qs.2.2⟩
  | _, _, _, _ =>
    .error (complaints accuracy ++ complaints bins ++ complaints precision ++
      complaints quantiles)

end MetricCapture.Settings
