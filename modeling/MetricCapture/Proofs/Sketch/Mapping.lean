import MetricCapture.Proofs.Number.Whole
import MetricCapture.Sketch.Basic
/-! Scales of sketches. The factor between the bins of a scale is a number, so that a scale is never
taken for another one. -/
namespace MetricCapture.Sketch

open MetricCapture.Number

private theorem finite_between {a : Float} (h : 0.0 < a ∧ a < 1.0) : IsFinite a := by
  obtain ⟨_, _, hpos⟩ := (lt_iff _ _).mp h.1
  obtain ⟨_, _, hlt⟩ := (lt_iff _ _).mp h.2
  have hzero : order 0.0 = 0 := by decide
  have hone := finite_one.order_lt
  exact finite_of_order (by omega) (by omega)

/-- What is left of one by a number between zero and one is finite and more than zero. -/
private theorem finite_one_sub {a : Float} (h : 0.0 < a ∧ a < 1.0) :
    IsFinite (1.0 - a) ∧ magnitude (1.0 - a) ≠ 0 := by
  have ha := finite_between h
  obtain ⟨_, hnum, hpos⟩ := (lt_iff _ _).mp h.1
  obtain ⟨_, _, hlt⟩ := (lt_iff _ _).mp h.2
  have hsmallest : IsFinite (Float.ofBits 1) := by
    unfold IsFinite
    decide
  have hv : value (Float.ofBits 1) = 1 := by decide
  have hzero : value 0.0 = 0 := by decide
  have hvpos := (value_le_iff 0.0 a).mpr (Int.le_of_lt hpos)
  have hvlt : value a < value 1.0 := by
    rw [← Int.not_le, value_le_iff, Int.not_le]
    exact hlt
  obtain ⟨_, _, hlow⟩ := (le_iff _ _).mp <|
    le_sub_of_le ha hsmallest finite_one ((le_iff a a).mpr ⟨hnum, hnum, Int.le_refl _⟩)
      (by omega)
  obtain ⟨_, _, hhigh⟩ := (le_iff _ _).mp <| sub_le finite_one finite_one ha (by omega)
  have hone := finite_one.order_lt
  have horder : order (Float.ofBits 1) = 1 := by decide
  refine ⟨finite_of_order (by omega) (by omega), ?_⟩
  intro hz
  have hz' : order (1.0 - a) = 0 := by
    unfold order
    rw [hz]
    cases sign (1.0 - a) <;> rfl
  omega

/-- The factor of a scale is a number. -/
theorem Mapping.isNumber_base {a : Float} (h : 0.0 < a ∧ a < 1.0) :
    IsNumber (ofAccuracy a).base := by
  obtain ⟨hfin, hne⟩ := finite_one_sub h
  have htwo : IsFinite 2.0 := by
    unfold IsFinite
    decide
  exact isNumber_add finite_one (isNumber_div (isNumber_mul htwo (finite_between h)) hfin hne)

end MetricCapture.Sketch
