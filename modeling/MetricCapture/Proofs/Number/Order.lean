import MetricCapture.Proofs.Number.Word
/-! The order of doubles is that of their words, with the sign in front. What is no number is in no
order with anything, and zero is the same with either sign. -/
namespace MetricCapture.Number

open Float.Model
open Float.Model.UnpackedFloat (Sign)

def IsNumber (x : Float) : Prop := magnitude x ≤ endless

def order (x : Float) : Int := (sign x).apply (magnitude x)

private theorem compare_digits (w w' : Nat) :
    (compare (exponent w) (exponent w')).then (compare (significand w) (significand w')) =
      compare w w' := by
  obtain ⟨hlt, hle, hfull⟩ := rounded_digits w
  obtain ⟨hlt', hle', hfull'⟩ := rounded_digits w'
  have hw := digits_eq w
  have hw' := digits_eq w'
  unfold leadingDigit at *
  rcases Nat.lt_trichotomy w w' with h | rfl | h
  · rw [Nat.compare_eq_lt.mpr h, Ordering.then_eq_lt, Int.compare_eq_lt, Int.compare_eq_eq,
      Nat.compare_eq_lt]
    omega
  · simp
  · rw [Nat.compare_eq_gt.mpr h, Ordering.then_eq_gt, Int.compare_eq_gt, Int.compare_eq_eq,
      Nat.compare_eq_gt]
    omega

private theorem compare_gt {a b : Int} (h : b < a) : compare a b = .gt := Int.compare_eq_gt.mpr h

private theorem compare_lt {a b : Int} (h : a < b) : compare a b = .lt := Int.compare_eq_lt.mpr h

private theorem compare_neg (a b : Nat) : compare (-a : Int) (-b : Int) = (compare a b).swap := by
  rcases Nat.lt_trichotomy a b with h | rfl | h
  · rw [Nat.compare_eq_lt.mpr h, compare_gt (by omega)]
    rfl
  · simp
  · rw [Nat.compare_eq_gt.mpr h, compare_lt (by omega)]
    rfl

private theorem compare_cast (a b : Nat) : compare (a : Int) (b : Int) = compare a b := by
  rcases Nat.lt_trichotomy a b with h | rfl | h
  · rw [Nat.compare_eq_lt.mpr h, compare_lt (by omega)]
  · simp
  · rw [Nat.compare_eq_gt.mpr h, compare_gt (by omega)]

/-- Numbers are compared as their words. -/
theorem compare_unpacked (s s' : Sign) {w w' : Nat} (h : w ≤ endless) (h' : w' ≤ endless) :
    (unpacked s w).compare (unpacked s' w') = some (compare (s.apply w) (s'.apply w')) := by
  have hpos : 0 < endless := by decide
  have hup : Sign.apply .positive w = w ∧ Sign.apply .positive w' = w' := ⟨rfl, rfl⟩
  have hdown : Sign.apply .negative w = -w ∧ Sign.apply .negative w' = -w' := ⟨rfl, rfl⟩
  rcases unpacked_cases s h with ⟨hw, hu⟩ | ⟨hw, hu⟩ | ⟨hw, hlt, hm, hu⟩ <;>
    rcases unpacked_cases s' h' with ⟨hw', hu'⟩ | ⟨hw', hu'⟩ | ⟨hw', hlt', hm', hu'⟩ <;>
    rw [hu, hu'] <;> cases s <;> cases s'
  all_goals
    first
    | exact congrArg some (compare_lt (by omega)).symm
    | exact congrArg some (compare_gt (by omega)).symm
    | exact congrArg some (Int.compare_eq_eq.mpr (by omega)).symm
    | skip
  · rw [hdown.1, hdown.2, compare_neg, ← compare_digits w w']
    rfl
  · rw [hup.1, hup.2, compare_cast, ← compare_digits w w']
    rfl

private theorem compare_isNumber {x y : Float} (hx : IsNumber x) (hy : IsNumber y) :
    x.toModel.compare y.toModel = some (compare (order x) (order y)) := by
  unfold Float.Model.compare
  rw [toModel_unpack, toModel_unpack]
  exact compare_unpacked _ _ hx hy

private theorem compare_notANumber {x y : Float} (h : ¬ (IsNumber x ∧ IsNumber y)) :
    x.toModel.compare y.toModel = none := by
  unfold Float.Model.compare
  rw [toModel_unpack, toModel_unpack]
  by_cases hx : IsNumber x
  · rw [unpacked_notANumber (sign y) (Nat.not_le.mp fun hy => h ⟨hx, hy⟩)]
    cases unpacked (sign x) (magnitude x) <;> rfl
  · rw [unpacked_notANumber (sign x) (Nat.not_le.mp hx)]
    rfl

private theorem compare_any_iff (x y : Float) (p : Ordering → Bool) :
    (x.toModel.compare y.toModel).any p = true ↔
      IsNumber x ∧ IsNumber y ∧ p (compare (order x) (order y)) = true := by
  by_cases h : IsNumber x ∧ IsNumber y
  · rw [compare_isNumber h.1 h.2, Option.any_some, and_iff_right h.1, and_iff_right h.2]
  · rw [compare_notANumber h, Option.any_none]
    constructor
    · intro hf
      cases hf
    · rintro ⟨hx, hy, _⟩
      exact absurd ⟨hx, hy⟩ h

theorem lt_iff (x y : Float) : x < y ↔ IsNumber x ∧ IsNumber y ∧ order x < order y := by
  have hlt : x < y ↔ (x.toModel.compare y.toModel).any (· == .lt) = true := by
    change decide _ = true ↔ _
    rw [decide_eq_true_iff]
    change (x.toModel.compare y.toModel == some .lt) = true ↔ _
    cases x.toModel.compare y.toModel <;> rfl
  rw [hlt, compare_any_iff, beq_iff_eq, Int.compare_eq_lt]

theorem le_iff (x y : Float) : x ≤ y ↔ IsNumber x ∧ IsNumber y ∧ order x ≤ order y := by
  have hle : x ≤ y ↔ (x.toModel.compare y.toModel).any (·.isLE) = true := by
    change decide _ = true ↔ _
    rw [decide_eq_true_iff]
    rfl
  rw [hle, compare_any_iff, Int.isLE_compare]

theorem beq_iff (x y : Float) : (x == y) = true ↔ IsNumber x ∧ IsNumber y ∧ order x = order y := by
  have heq : (x == y) = (x.toModel.compare y.toModel).any (· == .eq) := by
    change (x.toModel.compare y.toModel == some .eq) = _
    cases x.toModel.compare y.toModel <;> rfl
  rw [heq, compare_any_iff, beq_iff_eq, Int.compare_eq_eq]

theorem le_self {x : Float} (h : IsNumber x) : x ≤ x :=
  (le_iff x x).mpr ⟨h, h, Int.le_refl _⟩

theorem lt_of_le {a b c : Float} (hab : a ≤ b) (hbc : b < c) : a < c := by
  obtain ⟨ha, _, hle⟩ := (le_iff _ _).mp hab
  obtain ⟨_, hc, hlt⟩ := (lt_iff _ _).mp hbc
  exact (lt_iff _ _).mpr ⟨ha, hc, Int.lt_of_le_of_lt hle hlt⟩

theorem le_trans {a b c : Float} (hab : a ≤ b) (hbc : b ≤ c) : a ≤ c := by
  obtain ⟨ha, _, hle⟩ := (le_iff _ _).mp hab
  obtain ⟨_, hc, hle'⟩ := (le_iff _ _).mp hbc
  exact (le_iff _ _).mpr ⟨ha, hc, Int.le_trans hle hle'⟩

theorem lt_of_lt_of_le {a b c : Float} (hab : a < b) (hbc : b ≤ c) : a < c := by
  obtain ⟨ha, _, hlt⟩ := (lt_iff _ _).mp hab
  obtain ⟨_, hc, hle⟩ := (le_iff _ _).mp hbc
  exact (lt_iff _ _).mpr ⟨ha, hc, Int.lt_of_lt_of_le hlt hle⟩

theorem not_le_of_lt {a b : Float} (h : a < b) : ¬ b ≤ a := by
  obtain ⟨_, _, hlt⟩ := (lt_iff _ _).mp h
  intro hle
  obtain ⟨_, _, hge⟩ := (le_iff _ _).mp hle
  omega

def IsFinite (x : Float) : Prop := magnitude x < endless

theorem IsFinite.isNumber {x : Float} (h : IsFinite x) : IsNumber x := Nat.le_of_lt h

theorem finite_of_order {x : Float} (hl : -(endless : Int) < order x) (hh : order x < endless) :
    IsFinite x := by
  unfold order at hl hh
  unfold IsFinite
  cases h : sign x with
  | positive =>
    rw [h] at hh
    change (magnitude x : Int) < _ at hh
    omega
  | negative =>
    rw [h] at hl
    change _ < -(magnitude x : Int) at hl
    omega

theorem IsFinite.order_lt {x : Float} (h : IsFinite x) :
    -(endless : Int) < order x ∧ order x < endless := by
  unfold IsFinite at h
  unfold order
  cases sign x with
  | positive =>
    change _ < (magnitude x : Int) ∧ (magnitude x : Int) < _
    omega
  | negative =>
    change _ < -(magnitude x : Int) ∧ -(magnitude x : Int) < _
    omega

/-- Between finite doubles there are only finite ones. -/
theorem finite_of_le {a b x : Float} (ha : IsFinite a) (hb : IsFinite b) (hax : a ≤ x) (hxb : x ≤ b) :
    IsFinite x := by
  obtain ⟨hl, _⟩ := ha.order_lt
  obtain ⟨_, hh⟩ := hb.order_lt
  obtain ⟨_, _, hle⟩ := (le_iff _ _).mp hax
  obtain ⟨_, _, hle'⟩ := (le_iff _ _).mp hxb
  exact finite_of_order (by omega) (by omega)

theorem finite_one : IsFinite 1.0 := by
  unfold IsFinite
  decide

theorem isFinite_iff (x : Float) : isFinite x = true ↔ IsFinite x := by
  unfold isFinite Exact.ofFloat Exact.ofWord IsFinite magnitude endless leadingDigit signBit
  have hlt : x.toBits.toNat < 0x10000000000000000 := x.toBits.toNat_lt
  generalize x.toBits.toNat = w at hlt
  dsimp only
  by_cases hf : w / 0x10000000000000 % 2048 = 2047
  · rw [if_pos hf]
    by_cases hz : w % 0x10000000000000 = 0
    · rw [if_pos hz]
      simp only [Bool.false_eq_true, false_iff]
      omega
    · rw [if_neg hz]
      simp only [Bool.false_eq_true, false_iff]
      omega
  · rw [if_neg hf]
    by_cases hn : w / 0x10000000000000 % 2048 = 0
    · rw [if_pos hn]
      simp only [true_iff]
      omega
    · rw [if_neg hn]
      simp only [true_iff]
      omega

end MetricCapture.Number
