import Mathlib.Algebra.Order.Field.Rat
import Mathlib.Tactic.FieldSimp
import Mathlib.Tactic.Linarith
import Mathlib.Tactic.Positivity
import Mathlib.Tactic.Ring
import MetricCapture.Proofs.Number.Monotone
import MetricCapture.Proofs.Number.Quotient
/-! How far rounding leads. Finite doubles are rational numbers, and what a product or a rounding to
decimal places gives is as near to the exact one as the digits of a double allow. -/
namespace MetricCapture.Number

open Float.Model.UnpackedFloat (Sign)

def amount (x : Float) : ℚ := value x / unitsOfOne

def factor : Sign → ℚ
  | .positive => 1
  | .negative => -1

theorem abs_factor_mul (s : Sign) (r : ℚ) : |factor s * r| = |r| := by
  cases s with
  | positive => rw [factor, one_mul]
  | negative => rw [factor, neg_one_mul, abs_neg]

theorem factor_mul (s s' : Sign) : factor (s * s') = factor s * factor s' := by
  cases s <;> cases s'
  · exact ((neg_mul_neg 1 1).trans (one_mul 1)).symm
  · exact (mul_one _).symm
  · exact (one_mul _).symm
  · exact (one_mul _).symm

theorem amount_eq (x : Float) : amount x = factor (sign x) * (units (magnitude x) / unitsOfOne) := by
  unfold amount value
  rw [← mul_div_assoc]
  congr 1
  cases sign x with
  | positive => exact (one_mul _).symm
  | negative =>
    change ((-(units (magnitude x) : Int) : Int) : ℚ) = -1 * _
    rw [Int.cast_neg, Int.cast_natCast, neg_one_mul]

theorem amount_le_amount {x y : Float} (h : x ≤ y) : amount x ≤ amount y :=
  div_le_div_of_nonneg_right (Int.cast_le.mpr (value_le h)) (Nat.cast_nonneg _)

theorem IsWhole.amount_eq {x : Float} {n : Nat} (h : IsWhole x n) : amount x = n := by
  have hone : (unitsOfOne : ℚ) ≠ 0 := Nat.cast_ne_zero.mpr (Nat.ne_of_gt unitsOfOne_pos)
  rw [amount, h.value_eq, Int.cast_mul, Int.cast_natCast, Int.cast_natCast, mul_div_cancel_right₀ _ hone]

theorem IsNatural.amount_nonneg {x : Float} (h : IsNatural x) : 0 ≤ amount x := by
  rw [amount, h.value_eq, Int.cast_natCast]
  exact div_nonneg (Nat.cast_nonneg _) (Nat.cast_nonneg _)

/-- A number that is rounded to a whole one moves by no more than a half. -/
theorem abs_roundHalfEven_sub_le (num : Nat) {den : Nat} (hden : 0 < den) :
    |(roundHalfEven num den : ℚ) - num / den| ≤ 1 / 2 := by
  have hdigits := Nat.div_add_mod num den
  have hlt := Nat.mod_lt num hden
  have hbounds : 2 * (den * roundHalfEven num den) ≤ 2 * num + den ∧
      2 * num ≤ 2 * (den * roundHalfEven num den) + den := by
    unfold roundHalfEven
    dsimp only
    split
    · rename_i h
      simp only [Bool.or_eq_true, decide_eq_true_eq, Bool.and_eq_true, beq_iff_eq] at h
      rw [Nat.mul_succ]
      omega
    · rename_i h
      simp only [Bool.or_eq_true, decide_eq_true_eq, Bool.and_eq_true, beq_iff_eq] at h
      omega
  have hpos : (0 : ℚ) < den := Nat.cast_pos.mpr hden
  have hupper : 2 * ((den : ℚ) * roundHalfEven num den) ≤ 2 * num + den := by exact_mod_cast hbounds.1
  have hlower : 2 * (num : ℚ) ≤ 2 * ((den : ℚ) * roundHalfEven num den) + den := by
    exact_mod_cast hbounds.2
  rw [sub_div' (ne_of_gt hpos), abs_div, abs_of_pos hpos, div_le_iff₀ hpos, abs_le]
  constructor <;> linarith

/-- Digits that may have been carried out make up the magnitude of what they stand for. -/
theorem units_rounded {m t : Nat} (hle : m ≤ 2 * leadingDigit) (hfull : 0 < t → leadingDigit ≤ m) :
    units (t * leadingDigit + m) = m * 2 ^ t := by
  rcases Nat.lt_or_eq_of_le hle with hlt | rfl
  · exact units_digits hlt hfull
  · have hcarry := units_digits (m := leadingDigit) (t := t + 1) (by decide) fun _ => Nat.le_refl _
    rw [Nat.pow_succ', ← Nat.mul_assoc, Nat.mul_comm leadingDigit 2, Nat.succ_mul, Nat.add_assoc,
      ← Nat.two_mul] at hcarry
    exact hcarry

theorem leadingDigit_le_unitsOfOne : leadingDigit ≤ unitsOfOne := by
  obtain ⟨j, hj, hone⟩ := exists_unitsOfOne
  rw [hone, show leadingDigit = 2 ^ (52 : Nat) from rfl]
  exact Nat.pow_le_pow_right (by decide) (by omega)

/-- The nearest magnitude is off by no more than half of its last digit. -/
theorem Nearest.abs_sub_le {n d w : Nat} (h : Nearest n d w) (hw : w < endless) {b : ℚ} (hb : 1 ≤ b)
    (hle : (n : ℚ) / (d * unitsOfOne) ≤ b) :
    |(units w : ℚ) / unitsOfOne - n / (d * unitsOfOne)| ≤ b / 2 ^ 53 := by
  obtain ⟨t, hlt, hfull, rfl⟩ := h
  have hd : 0 < d := Nat.pos_of_ne_zero fun hz => by simp [hz] at hlt
  have hworth : 0 < 2 ^ t * d := Nat.mul_pos (Nat.two_pow_pos t) hd
  have hcut := cut_roundHalfEven n hworth
  have hnear := abs_roundHalfEven_sub_le n hworth
  generalize roundHalfEven n (2 ^ t * d) = r at hcut hnear hw ⊢
  rw [Nat.min_eq_left (by omega),
    units_rounded (hcut.ge _ (Nat.le_of_lt hlt)) fun ht => hcut.le _ (hfull ht)]
  have hone : (0 : ℚ) < unitsOfOne := Nat.cast_pos.mpr unitsOfOne_pos
  have hd' : (0 : ℚ) < d := Nat.cast_pos.mpr hd
  have hlast : (leadingDigit : ℚ) * 2 ^ t / unitsOfOne ≤ b := by
    rcases Nat.eq_zero_or_pos t with rfl | ht
    · rw [pow_zero, mul_one]
      refine LE.le.trans ?_ hb
      rw [div_le_one hone]
      exact_mod_cast leadingDigit_le_unitsOfOne
    · refine LE.le.trans ?_ hle
      have hfull : (leadingDigit : ℚ) * (2 ^ t * d) ≤ n := by exact_mod_cast hfull ht
      rw [div_le_div_iff₀ hone (mul_pos hd' hone)]
      calc
        (leadingDigit : ℚ) * 2 ^ t * (d * unitsOfOne) = leadingDigit * (2 ^ t * d) * unitsOfOne := by ring
        _ ≤ n * unitsOfOne := mul_le_mul_of_nonneg_right hfull (le_of_lt hone)
  have hscale : ((r * 2 ^ t : Nat) : ℚ) / unitsOfOne - n / (d * unitsOfOne) =
      2 ^ t / unitsOfOne * (r - n / ((2 ^ t * d : Nat) : ℚ)) := by
    generalize (unitsOfOne : ℚ) = u at hone
    push_cast
    field_simp
  have hpow : (0 : ℚ) ≤ 2 ^ t / unitsOfOne := div_nonneg (by positivity) (le_of_lt hone)
  rw [hscale, abs_mul, abs_of_nonneg hpow]
  calc
    (2 : ℚ) ^ t / unitsOfOne * |(r : ℚ) - n / ((2 ^ t * d : Nat) : ℚ)|
        ≤ 2 ^ t / unitsOfOne * (1 / 2) := mul_le_mul_of_nonneg_left hnear hpow
    _ = leadingDigit * 2 ^ t / unitsOfOne / 2 ^ 53 := by
      rw [show (leadingDigit : ℚ) = 2 ^ 52 by norm_num [leadingDigit]]
      ring
    _ ≤ b / 2 ^ 53 := by gcongr

/-- A product is off by no more than half of its last digit. -/
theorem abs_amount_mul_sub_le {x y : Float} (hx : IsFinite x) (hy : IsFinite y)
    (hxy : IsFinite (x * y)) {b : ℚ} (hb : 1 ≤ b) (hle : |amount x * amount y| ≤ b) :
    |amount (x * y) - amount x * amount y| ≤ b / 2 ^ 53 := by
  obtain ⟨hsign, hnearest⟩ := mul_nearest hx hy
  have hone : (0 : ℚ) < unitsOfOne := Nat.cast_pos.mpr unitsOfOne_pos
  have hproduct : amount x * amount y = factor (sign x * sign y) *
      (((units (magnitude x) * units (magnitude y) : Nat) : ℚ) / (unitsOfOne * unitsOfOne)) := by
    rw [amount_eq, amount_eq, factor_mul, Nat.cast_mul]
    ring
  have hnonneg := div_nonneg (Nat.cast_nonneg (units (magnitude x) * units (magnitude y)))
    (le_of_lt (mul_pos hone hone))
  rw [hproduct, abs_factor_mul, abs_of_nonneg hnonneg] at hle
  rw [hproduct, amount_eq, hsign, ← mul_sub, abs_factor_mul]
  exact hnearest.abs_sub_le hxy hb hle

section

variable {x : Float} {negative : Bool} {s : Nat} {e : Int}

theorem exists_ofFloat (hx : IsFinite x) : ∃ negative s e, Exact.ofFloat x = .finite negative s e := by
  have hfinite := (isFinite_iff x).mpr hx
  unfold isFinite at hfinite
  split at hfinite
  · rename_i negative s e h
    exact ⟨negative, s, e, h⟩
  · cases hfinite

/-- A magnitude is the quotient of its digits. -/
private theorem units_div (w : Nat) :
    (units w : ℚ) / unitsOfOne =
      (Exact.ratio (significand w) (exponent w)).1 / (Exact.ratio (significand w) (exponent w)).2 := by
  have hlow := (rounded_digits w).le
  obtain ⟨j, hj, hone⟩ := exists_unitsOfOne
  unfold units Exact.ratio
  rw [hone]
  generalize significand w = m
  generalize exponent w = e at hlow
  split
  · rename_i he
    rw [show (e + 1074).toNat = e.toNat + j by omega, Nat.pow_add]
    push_cast
    field_simp
  · rename_i he
    obtain ⟨k, hk⟩ := Nat.exists_eq_add_of_le (show (-e).toNat ≤ j by omega)
    rw [show (e + 1074).toNat = k by omega, hk, Nat.pow_add]
    push_cast
    field_simp

/-- A finite double is the quotient that it is taken apart into. -/
theorem amount_of_ofFloat (h : Exact.ofFloat x = .finite negative s e) :
    amount x = factor (if negative then .negative else .positive) *
      ((Exact.ratio s e).1 / (Exact.ratio s e).2) := by
  obtain ⟨hsign, rfl, rfl⟩ := digits_of_ofFloat h
  rw [amount_eq, hsign, units_div]

end

/-- The double nearest to a quotient is off by no more than half of its last digit, and it does not go
beyond a whole number. -/
theorem abs_amount_nearest_sub_le (negative : Bool) {num den b : Nat} (hden : 0 < den) (hpos : 1 ≤ b)
    (hexact : b ≤ 2 ^ (53 : Nat)) (hle : num ≤ b * den) :
    |amount (nearest negative num den)| ≤ b ∧
      |amount (nearest negative num den) - factor (if negative then .negative else .positive) *
        (num / den)| ≤ b / 2 ^ 53 := by
  have hnearest := nearest_word num hden
  unfold nearest
  generalize (if num = 0 then 0 else nearestWord num den) = w at hnearest ⊢
  -- The whole number is a double itself, so that nothing is rounded beyond it.
  obtain ⟨hfinite, hvalue⟩ := ofNat_exact hexact
  have hunits : units (magnitude (Float.ofNat b)) = b * unitsOfOne := by
    rw [(isNatural_ofNat hexact).value_eq] at hvalue
    exact_mod_cast hvalue
  have hw : w ≤ magnitude (Float.ofNat b) := by
    refine hnearest.nearQuotient.ge _ hfinite ?_
    rw [hunits, Nat.mul_right_comm]
    exact Nat.mul_le_mul_right _ hle
  have hlt : w < endless := Nat.lt_of_le_of_lt hw hfinite
  have hone : (0 : ℚ) < unitsOfOne := Nat.cast_pos.mpr unitsOfOne_pos
  have hquotient : ((num * unitsOfOne : Nat) : ℚ) / (den * unitsOfOne) = num / den := by
    rw [Nat.cast_mul]
    exact mul_div_mul_right _ _ (ne_of_gt hone)
  have hnear := hnearest.abs_sub_le (b := b) hlt (by exact_mod_cast hpos) (by
    rw [hquotient, div_le_iff₀ (Nat.cast_pos.mpr hden)]
    exact_mod_cast hle)
  rw [hquotient] at hnear
  rw [amount_eq, sign_ofMagnitude _ (Nat.le_of_lt hlt), magnitude_ofMagnitude _ (Nat.le_of_lt hlt),
    ← mul_sub, abs_factor_mul, abs_factor_mul]
  refine ⟨?_, hnear⟩
  have hmono := (units_le_iff _ _).mpr hw
  rw [hunits] at hmono
  rw [abs_of_nonneg (div_nonneg (Nat.cast_nonneg _) (le_of_lt hone)), div_le_iff₀ hone]
  exact_mod_cast hmono

/-- What is rounded to decimal places is off by no more than half of the last place, but for the digits
that a double does not have, and it does not go beyond a whole number. -/
theorem abs_amount_roundPlaces_sub_le (places : Nat) {x : Float} (hx : IsFinite x) {b : Nat} (hpos : 1 ≤ b)
    (hexact : b ≤ 2 ^ (53 : Nat)) (hle : |amount x| ≤ b) :
    |amount (roundPlaces places x)| ≤ b ∧
      |amount (roundPlaces places x) - amount x| ≤ 1 / (2 * 10 ^ places) + b / 2 ^ 53 := by
  obtain ⟨negative, s, e, h⟩ := exists_ofFloat hx
  have hden := (ratio_le h).1
  rw [amount_of_ofFloat h] at hle ⊢
  unfold roundPlaces
  rw [h]
  dsimp only
  generalize (Exact.ratio s e).1 = num at hle ⊢
  generalize (Exact.ratio s e).2 = den at hden hle ⊢
  rw [abs_factor_mul, abs_of_nonneg (by positivity), div_le_iff₀ (Nat.cast_pos.mpr hden)] at hle
  have hbound : roundHalfEven (num * 10 ^ places) den ≤ b * 10 ^ places := by
    refine (cut_roundHalfEven _ hden).ge _ ?_
    rw [Nat.mul_right_comm]
    exact Nat.mul_le_mul_right _ (by exact_mod_cast hle)
  have hround := abs_roundHalfEven_sub_le (num * 10 ^ places) hden
  generalize roundHalfEven (num * 10 ^ places) den = m at hbound hround ⊢
  obtain ⟨hupper, hnear⟩ :=
    abs_amount_nearest_sub_le negative (Nat.pow_pos (by decide)) hpos hexact hbound
  refine ⟨hupper, ?_⟩
  generalize (if negative then Sign.negative else .positive) = sign at hnear ⊢
  have hplaces : |factor sign * (m / (10 ^ places : Nat)) - factor sign * (num / den)| ≤
      1 / (2 * 10 ^ places) := by
    have hscale : (m : ℚ) / (10 ^ places : Nat) - num / den =
        (m - ((num * 10 ^ places : Nat) : ℚ) / den) / 10 ^ places := by
      push_cast
      field_simp
    rw [← mul_sub, abs_factor_mul, hscale, abs_div, abs_of_pos (show (0 : ℚ) < 10 ^ places by positivity),
      ← div_div]
    gcongr
  have htriangle := abs_sub_le (amount (nearest negative m (10 ^ places)))
    (factor sign * (m / (10 ^ places : Nat))) (factor sign * (num / den))
  linarith

end MetricCapture.Number
