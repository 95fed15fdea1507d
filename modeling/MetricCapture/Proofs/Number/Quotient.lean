import MetricCapture.Number.Layout
import MetricCapture.Proofs.Number.Whole
/-! Rounding of quotients. What a division gives is next to the exact quotient, and so is the double
that is made of a numerator and a denominator. So rounding to decimal places leads to no infinity. -/
namespace MetricCapture.Number

open Float.Model
open Float.Model.UnpackedFloat (Sign)

section

variable {num den : Nat}

/-- A quotient is less than what the digits from an exponent on can tell. -/
private theorem lt_of_log (hden : 0 < den) {t : Nat} (h : num.log2 + 1 + 1074 ≤ den.log2 + 53 + t) :
    num * unitsOfOne < 2 * leadingDigit * (2 ^ t * den) := by
  have hlt := Nat.lt_log2_self (n := num)
  have hle := Nat.log2_self_le (Nat.ne_of_gt hden)
  calc
    num * unitsOfOne < 2 ^ (num.log2 + 1) * unitsOfOne := Nat.mul_lt_mul_of_pos_right hlt unitsOfOne_pos
    _ = 2 ^ (num.log2 + 1 + 1074) := by
      rw [Nat.pow_add 2 (num.log2 + 1)]
      rfl
    _ ≤ 2 ^ (53 + (t + den.log2)) := Nat.pow_le_pow_right (by decide) (by omega)
    _ = 2 * leadingDigit * (2 ^ t * 2 ^ den.log2) := by
      rw [Nat.pow_add, Nat.pow_add 2 t]
      rfl
    _ ≤ 2 * leadingDigit * (2 ^ t * den) := Nat.mul_le_mul_left _ (Nat.mul_le_mul_left _ hle)

/-- A quotient has all the digits from an exponent on. -/
private theorem le_of_log (hnum : 0 < num) {t : Nat} (h : den.log2 + 53 + t ≤ num.log2 + 1074) :
    leadingDigit * (2 ^ t * den) ≤ num * unitsOfOne := by
  have hle := Nat.log2_self_le (Nat.ne_of_gt hnum)
  have hlt := Nat.lt_log2_self (n := den)
  calc
    leadingDigit * (2 ^ t * den) ≤ leadingDigit * (2 ^ t * 2 ^ (den.log2 + 1)) :=
      Nat.mul_le_mul_left _ (Nat.mul_le_mul_left _ (Nat.le_of_lt hlt))
    _ = 2 ^ (52 + (t + (den.log2 + 1))) := by
      rw [Nat.pow_add 2 52, Nat.pow_add 2 t]
      rfl
    _ ≤ 2 ^ (num.log2 + 1074) := Nat.pow_le_pow_right (by decide) (by omega)
    _ = 2 ^ num.log2 * unitsOfOne := by
      unfold unitsOfOne
      rw [Nat.pow_add]
    _ ≤ num * unitsOfOne := Nat.mul_le_mul_right _ hle

/-- A power of two goes into the denominator or into the numerator, whichever leaves it whole. -/
private theorem exists_scaled (num : Nat) (hden : 0 < den) (t : Nat) :
    ∃ a b, 0 < b ∧ num * unitsOfOne * b = a * (2 ^ t * den) ∧
      (if 0 ≤ (t : Int) - 1074 then
          (num, den * 2 ^ ((t : Int) - 1074).toNat)
        else (num * 2 ^ (-((t : Int) - 1074)).toNat, den)) = (a, b) := by
  by_cases ht : 0 ≤ (t : Int) - 1074
  · obtain ⟨k, rfl⟩ := Nat.exists_eq_add_of_le (show 1074 ≤ t by omega)
    rw [if_pos ht, show (((1074 + k : Nat) : Int) - 1074).toNat = k by omega]
    refine ⟨num, den * 2 ^ k, Nat.mul_pos hden (Nat.two_pow_pos k), ?_, rfl⟩
    rw [Nat.pow_add, Nat.mul_assoc num, Nat.mul_comm den, ← Nat.mul_assoc unitsOfOne]
    rfl
  · obtain ⟨k, hk⟩ := Nat.exists_eq_add_of_le (show t ≤ 1074 by omega)
    rw [if_neg ht, show (-((t : Int) - 1074)).toNat = k by omega]
    refine ⟨num * 2 ^ k, den, hden, ?_, rfl⟩
    unfold unitsOfOne
    rw [hk, Nat.pow_add, Nat.mul_assoc, Nat.mul_assoc, Nat.mul_left_comm (2 ^ t), ← Nat.mul_assoc]

/-- The exponent that is guessed from the number of digits, and made less if that was one too many, is
that of the last digit of a quotient, or else the lowest one. -/
private theorem exists_exponent (hnum : 0 < num) (hden : 0 < den) {full : Int → Bool}
    (hfull : ∀ t : Nat, full (t - 1074) = true ↔ leadingDigit * (2 ^ t * den) ≤ num * unitsOfOne)
    {guess : Int} (hguess : guess = (num.log2 : Int) - den.log2 - 52) :
    ∃ t : Nat, max (if full guess then guess else guess - 1) (-1074) = (t : Int) - 1074 ∧
      num * unitsOfOne < 2 * leadingDigit * (2 ^ t * den) ∧
      (0 < t → leadingDigit * (2 ^ t * den) ≤ num * unitsOfOne) := by
  by_cases hsmall : guess < -1074
  · refine ⟨0, ?_, lt_of_log hden (by omega), fun h => absurd h (Nat.lt_irrefl 0)⟩
    split <;> omega
  · obtain ⟨g, hg⟩ := Int.eq_ofNat_of_zero_le (show 0 ≤ guess + 1074 by omega)
    obtain rfl : guess = g - 1074 := by omega
    by_cases hf : full (g - 1074) = true
    · refine ⟨g, ?_, lt_of_log hden (by omega), fun _ => (hfull g).mp hf⟩
      rw [if_pos hf]
      omega
    · rw [if_neg hf]
      cases g with
      | zero => exact ⟨0, by omega, lt_of_log hden (by omega), fun h => absurd h (Nat.lt_irrefl 0)⟩
      | succ t =>
        refine ⟨t, by omega, ?_, fun _ => le_of_log hnum (by omega)⟩
        rw [hfull, Nat.not_le, Nat.pow_succ, Nat.mul_right_comm, ← Nat.mul_assoc,
          Nat.mul_comm (leadingDigit * _), ← Nat.mul_assoc] at hf
        exact hf

/-- The word of a quotient is the nearest one to it. -/
theorem nearestWord_nearest (hnum : 0 < num) (hden : 0 < den) :
    Nearest (num * unitsOfOne) den (nearestWord num den) := by
  unfold nearestWord
  extract_lets guess full exponent significand
  have hfull : ∀ t : Nat, full (t - 1074) = true ↔
      leadingDigit * (2 ^ t * den) ≤ num * unitsOfOne := by
    intro t
    obtain ⟨a, b, hb, heq, hab⟩ := exists_scaled num hden t
    have hiff : full (t - 1074) = true ↔ leadingDigit * b ≤ a := by
      change (if _ then decide _ else decide _) = true ↔ _
      split at hab
      all_goals
        rename_i ht
        obtain ⟨rfl, rfl⟩ := Prod.mk.inj hab
      · rw [if_pos ht, decide_eq_true_eq, Nat.mul_right_comm, Nat.mul_comm (den * _)]
      · rw [if_neg ht, decide_eq_true_eq, Nat.mul_comm]
    rw [hiff]
    have hpos := Nat.mul_pos (Nat.two_pow_pos t) hden
    rw [← Nat.mul_le_mul_right_iff hpos, Nat.mul_right_comm, ← heq, Nat.mul_le_mul_right_iff hb]
  have hround : ∀ t : Nat, exponent = t - 1074 →
      significand = roundHalfEven (num * unitsOfOne) (2 ^ t * den) := by
    intro t ht
    obtain ⟨a, b, hb, heq, hab⟩ := exists_scaled num hden t
    have hsignificand : significand = roundHalfEven a b := by
      change (if _ then _ else _) = _
      rw [ht]
      split at hab
      all_goals
        rename_i ht
        obtain ⟨rfl, rfl⟩ := Prod.mk.inj hab
      · rw [if_pos ht]
      · rw [if_neg ht]
    rw [hsignificand]
    exact roundHalfEven_eq hb (Nat.mul_pos (Nat.two_pow_pos t) hden) heq.symm
  obtain ⟨t, ht, hlt, hle⟩ := exists_exponent hnum hden hfull (show guess = _ from rfl)
  refine ⟨t, hlt, hle, ?_⟩
  rw [← hround t ht, show exponent = (t : Int) - 1074 from ht, Int.sub_add_cancel, Int.toNat_natCast]
  rfl

end

/-- A quotient of a number with so many more digits has enough of them. -/
private theorem le_log2_div {m d : Nat} {p : Prop} (hd : 0 < d) (h : p ∨ d.log2 + 53 ≤ m.log2) :
    p ∨ 52 ≤ (m / d).log2 := by
  refine h.imp_right fun h => ?_
  have hm : m ≠ 0 := fun hz => by simp [hz] at h
  have hle : 2 ^ (52 : Nat) ≤ m / d := by
    rw [Nat.le_div_iff_mul_le hd]
    calc
      2 ^ (52 : Nat) * d ≤ 2 ^ (52 : Nat) * 2 ^ (d.log2 + 1) :=
        Nat.mul_le_mul_left _ (Nat.le_of_lt Nat.lt_log2_self)
      _ = 2 ^ (52 + (d.log2 + 1)) := (Nat.pow_add ..).symm
      _ ≤ 2 ^ m.log2 := Nat.pow_le_pow_right (by decide) (by omega)
      _ ≤ m := Nat.log2_self_le hm
  exact (Nat.le_log2 (by omega)).mpr hle

/-- What a division gives is next to the quotient. -/
theorem div_near {x y : Float} (hx : IsFinite x) (hy : IsFinite y) (hx0 : magnitude x ≠ 0)
    (hy0 : magnitude y ≠ 0) :
    NearQuotient (units (magnitude x) * unitsOfOne) (units (magnitude y)) (magnitude (x / y)) := by
  rw [div_def, unpacked_finite _ hx hx0, unpacked_finite _ hy hy0]
  change NearQuotient _ _ (magnitude (packed (.roundWithAccuracy Format.binary64 _ (_ / _) _
    (UnpackedFloat.accuracyOfFraction (_ % _) _))))
  have hm := significand_pos hx0
  have he := (rounded_digits (magnitude x)).le
  have he' := (rounded_digits (magnitude y)).le
  have htarget : ∀ v, Format.binary64.targetExponent v = max (v - 53) (-1074) := fun v => rfl
  refine (roundFraction_nearest _ (significand_pos hy0) (units_pos hy0) ?_ ?_).2.nearQuotient
  · refine le_log2_div (significand_pos hy0) ?_
    rw [htarget, Nat.shiftLeft_eq, log2_shift hm]
    unfold totalExponent
    omega
  · -- Both sides are the two significands times the same power of two.
    intro a b hab
    generalize hle : min (exponent (magnitude x) - exponent (magnitude y)) _ = e at hab ⊢
    have hle : e ≤ exponent (magnitude x) - exponent (magnitude y) := hle ▸ Int.min_le_left _ _
    unfold units unitsOfOne
    rw [Nat.shiftLeft_eq]
    generalize significand (magnitude x) = m
    generalize significand (magnitude y) = d
    generalize hshift : (exponent (magnitude x) - exponent (magnitude y) - e).toNat = shift
    obtain ⟨j, hj⟩ := Int.eq_ofNat_of_zero_le (show 0 ≤ exponent (magnitude x) + 1074 by omega)
    obtain ⟨k, hk⟩ := Int.eq_ofNat_of_zero_le (show 0 ≤ exponent (magnitude y) + 1074 by omega)
    have hpow : j + 1074 + b = shift + a + k := by omega
    rw [hj, hk, Int.toNat_natCast, Int.toNat_natCast]
    calc
      m * 2 ^ j * 2 ^ (1074 : Nat) * (2 ^ b * d) = m * d * 2 ^ (j + 1074 + b) := by
        rw [Nat.pow_add, Nat.pow_add]
        simp only [Nat.mul_assoc, Nat.mul_comm d]
      _ = m * d * 2 ^ (shift + a + k) := by rw [hpow]
      _ = m * 2 ^ shift * (2 ^ a * (d * 2 ^ k)) := by
        rw [Nat.pow_add, Nat.pow_add]
        simp only [Nat.mul_assoc, Nat.mul_left_comm d]

theorem order_le_magnitude (x : Float) : order x ≤ magnitude x := by
  unfold order
  cases sign x with
  | positive => exact Int.le_refl _
  | negative =>
    change -(magnitude x : Int) ≤ _
    omega

theorem magnitude_of_pos {x : Float} (h : 0 < order x) : (magnitude x : Int) = order x := by
  unfold order at h ⊢
  cases hs : sign x with
  | positive => rfl
  | negative =>
    rw [hs] at h
    change 0 < -(magnitude x : Int) at h
    omega

/-- Dividing by one or more makes nothing larger. -/
theorem div_le {x y : Float} (hx : IsFinite x) (hpos : 0.0 < x) (hy : 1.0 ≤ y) : x / y ≤ x := by
  obtain ⟨_, hxnum, hxorder⟩ := (lt_iff _ _).mp hpos
  obtain ⟨_, hynum, hyorder⟩ := (le_iff _ _).mp hy
  rw [show order 0.0 = 0 by decide] at hxorder
  rw [show order 1.0 = (1023 * leadingDigit : Nat) by decide] at hyorder
  have hone : 0 < 1023 * leadingDigit := by decide
  have hxup := magnitude_of_pos hxorder
  have hyup := magnitude_of_pos (x := y) (by omega)
  have hquotient := order_le_magnitude (x / y)
  by_cases hfin : IsFinite y
  · have hy0 : magnitude y ≠ 0 := by omega
    have hunits : unitsOfOne ≤ units (magnitude y) := by
      have hle := (units_le_iff (1023 * leadingDigit) (magnitude y)).mpr (by omega)
      rwa [show units (1023 * leadingDigit) = unitsOfOne by decide +kernel] at hle
    have hle := (div_near hx hfin (by omega) hy0).ge _ hx (Nat.mul_le_mul_left _ hunits)
    exact (le_iff _ _).mpr ⟨isNumber_div hxnum hfin hy0, hxnum, by omega⟩
  · have hinfinite : magnitude y = endless := Nat.le_antisymm hynum (Nat.not_lt.mp hfin)
    have hdiv : x / y = packed (.zero (sign x / sign y)) := by
      rw [div_def, unpacked_finite _ hx (by omega), hinfinite, unpacked_endless]
      rfl
    have hnothing := (packed_zero (sign x / sign y)).2
    rw [← hdiv] at hnothing
    refine (le_iff _ _).mpr ⟨?_, hxnum, by omega⟩
    unfold IsNumber
    omega

def largest : Nat := (2 * leadingDigit - 1) * 2 ^ (971 : Nat)

theorem units_largest : units (endless - 1) = largest * unitsOfOne := by
  decide +kernel

/-- A natural number that has more digits than a double is rounded once. -/
private theorem ofNat_eq_round {n : Nat} (h : 2 ^ (53 : Nat) ≤ n) :
    Float.ofNat n = packed (.roundWithAccuracy Format.binary64 .positive (n * 2 ^ (53 : Nat))
      ((1021 : Nat) - 1074) .exact) := by
  have hdef : Float.ofNat n = packed (.ofScientific Format.binary64 n 0) :=
    dif_neg fun hlt => Nat.not_lt.mpr h hlt.1
  have hbits : (0 : Int) ≤ 2 ^ Format.binary64.exponentBits :=
    Int.le_of_lt (Int.pow_pos (by decide))
  have hshift : n <<< Format.binary64.mantissaBits * 10 ^ Int.toNat 0 = n * 2 ^ (53 : Nat) := by
    rw [Int.toNat_zero, Nat.pow_zero, Nat.mul_one, Nat.shiftLeft_eq]
    rfl
  have hplace : -(Format.binary64.mantissaBits : Int) + 0 = (1021 : Nat) - 1074 := by decide
  rw [hdef]
  unfold UnpackedFloat.ofScientific
  rw [dif_neg (show n ≠ 0 by omega), if_neg (Int.not_lt.mpr hbits), if_neg (by omega),
    if_pos (Int.le_refl 0)]
  unfold UnpackedFloat.mul
  dsimp only
  rw [hshift, hplace]
  rfl

/-- No natural number up to the largest double is taken for infinity. -/
theorem finite_ofNat {n : Nat} (h : n ≤ largest) : IsFinite (Float.ofNat n) := by
  rcases Nat.lt_or_ge n (2 ^ (53 : Nat)) with hlt | hge
  · exact (ofNat_exact (Nat.le_of_lt hlt)).1
  · have hpos : 0 < n := Nat.lt_of_lt_of_le (by decide) hge
    have hlog : 52 ≤ (n * 2 ^ (53 : Nat)).log2 := by
      rw [log2_shift hpos]
      exact Nat.le_trans (by decide) (Nat.le_add_left 53 _)
    obtain ⟨_, hnearest⟩ := roundExact_nearest .positive (n := n * unitsOfOne) (e := (1021 : Nat) - 1074)
      Nat.one_pos (.inr hlog) fun a b hab => by
        obtain ⟨j, _, hone⟩ := exists_unitsOfOne
        rw [hone, Nat.mul_one, Nat.mul_assoc, Nat.mul_assoc, ← Nat.pow_add, ← Nat.pow_add,
          show j + b = 53 + a by omega]
    rw [← ofNat_eq_round hge] at hnearest
    have hle := hnearest.nearQuotient.ge (endless - 1) (by decide) (by
      rw [units_largest, Nat.mul_one]
      exact Nat.mul_le_mul_right _ h)
    exact Nat.lt_of_le_of_lt hle (by decide)

/-- A sign and a magnitude make up a double. -/
theorem ofMagnitude_eq (negative : Bool) {w : Nat} (h : w ≤ endless) :
    ofMagnitude negative w = packed (unpacked (if negative then .negative else .positive) w) := by
  have hpack : ofMagnitude negative w = packed (UnpackedFloat.unpack Format.binary64
      (UInt64.ofNat (if negative then w + signBit else w)).toBitVec) := rfl
  have hword : (if negative then w + signBit else w) < 2 ^ 64 := by
    unfold endless leadingDigit at h
    unfold signBit
    split <;> omega
  have hnat : (UInt64.ofNat (if negative then w + signBit else w)).toBitVec.toNat =
      if negative then w + signBit else w := Nat.mod_eq_of_lt hword
  have hlt : w < signBit := by
    unfold endless leadingDigit at h
    unfold signBit
    omega
  rw [hpack, unpack_eq, hnat]
  cases negative with
  | false => simp only [Bool.false_eq_true, if_false, if_pos hlt, Nat.mod_eq_of_lt hlt]
  | true =>
    have hge : ¬ w + signBit < signBit := Nat.not_lt.mpr (Nat.le_add_left _ _)
    simp only [if_true, if_neg hge, Nat.add_mod_right, Nat.mod_eq_of_lt hlt]

theorem magnitude_ofMagnitude (negative : Bool) {w : Nat} (h : w ≤ endless) :
    magnitude (ofMagnitude negative w) = w := by
  rw [ofMagnitude_eq negative h]
  exact (packed_unpacked _ h).2

theorem sign_ofMagnitude (negative : Bool) {w : Nat} (h : w ≤ endless) :
    sign (ofMagnitude negative w) = if negative then .negative else .positive := by
  rw [ofMagnitude_eq negative h]
  exact (packed_unpacked _ h).1

section

variable {x : Float} {negative : Bool} {s : Nat} {e : Int}

/-- What a finite double is taken apart into are its sign and its digits. -/
theorem digits_of_ofFloat (h : Exact.ofFloat x = .finite negative s e) :
    sign x = (if negative then .negative else .positive) ∧ s = significand (magnitude x) ∧
      e = exponent (magnitude x) := by
  unfold Exact.ofFloat Exact.ofWord at h
  unfold sign magnitude significand exponent
  have hlt : x.toBits.toNat < 2 * signBit := x.toBits.toNat_lt
  generalize x.toBits.toNat = word at h hlt
  unfold signBit at hlt
  dsimp only at h
  split at h
  · split at h <;> cases h
  · split at h
    all_goals
      cases h
      unfold leadingDigit signBit at *
      refine ⟨?_, ?_, ?_⟩
      · by_cases hneg : 0x8000000000000000 ≤ word
        · rw [if_neg (Nat.not_lt.mpr hneg), decide_eq_true hneg, if_pos rfl]
        · rw [if_pos (Nat.not_le.mp hneg), decide_eq_false hneg, if_neg Bool.false_ne_true]
      · split <;> omega
      · omega

theorem bounds_of_ofFloat (h : Exact.ofFloat x = .finite negative s e) :
    s < 2 * leadingDigit ∧ -1074 ≤ e ∧ e ≤ 971 := by
  have hfinite : IsFinite x := by
    rw [← isFinite_iff, isFinite, h]
  obtain ⟨-, rfl, rfl⟩ := digits_of_ofFloat h
  obtain ⟨hlt, hle, -⟩ := rounded_digits (magnitude x)
  refine ⟨hlt, hle, ?_⟩
  unfold IsFinite endless at hfinite
  unfold exponent leadingDigit at *
  omega

/-- A finite double is no more than the largest one, as a quotient. -/
theorem ratio_le (h : Exact.ofFloat x = .finite negative s e) :
    0 < (Exact.ratio s e).2 ∧ (Exact.ratio s e).1 ≤ largest * (Exact.ratio s e).2 := by
  obtain ⟨hlt, -, he⟩ := bounds_of_ofFloat h
  have hs : s ≤ 2 * leadingDigit - 1 := by omega
  unfold Exact.ratio
  by_cases h0 : 0 ≤ e
  · rw [if_pos h0]
    obtain ⟨k, hk⟩ := Nat.exists_eq_add_of_le (show e.toNat ≤ 971 by omega)
    refine ⟨Nat.one_pos, ?_⟩
    unfold largest
    rw [Nat.mul_one, hk, Nat.pow_add]
    exact Nat.mul_le_mul hs (Nat.le_mul_of_pos_right _ (Nat.two_pow_pos k))
  · rw [if_neg h0]
    have hlargest : 2 * leadingDigit - 1 ≤ largest := by decide +kernel
    have hpow : 0 < 2 ^ (-e).toNat := Nat.two_pow_pos _
    exact ⟨hpow, Nat.le_trans (Nat.le_trans hs hlargest) (Nat.le_mul_of_pos_right _ hpow)⟩

end

/-- The word of a quotient, which may be zero. -/
theorem nearest_word (num : Nat) {den : Nat} (hden : 0 < den) :
    Nearest (num * unitsOfOne) den (if num = 0 then 0 else nearestWord num den) := by
  split
  · rename_i hz
    rw [hz, Nat.zero_mul]
    exact nearest_zero hden
  · rename_i hne
    exact nearestWord_nearest (Nat.pos_of_ne_zero hne) hden

/-- The double nearest to a quotient is finite if that is no more than the largest double. -/
theorem finite_nearest (negative : Bool) {num den : Nat} (hden : 0 < den)
    (h : num ≤ largest * den) : IsFinite (nearest negative num den) := by
  unfold nearest
  have hle := (nearest_word num hden).nearQuotient.ge (endless - 1) (by decide) (by
    rw [units_largest, Nat.mul_right_comm]
    exact Nat.mul_le_mul_right _ h)
  have hlt := Nat.lt_of_le_of_lt hle (show endless - 1 < endless by decide)
  unfold IsFinite
  rw [magnitude_ofMagnitude negative (Nat.le_of_lt hlt)]
  exact hlt

/-- Rounding to decimal places leads to no infinity. -/
theorem finite_roundPlaces (places : Nat) {x : Float} (hx : IsFinite x) :
    IsFinite (roundPlaces places x) := by
  unfold roundPlaces
  split
  · rename_i negative s e hfinite
    obtain ⟨hden, hle⟩ := ratio_le hfinite
    have hten : 0 < 10 ^ places := Nat.pow_pos (by decide)
    refine finite_nearest negative hten ((cut_roundHalfEven _ hden).ge _ ?_)
    rw [Nat.mul_right_comm]
    exact Nat.mul_le_mul_right _ hle
  · exact hx

end MetricCapture.Number
