import MetricCapture.Proofs.Number.Layout
/-! Significant digits. The power of ten of the first digit is found from the number of binary digits,
the digits are those of the nearest decimal number, and as a text they write that number. -/
namespace MetricCapture.Number

open MetricCapture.Text

section

variable {num den : Nat}

/-- Powers of ten and of two, by fractions on either side of the logarithm of ten. -/
private theorem ten_zpow_le {g b : Int} (hup : 0 ≤ g → 103 * g ≤ 31 * b)
    (hdown : g ≤ 0 → 93 * g ≤ 28 * b) : (10 : ℚ) ^ g ≤ 2 ^ b := by
  rcases Int.le_total 0 g with hg | hg
  · rw [← pow_le_pow_iff_left₀ (by positivity) (by positivity) (show 31 ≠ 0 by decide)]
    calc
      ((10 : ℚ) ^ g) ^ 31 = (10 ^ (31 : Nat)) ^ g := by
        rw [← zpow_natCast, ← zpow_natCast, ← zpow_mul, ← zpow_mul, mul_comm]
      _ ≤ (2 ^ (103 : Nat)) ^ g := zpow_le_zpow_left₀ hg (by norm_num) (by norm_num)
      _ = 2 ^ (103 * g) := by rw [← zpow_natCast, ← zpow_mul]; rfl
      _ ≤ 2 ^ (31 * b) := zpow_le_zpow_right₀ (by norm_num) (hup hg)
      _ = ((2 : ℚ) ^ b) ^ 31 := by rw [← zpow_natCast, ← zpow_mul, mul_comm]; rfl
  · rw [← pow_le_pow_iff_left₀ (by positivity) (by positivity) (show 28 ≠ 0 by decide)]
    calc
      ((10 : ℚ) ^ g) ^ 28 = ((10 ^ (28 : Nat)) ^ (-g))⁻¹ := by
        rw [← zpow_natCast, ← zpow_natCast, ← zpow_mul, ← zpow_mul, ← zpow_neg, mul_neg, neg_neg,
          mul_comm]
      _ ≤ ((2 ^ (93 : Nat)) ^ (-g))⁻¹ := by
        refine inv_anti₀ (by positivity) (zpow_le_zpow_left₀ (by omega) (by norm_num) (by norm_num))
      _ = 2 ^ (93 * g) := by
        rw [← zpow_natCast, ← zpow_mul, ← zpow_neg, mul_neg, neg_neg]; rfl
      _ ≤ 2 ^ (28 * b) := zpow_le_zpow_right₀ (by norm_num) (hdown hg)
      _ = ((2 : ℚ) ^ b) ^ 28 := by rw [← zpow_natCast, ← zpow_mul, mul_comm]; rfl

private theorem two_zpow_le {g b : Int} (hup : 0 ≤ g → 28 * b ≤ 93 * g)
    (hdown : g ≤ 0 → 31 * b ≤ 103 * g) : (2 : ℚ) ^ b ≤ 10 ^ g := by
  have hinverse := ten_zpow_le (g := -g) (b := -b) (by omega) (by omega)
  rw [zpow_neg, zpow_neg] at hinverse
  exact (inv_le_inv₀ (by positivity) (by positivity)).mp hinverse

/-- A quotient by the numbers of binary digits. -/
private theorem log2_bounds (hnum : 0 < num) (hden : 0 < den) :
    (2 : ℚ) ^ ((num.log2 : Int) - den.log2 - 1) ≤ num / den ∧
      (num : ℚ) / den < 2 ^ ((num.log2 : Int) - den.log2 + 1) := by
  have hlow : (2 : ℚ) ^ num.log2 ≤ num := by exact_mod_cast Nat.log2_self_le (Nat.ne_of_gt hnum)
  have hhigh : (num : ℚ) < 2 ^ (num.log2 + 1) := by exact_mod_cast Nat.lt_log2_self
  have hlow' : (2 : ℚ) ^ den.log2 ≤ den := by exact_mod_cast Nat.log2_self_le (Nat.ne_of_gt hden)
  have hhigh' : (den : ℚ) < 2 ^ (den.log2 + 1) := by exact_mod_cast Nat.lt_log2_self
  have hpos : (0 : ℚ) < den := Nat.cast_pos.mpr hden
  constructor
  · rw [sub_sub, zpow_sub₀ (by norm_num), ← Int.natCast_succ, zpow_natCast, zpow_natCast]
    exact div_le_div₀ (Nat.cast_nonneg _) hlow hpos (le_of_lt hhigh')
  · rw [show (num.log2 : Int) - den.log2 + 1 = ((num.log2 + 1 : Nat) : Int) - (den.log2 : Nat) by
      push_cast; ring, zpow_sub₀ (by norm_num), zpow_natCast, zpow_natCast]
    exact div_lt_div₀ hhigh hlow' (by positivity) (by positivity)

theorem powerAtMost_iff (hden : 0 < den) {e : Int} :
    powerAtMost e num den = true ↔ (10 : ℚ) ^ e ≤ num / den := by
  have hpos : (0 : ℚ) < den := Nat.cast_pos.mpr hden
  unfold powerAtMost
  rw [le_div_iff₀ hpos]
  split
  · rename_i he
    obtain ⟨k, rfl⟩ := Int.eq_ofNat_of_zero_le he
    rw [decide_eq_true_eq, zpow_natCast, Int.toNat_natCast, mul_comm]
    exact_mod_cast Iff.rfl
  · rename_i he
    obtain ⟨k, hk⟩ := Int.eq_ofNat_of_zero_le (show 0 ≤ -e by omega)
    obtain rfl : e = -k := by omega
    rw [decide_eq_true_eq, neg_neg, Int.toNat_natCast, zpow_neg, zpow_natCast,
      inv_mul_le_iff₀ (by positivity), mul_comm]
    exact_mod_cast Iff.rfl

/-- The power of ten of the first digit of a quotient that is not beyond all doubles. -/
theorem leadingExponent_spec (hnum : 0 < num) (hden : 0 < den)
    (hlog : ((num.log2 : Int) - den.log2).natAbs ≤ 10000) :
    (10 : ℚ) ^ leadingExponent num den ≤ num / den ∧
      (num : ℚ) / den < 10 ^ (leadingExponent num den + 1) := by
  obtain ⟨hlow, hhigh⟩ := log2_bounds hnum hden
  unfold leadingExponent
  dsimp only
  generalize (num.log2 : Int) - den.log2 = b at *
  generalize hg : b * 30103 / 100000 = g
  have hdown : (10 : ℚ) ^ (g - 1) ≤ num / den := (ten_zpow_le (by omega) (by omega)).trans hlow
  have hup : (num : ℚ) / den < 10 ^ (g + 2) := hhigh.trans_le (two_zpow_le (by omega) (by omega))
  split
  · rename_i h
    exact ⟨(powerAtMost_iff hden).mp h, by rwa [add_assoc]⟩
  · rename_i h
    rw [powerAtMost_iff hden, not_le] at h
    split
    · rename_i h'
      exact ⟨(powerAtMost_iff hden).mp h', h⟩
    · rename_i h'
      rw [powerAtMost_iff hden, not_le] at h'
      exact ⟨hdown, by rwa [sub_add_cancel]⟩

theorem scaled_spec (num : Nat) (hden : 0 < den) (power : Int) :
    0 < (scaled num den power).2 ∧
      ((scaled num den power).1 : ℚ) / (scaled num den power).2 = num / den * 10 ^ power := by
  have hpos : (0 : ℚ) < den := Nat.cast_pos.mpr hden
  unfold scaled
  split
  · rename_i h
    obtain ⟨k, rfl⟩ := Int.eq_ofNat_of_zero_le h
    refine ⟨hden, ?_⟩
    rw [Int.toNat_natCast, zpow_natCast]
    push_cast
    ring
  · rename_i h
    obtain ⟨k, hk⟩ := Int.eq_ofNat_of_zero_le (show 0 ≤ -power by omega)
    obtain rfl : power = -k := by omega
    refine ⟨Nat.mul_pos hden (Nat.pow_pos (by decide)), ?_⟩
    rw [neg_neg, Int.toNat_natCast, zpow_neg, zpow_natCast]
    push_cast
    field_simp

private theorem ten_zpow_mul (m n : Int) : (10 : ℚ) ^ m * 10 ^ n = 10 ^ (m + n) :=
  (zpow_add₀ (by norm_num) m n).symm

/-- The digits of a quotient that begins with a power of ten are off by no more than half of the last one.
For a quotient up to a power of ten that is the last place of numbers below the power. -/
private theorem abs_scaled_sub_le {a b k : Nat} {e n : Int} {r : ℚ} (hb : 0 < b)
    (hab : (a : ℚ) / b = r * 10 ^ ((k : Int) - e)) (hlow : 10 ^ e ≤ r) (hle : r ≤ 10 ^ n) :
    |(roundHalfEven a b : ℚ) * 10 ^ (e - k) - r| ≤ 10 ^ (n - (k + 1)) / 2 := by
  have hpos : ∀ m : Int, (0 : ℚ) < 10 ^ m := fun m => zpow_pos (by norm_num) m
  have hscale : (roundHalfEven a b : ℚ) * 10 ^ (e - k) - r =
      (roundHalfEven a b - a / b) * 10 ^ (e - k) := by
    rw [hab, sub_mul, mul_assoc, ten_zpow_mul, show (k : Int) - e + (e - k) = 0 by ring, zpow_zero, mul_one]
  rw [hscale, abs_mul, abs_of_pos (hpos _)]
  rcases Int.lt_or_eq_of_le ((zpow_le_zpow_iff_right₀ (by norm_num)).mp (hlow.trans hle)) with hlt | rfl
  · calc
      |(roundHalfEven a b : ℚ) - a / b| * 10 ^ (e - k) ≤ 1 / 2 * 10 ^ (e - k) :=
        mul_le_mul_of_nonneg_right (abs_roundHalfEven_sub_le a hb) (le_of_lt (hpos _))
      _ ≤ 1 / 2 * 10 ^ (n - (k + 1)) :=
        mul_le_mul_of_nonneg_left (zpow_le_zpow_right₀ (by norm_num) (by omega)) (by norm_num)
      _ = 10 ^ (n - (k + 1)) / 2 := by ring
  · -- The quotient is the power of ten itself, of which nothing is rounded.
    have hb' : (b : ℚ) ≠ 0 := Nat.cast_ne_zero.mpr (Nat.ne_of_gt hb)
    rw [le_antisymm hle hlow, ten_zpow_mul, add_sub_cancel, zpow_natCast, div_eq_iff hb'] at hab
    have hexact : a = 10 ^ k * b := by exact_mod_cast hab
    rw [hexact, roundHalfEven_mul _ hb, Nat.cast_mul, mul_div_cancel_right₀ _ hb', sub_self, abs_zero,
      zero_mul]
    exact div_nonneg (le_of_lt (hpos _)) (by norm_num)

/-- The nearest decimal number has as many digits as asked for, and it is near. -/
theorem ofRatio_spec (k : Nat) (hnum : 0 < num) (hden : 0 < den)
    (hlog : ((num.log2 : Int) - den.log2).natAbs ≤ 10000) :
    let d := Scientific.ofRatio (k + 1) num den
    10 ^ k ≤ d.digits ∧ d.digits < 10 ^ (k + 1) ∧ ∀ n : Int, (num : ℚ) / den ≤ 10 ^ n →
      |(d.digits : ℚ) * 10 ^ (d.exponent - k) - num / den| ≤ 10 ^ (n - (k + 1)) / 2 := by
  obtain ⟨hlow, hhigh⟩ := leadingExponent_spec hnum hden hlog
  unfold Scientific.ofRatio
  dsimp only
  generalize leadingExponent num den = e at *
  obtain ⟨hb, hab⟩ := scaled_spec num hden ((k + 1 : Nat) - 1 - e)
  generalize (scaled num den ((k + 1 : Nat) - 1 - e)).1 = a at *
  generalize (scaled num den ((k + 1 : Nat) - 1 - e)).2 = b at *
  rw [show ((k + 1 : Nat) : Int) - 1 - e = k - e by push_cast; ring] at hab
  have hb' : (0 : ℚ) < b := Nat.cast_pos.mpr hb
  have hpos : (0 : ℚ) < 10 ^ ((k : Int) - e) := zpow_pos (by norm_num) _
  have hlower : 10 ^ k * b ≤ a := by
    have h := mul_le_mul_of_nonneg_right hlow (le_of_lt hpos)
    rw [ten_zpow_mul, ← hab, add_sub_cancel, zpow_natCast, le_div_iff₀ hb'] at h
    exact_mod_cast h
  have hupper : a < 10 ^ (k + 1) * b := by
    have h := mul_lt_mul_of_pos_right hhigh hpos
    rw [ten_zpow_mul, ← hab, show e + 1 + (k - e) = ((k + 1 : Nat) : Int) by push_cast; ring, zpow_natCast,
      div_lt_iff₀ hb'] at h
    exact_mod_cast h
  have hfirst := (cut_roundHalfEven a hb).le _ hlower
  have hlast := (cut_roundHalfEven a hb).ge _ (Nat.le_of_lt hupper)
  have hnear := fun n (hn : (num : ℚ) / den ≤ 10 ^ n) => abs_scaled_sub_le hb hab hlow hn
  generalize roundHalfEven a b = m at *
  split
  · rename_i hcarry
    refine ⟨Nat.le_refl _, Nat.pow_lt_pow_right (by decide) (Nat.lt_succ_self k), fun n hn => ?_⟩
    have hsame : (((10 ^ (k + 1 - 1) : Nat)) : ℚ) * 10 ^ (e + 1 - k) = m * 10 ^ (e - k) := by
      rw [hcarry, Nat.add_sub_cancel, show e + 1 - k = 1 + (e - k) by ring, ← ten_zpow_mul, zpow_one]
      push_cast
      ring
    dsimp only
    rw [hsame]
    exact hnear n hn
  · rename_i hcarry
    exact ⟨hfirst, Nat.lt_of_le_of_ne hlast hcarry, hnear⟩

end

section

variable {x : Float} {negative : Bool} {s : Nat} {e : Int}

/-- The digits of a double make up a quotient of its size. -/
theorem log2_ratio (hs : 0 < s) : 0 < (Exact.ratio s e).1 ∧
    ((Exact.ratio s e).1.log2 : Int) - (Exact.ratio s e).2.log2 = s.log2 + e := by
  unfold Exact.ratio
  split
  · rename_i h
    obtain ⟨k, rfl⟩ := Int.eq_ofNat_of_zero_le h
    rw [Int.toNat_natCast, log2_shift hs, show Nat.log2 1 = 0 by decide]
    exact ⟨Nat.mul_pos hs (Nat.two_pow_pos k), by push_cast; ring⟩
  · rename_i h
    obtain ⟨k, hk⟩ := Int.eq_ofNat_of_zero_le (show 0 ≤ -e by omega)
    rw [hk, Int.toNat_natCast]
    dsimp only
    rw [Nat.log2_two_pow]
    exact ⟨hs, by omega⟩

theorem natAbs_log2_ratio_le (h : Exact.ofFloat x = .finite negative s e) (hs : 0 < s) :
    (((Exact.ratio s e).1.log2 : Int) - (Exact.ratio s e).2.log2).natAbs ≤ 10000 := by
  obtain ⟨hlt, hlow, hhigh⟩ := bounds_of_ofFloat h
  have hlog : s.log2 < 53 := (Nat.log2_lt (Nat.ne_of_gt hs)).mpr hlt
  rw [(log2_ratio hs).2]
  omega

/-- Digits without the zeros at their end write the same number. -/
theorem exists_writes_dropZeros (negative : Bool) {k d : Nat} (hfirst : 10 ^ k ≤ d)
    (hlast : d < 10 ^ (k + 1)) (e : Int) (plain : Bool) :
    ∃ l, Literal.Writes (signed negative (if plain = true then plainForm (dropZeros (digits d)) e
      else exponentForm (dropZeros (digits d)) e)) l ∧
      l.amount = factor (if negative then .negative else .positive) * (d * 10 ^ (e - k)) := by
  obtain ⟨j, hj⟩ := exists_zeros (digits d)
  have hrun := decimalRun_digits d
  have hall := all_digits d
  have hlength : (digits d).length = k + 1 := by
    have hlong : ¬ (digits d).length ≤ k := by
      rcases Nat.eq_zero_or_pos k with rfl | hk
      · exact Nat.not_le.mpr Nat.length_toDigits_pos
      · exact fun h => Nat.not_lt.mpr hfirst ((Nat.length_toDigits_le_iff (by decide) hk).mp h)
    have hshort := (Nat.length_toDigits_le_iff (by decide) (Nat.succ_pos k)).mpr hlast
    exact Nat.le_antisymm hshort (Nat.not_le.mp hlong)
  rw [hj, decimalRun_append, decimalRun_zeros, List.length_replicate, Nat.add_zero] at hrun
  rw [hj, List.all_append, Bool.and_eq_true] at hall
  rw [hj, List.length_append, List.length_replicate] at hlength
  generalize dropZeros (digits d) = ds at *
  have hne : ds ≠ [] := by
    rintro rfl
    have hpos : 0 < 10 ^ k := Nat.pow_pos (by decide)
    rw [show decimalRun [] = 0 from rfl, Nat.zero_mul] at hrun
    omega
  have hwritten : WritesDigits (signed negative (if plain = true then plainForm ds e
      else exponentForm ds e)) negative ds e := by
    split
    · exact writesDigits_plainForm negative hne hall.1
    · exact writesDigits_exponentForm negative hne hall.1
  obtain ⟨l, hwrites, hamount⟩ := hwritten
  refine ⟨l, hwrites, ?_⟩
  rw [hamount, ← hrun, show e + 1 - (ds.length : Int) = j + (e - k) by omega, ← ten_zpow_mul, zpow_natCast]
  push_cast
  ring

/-- A double with some significant digits is a literal, and the number that it writes is near. -/
theorem exists_writes_compactText (k : Nat) (hx : IsFinite x) :
    ∃ l, Literal.Writes (compactText (k + 1) x).toList l ∧
      ∀ n : Int, |amount x| ≤ 10 ^ n → |l.amount - amount x| ≤ 10 ^ (n - (k + 1)) / 2 := by
  obtain ⟨negative, s, e, h⟩ := exists_ofFloat hx
  have hden := (ratio_le h).1
  rw [amount_of_ofFloat h]
  unfold compactText
  rw [h]
  dsimp only
  rw [String.toList_ofList]
  split
  · rename_i hs
    obtain ⟨l, hwrites, hamount⟩ : WritesDigits (signed negative (plainForm ['0'] 0)) negative ['0'] 0 :=
      writesDigits_plainForm negative (by decide) (by decide)
    refine ⟨l, hwrites, fun n _ => ?_⟩
    have hzero : ((Exact.ratio s e).1 : ℚ) = 0 := by
      rw [hs]
      unfold Exact.ratio
      split <;> simp
    rw [hamount, hzero, show decimalRun ['0'] = 0 by decide]
    simp only [Nat.cast_zero, zero_mul, zero_div, mul_zero, sub_self, abs_zero]
    exact div_nonneg (zpow_nonneg (by norm_num) _) (by norm_num)
  · rename_i hs
    have hpos := Nat.pos_of_ne_zero hs
    obtain ⟨hfirst, hlast, hnear⟩ := ofRatio_spec k (log2_ratio (e := e) hpos).1 hden
      (natAbs_log2_ratio_le h hpos)
    obtain ⟨l, hwrites, hamount⟩ := exists_writes_dropZeros negative hfirst hlast _ _
    refine ⟨l, hwrites, fun n hn => ?_⟩
    rw [abs_factor_mul, abs_of_nonneg (by positivity)] at hn
    rw [hamount, ← mul_sub, abs_factor_mul]
    exact hnear n hn

end

end MetricCapture.Number
