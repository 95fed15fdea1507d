import MetricCapture.Proofs.Number.Order
/-! Rounding of exact outcomes. Counted in units of the smallest double, finite doubles are whole numbers, and
outcomes before rounding are quotients. They are rounded to the nearest double, and of two equally near ones to
the one with an even significand. So no finite double lies between a quotient and the double it is rounded to. -/
namespace MetricCapture.Number

open Float.Model
open Float.Model.UnpackedFloat (Sign ExtendedMantissa Accuracy)

def units (w : Nat) : Nat := significand w * 2 ^ (exponent w + 1074).toNat

/-- A magnitude next to a quotient of units: no finite one lies between. -/
structure NearQuotient (n d w : Nat) : Prop where
  le_endless : w ≤ endless
  le : ∀ c < endless, units c * d ≤ n → c ≤ w
  ge : ∀ c < endless, n ≤ units c * d → w ≤ c

/-- Digits of a quotient, with what is known of those that have been shifted out of it: whether they are
worth a half or more, and whether they are other than nothing and other than a half. -/
structure Tracks (n worth : Nat) (em : ExtendedMantissa) : Prop where
  mantissa : em.mantissa = n / worth
  roundBit : em.roundBit = decide (worth ≤ 2 * (n % worth))
  stickyBit : em.stickyBit = decide (n % worth ≠ 0 ∧ 2 * (n % worth) ≠ worth)

theorem tracks_exact (m : Nat) : Tracks m 1 (ExtendedMantissa.mk m false false) := by
  refine ⟨(Nat.div_one m).symm, ?_, ?_⟩ <;> simp [Nat.mod_one]

/-- A digit that is shifted out tells half of the new worth, and all others tell whether there is more. -/
theorem Tracks.shiftRightOne {n worth : Nat} {em : ExtendedMantissa} (hpos : 0 < worth)
    (h : Tracks n worth em) : Tracks n (worth * 2) em.shiftRightOne := by
  obtain ⟨hmantissa, hround, hsticky⟩ := h
  have hlt := Nat.mod_lt n hpos
  have hrest : n % (worth * 2) = n % worth ∧ n / worth % 2 = 0 ∨
      n % (worth * 2) = n % worth + worth ∧ n / worth % 2 = 1 := by
    rw [Nat.mod_mul]
    rcases Nat.mod_two_eq_zero_or_one (n / worth) with h | h <;> rw [h] <;> simp
  refine ⟨?_, ?_, ?_⟩
  · change em.mantissa / 2 = _
    rw [hmantissa, Nat.div_div_eq_div_mul]
  · change (em.mantissa % 2 != 0) = _
    rw [hmantissa, Bool.eq_iff_iff, bne_iff_ne, decide_eq_true_eq]
    omega
  · change (em.roundBit || em.stickyBit) = _
    rw [hround, hsticky, Bool.eq_iff_iff, Bool.or_eq_true]
    simp only [decide_eq_true_eq]
    omega

theorem Tracks.shift {n worth : Nat} {em : ExtendedMantissa} (hpos : 0 < worth)
    (h : Tracks n worth em) (k : Nat) : Tracks n (2 ^ k * worth) (em >>> k) := by
  induction k with
  | zero =>
    rw [Nat.pow_zero, Nat.one_mul]
    exact h
  | succ k ih =>
    rw [Nat.pow_succ, Nat.mul_right_comm]
    exact ih.shiftRightOne (Nat.mul_pos (Nat.two_pow_pos k) hpos)

/-- What is known of the digits that are shifted out is enough to find the nearest whole number. -/
theorem Tracks.roundedMantissa {n worth : Nat} {em : ExtendedMantissa} (h : Tracks n worth em) :
    em.roundedMantissa = roundHalfEven n worth := by
  obtain ⟨hmantissa, hround, hsticky⟩ := h
  obtain ⟨m, r, s⟩ := em
  dsimp only at hmantissa hround hsticky
  subst hmantissa
  have hdigit := Nat.mod_two_eq_zero_or_one (n / worth)
  have heq : (ExtendedMantissa.mk (n / worth) r s).roundedMantissa =
      if r then (if s then n / worth + 1 else n / worth + n / worth % 2) else n / worth := by
    cases r <;> cases s <;> rfl
  unfold roundHalfEven
  rw [heq, hround, hsticky]
  simp only [decide_eq_true_eq, Bool.or_eq_true, Bool.and_eq_true, beq_iff_eq]
  repeat' split
  all_goals omega

structure Cut (n worth m : Nat) : Prop where
  le : ∀ k, k * worth ≤ n → k ≤ m
  ge : ∀ k, n ≤ k * worth → m ≤ k

/-- A quotient is cut off by a whole number next to it, which is the quotient if that is whole. -/
theorem Cut.of_div {n worth m : Nat} (hpos : 0 < worth) (hle : n / worth ≤ m)
    (hge : m ≤ n / worth + 1) (hwhole : ∀ k, n = k * worth → m = k) : Cut n worth m := by
  constructor
  · exact fun k hk => Nat.le_trans ((Nat.le_div_iff_mul_le hpos).mpr hk) hle
  · intro k hk
    rcases Nat.eq_or_lt_of_le hk with heq | hlt
    · exact Nat.le_of_eq (hwhole k heq)
    · exact Nat.le_trans hge ((Nat.div_lt_iff_lt_mul hpos).mpr hlt)

/-- The nearest natural number cuts a quotient off. -/
theorem cut_roundHalfEven (num : Nat) {den : Nat} (hden : 0 < den) :
    Cut num den (roundHalfEven num den) := by
  have hbounds : num / den ≤ roundHalfEven num den ∧ roundHalfEven num den ≤ num / den + 1 := by
    unfold roundHalfEven
    dsimp only
    split <;> omega
  refine .of_div hden hbounds.1 hbounds.2 ?_
  -- Nothing is left of an exact quotient to round.
  rintro k rfl
  unfold roundHalfEven
  rw [Nat.mul_mod_left, Nat.mul_div_cancel _ hden]
  refine if_neg ?_
  simp only [Nat.mul_zero, Bool.or_eq_true, decide_eq_true_eq, Bool.and_eq_true, beq_iff_eq]
  omega

theorem roundHalfEven_mul (k : Nat) {den : Nat} (hden : 0 < den) : roundHalfEven (k * den) den = k :=
  Nat.le_antisymm ((cut_roundHalfEven _ hden).ge k (Nat.le_refl _))
    ((cut_roundHalfEven _ hden).le k (Nat.le_refl _))

theorem roundHalfEven_mul_right (num den : Nat) {factor : Nat} (hf : 0 < factor) :
    roundHalfEven (num * factor) (den * factor) = roundHalfEven num den := by
  have hrest : num * factor % (den * factor) = num % den * factor := Nat.mul_mod_mul_right ..
  have hlt : den * factor < 2 * (num % den * factor) ↔ den < 2 * (num % den) := by
    rw [← Nat.mul_assoc, Nat.mul_lt_mul_right hf]
  have heq : 2 * (num % den * factor) = den * factor ↔ 2 * (num % den) = den := by
    rw [← Nat.mul_assoc, Nat.mul_left_inj (Nat.ne_of_gt hf)]
  unfold roundHalfEven
  dsimp only
  rw [hrest, Nat.mul_div_mul_right _ _ hf]
  simp only [Bool.or_eq_true, decide_eq_true_eq, Bool.and_eq_true, beq_iff_eq, hlt, heq]

/-- Equal quotients are rounded alike. -/
theorem roundHalfEven_eq {num den num' den' : Nat} (hden : 0 < den) (hden' : 0 < den')
    (h : num * den' = num' * den) : roundHalfEven num den = roundHalfEven num' den' := by
  rw [← roundHalfEven_mul_right num den hden', h, Nat.mul_comm den, roundHalfEven_mul_right num' den' hden]

/-- A larger number is not rounded to a smaller one. -/
theorem roundHalfEven_le {num num' : Nat} (den : Nat) (h : num ≤ num') :
    roundHalfEven num den ≤ roundHalfEven num' den := by
  have hquotient := Nat.div_le_div_right (c := den) h
  have hdigits := Nat.div_add_mod num den
  have hdigits' := Nat.div_add_mod num' den
  unfold roundHalfEven
  dsimp only
  rcases Nat.lt_or_eq_of_le hquotient with hlt | heq
  · repeat' split
    all_goals omega
  · rw [heq] at hdigits ⊢
    simp only [Bool.or_eq_true, decide_eq_true_eq, Bool.and_eq_true, beq_iff_eq]
    repeat' split
    all_goals omega

/-- The nearest magnitude to a quotient of units, and of two equally near ones that with an even
significand. -/
def Nearest (n d w : Nat) : Prop :=
  ∃ t, n < 2 * leadingDigit * (2 ^ t * d) ∧ (0 < t → leadingDigit * (2 ^ t * d) ≤ n) ∧
    w = min (t * leadingDigit + roundHalfEven n (2 ^ t * d)) endless

private def place (log : Nat) : Nat := log - 52

private theorem targetExponent_eq (m j : Nat) :
    Format.binary64.targetExponent (totalExponent m (j - 1074)) = (place (m.log2 + j) : Int) - 1074 := by
  change max (_ - 53) (-1074) = _
  unfold totalExponent place
  omega

private theorem shiftToTargetExponent_eq (m j : Nat) :
    UnpackedFloat.shiftToTargetExponent Format.binary64 m (j - 1074) .exact =
      (ExtendedMantissa.mk m false false >>> (place (m.log2 + j) - j),
        ((max (place (m.log2 + j)) j : Nat) : Int) - 1074) := by
  unfold UnpackedFloat.shiftToTargetExponent UnpackedFloat.shiftToExponent
  rw [targetExponent_eq]
  dsimp only
  have hshift : ((place (m.log2 + j) : Int) - 1074 - (j - 1074)).toNat =
      place (m.log2 + j) - j := by omega
  rw [hshift]
  congr 1
  omega

theorem log2_shift {m : Nat} (hm : 0 < m) (k : Nat) : (m * 2 ^ k).log2 = m.log2 + k := by
  have hpos : 0 < 2 ^ k := Nat.two_pow_pos k
  have hm' : m ≠ 0 := Nat.ne_of_gt hm
  rw [Nat.log2_eq_iff (Nat.ne_of_gt (Nat.mul_pos hm hpos)), Nat.add_right_comm, Nat.pow_add,
    Nat.pow_add]
  exact ⟨Nat.mul_le_mul_right _ (Nat.log2_self_le hm'),
    Nat.mul_lt_mul_of_pos_right Nat.lt_log2_self hpos⟩

def settled (s : Sign) (r : Nat) (e : Int) : UnpackedFloat :=
  let (em, e') := UnpackedFloat.shiftToTargetExponent Format.binary64 r e .exact
  if h : em.mantissa = 0 then .zero s else .finite s em.mantissa e' (Nat.pos_of_ne_zero h)

private theorem settled_eq (s : Sign) {r t k e m : Nat} (hk : place (r.log2 + t) - t = k)
    (he : max (place (r.log2 + t)) t = e) (hm : r / 2 ^ k = m) (hpos : 0 < m) :
    settled s r ((t : Int) - 1074) = .finite s m ((e : Int) - 1074) hpos := by
  unfold settled
  rw [shiftToTargetExponent_eq, hk, he]
  dsimp only
  have hshift := ((tracks_exact r).shift Nat.one_pos k).mantissa
  rw [Nat.mul_one, hm] at hshift
  subst hshift
  exact dif_neg (Nat.ne_of_gt hpos)

/-- A carry out of the digits is settled without a loss. -/
theorem packed_settled (s : Sign) {r t : Nat} (hpos : 0 < r) (hle : r ≤ 2 * leadingDigit)
    (hfull : 0 < t → leadingDigit ≤ r) :
    sign (packed (settled s r ((t : Int) - 1074))) = s ∧
      magnitude (packed (settled s r ((t : Int) - 1074))) = min (t * leadingDigit + r) endless := by
  rcases Nat.lt_or_eq_of_le hle with hlt | rfl
  · have hlog : r.log2 < 53 := (Nat.log2_lt (Nat.ne_of_gt hpos)).mpr hlt
    have hplace : place (r.log2 + t) ≤ t := by
      unfold place
      omega
    have hwhole : r / 2 ^ 0 = r := by
      rw [Nat.pow_zero, Nat.div_one]
    rw [settled_eq s (Nat.sub_eq_zero_of_le hplace) (Nat.max_eq_right hplace) hwhole hpos]
    obtain ⟨hs, hw⟩ := packed_finite s hpos (e := (t : Int) - 1074) ⟨hlt, by omega, by omega⟩
    refine ⟨hs, hw.trans ?_⟩
    rw [Int.sub_add_cancel, Int.toNat_natCast]
  · have hplace : place ((2 * leadingDigit).log2 + t) = t + 1 := by
      rw [show (2 * leadingDigit).log2 = 53 by decide]
      unfold place
      omega
    rw [settled_eq s (k := 1) (e := t + 1) (by omega) (by omega) rfl (by decide)]
    obtain ⟨hs, hw⟩ := packed_finite s (m := 2 * leadingDigit / 2 ^ 1) (by decide)
      (e := ((t + 1 : Nat) : Int) - 1074) ⟨by decide, by omega, .inr (by decide)⟩
    refine ⟨hs, hw.trans ?_⟩
    rw [Int.sub_add_cancel, Int.toNat_natCast]
    unfold leadingDigit
    omega

/-- Finite magnitudes have as many digits as fit, unless they are the smallest. -/
theorem units_bounds (c : Nat) :
    ∃ e : Nat, c = e * leadingDigit + significand c ∧ units c = significand c * 2 ^ e ∧
      significand c < 2 * leadingDigit ∧ (0 < e → leadingDigit ≤ significand c) := by
  obtain ⟨hlt, hle, hfull⟩ := rounded_digits c
  have hdigits := digits_eq c
  have he : ((exponent c + 1074).toNat : Int) = exponent c + 1074 := Int.toNat_of_nonneg (by omega)
  refine ⟨(exponent c + 1074).toNat, ?_, rfl, hlt, ?_⟩
  · unfold leadingDigit at *
    omega
  · omega

theorem two_pow_lt {a b : Nat} (h : a < b) : 2 * 2 ^ a ≤ 2 ^ b := by
  rw [← Nat.pow_succ']
  exact Nat.pow_le_pow_right (by decide) h

/-- Digits that are cut off where the target exponent says make a magnitude next to the quotient. -/
theorem Cut.nearQuotient {n d t r : Nat} (h : Cut n (2 ^ t * d) r)
    (hlt : n < 2 * leadingDigit * (2 ^ t * d)) (hfull : 0 < t → leadingDigit * (2 ^ t * d) ≤ n) :
    NearQuotient n d (min (t * leadingDigit + r) endless) := by
  have hr : r ≤ 2 * leadingDigit := h.ge _ (Nat.le_of_lt hlt)
  have hrl : 0 < t → leadingDigit ≤ r := fun ht => h.le _ (hfull ht)
  have hd : 0 < d := Nat.pos_of_ne_zero fun hz => by simp [hz] at hlt
  refine ⟨Nat.min_le_right _ _, fun c hc hle => ?_, fun c hc hge => ?_⟩
  · obtain ⟨e, hdigits, hunits, hupper, hlower⟩ := units_bounds c
    rw [hunits, Nat.mul_assoc] at hle
    have hc' : c ≤ t * leadingDigit + r := by
      rcases Nat.lt_trichotomy e t with he | rfl | he
      · have hrl := hrl (by omega)
        unfold leadingDigit at *
        omega
      · have hm := h.le _ hle
        omega
      · have hpow := Nat.mul_le_mul_left leadingDigit (Nat.mul_le_mul_right d (two_pow_lt he))
        have hge := Nat.mul_le_mul_right (2 ^ e * d) (hlower (by omega))
        rw [Nat.mul_assoc 2, ← Nat.mul_assoc leadingDigit, Nat.mul_comm leadingDigit] at hpow
        omega
    exact Nat.le_min.mpr ⟨hc', Nat.le_of_lt hc⟩
  · obtain ⟨e, hdigits, hunits, hupper, hlower⟩ := units_bounds c
    rw [hunits, Nat.mul_assoc] at hge
    have hc' : t * leadingDigit + r ≤ c := by
      rcases Nat.lt_trichotomy e t with he | rfl | he
      · have hpow := Nat.mul_le_mul_left leadingDigit (Nat.mul_le_mul_right d (two_pow_lt he))
        have hgt := Nat.mul_lt_mul_of_pos_right hupper (Nat.mul_pos (Nat.two_pow_pos e) hd)
        have hn := hfull (by omega)
        rw [Nat.mul_assoc 2, ← Nat.mul_assoc leadingDigit, Nat.mul_comm leadingDigit] at hpow
        omega
      · have hm := h.ge _ hge
        omega
      · have hcl := hlower (by omega)
        unfold leadingDigit at *
        omega
    exact Nat.le_trans (Nat.min_le_left _ _) hc'

/-- The nearest magnitude is next to the quotient. -/
theorem Nearest.nearQuotient {n d w : Nat} (h : Nearest n d w) : NearQuotient n d w := by
  obtain ⟨t, hlt, hfull, rfl⟩ := h
  refine Cut.nearQuotient (cut_roundHalfEven n (Nat.pos_of_ne_zero fun hz => ?_)) hlt hfull
  rw [hz] at hlt
  exact absurd hlt (Nat.not_lt_zero _)

private def fraction (m d : Nat) : ExtendedMantissa :=
  .ofMantissaAndAccuracy (m / d) (UnpackedFloat.accuracyOfFraction (m % d) d)

private theorem tracks_fraction (m : Nat) {d : Nat} (hd : 0 < d) : Tracks m d (fraction m d) := by
  unfold fraction UnpackedFloat.accuracyOfFraction
  by_cases hz : m % d = 0
  · rw [if_pos hz]
    refine ⟨rfl, ?_, ?_⟩
    · rw [hz, decide_eq_false (by omega)]
      rfl
    · rw [hz, decide_eq_false (by omega)]
      rfl
  · rw [if_neg hz]
    rcases Nat.lt_trichotomy (2 * (m % d)) d with h | h | h
    · rw [Nat.compare_eq_lt.mpr h]
      exact ⟨rfl, (decide_eq_false (by omega)).symm, (decide_eq_true (by omega)).symm⟩
    · rw [Nat.compare_eq_eq.mpr h]
      exact ⟨rfl, (decide_eq_true (by omega)).symm, (decide_eq_false (by omega)).symm⟩
    · rw [Nat.compare_eq_gt.mpr h]
      exact ⟨rfl, (decide_eq_true (by omega)).symm, (decide_eq_true (by omega)).symm⟩

/-- Digits with an exponent no higher than that of the last one that is kept are shifted to it. -/
private theorem roundFraction_eq (s : Sign) (m : Nat) {d : Nat} (hd : 0 < d) {e : Int} {t k : Nat}
    (ht : max (((m / d).log2 : Int) + 1 + e - 53) (-1074) = (t : Int) - 1074)
    (hk : (t : Int) - 1074 - e = k) :
    UnpackedFloat.roundWithAccuracy Format.binary64 s (m / d) e
        (UnpackedFloat.accuracyOfFraction (m % d) d) =
      settled s (roundHalfEven m (2 ^ k * d)) ((t : Int) - 1074) := by
  have htarget : Format.binary64.targetExponent (totalExponent (m / d) e) = (t : Int) - 1074 := by
    change max (_ - 53) (-1074) = _
    unfold totalExponent
    omega
  have hshift : UnpackedFloat.shiftToTargetExponent Format.binary64 (m / d) e
      (UnpackedFloat.accuracyOfFraction (m % d) d) = (fraction m d >>> k, (t : Int) - 1074) := by
    unfold UnpackedFloat.shiftToTargetExponent UnpackedFloat.shiftToExponent
    rw [htarget]
    dsimp only
    rw [hk, Int.toNat_natCast, show e + (k : Int) = t - 1074 by omega]
    rfl
  unfold UnpackedFloat.roundWithAccuracy
  rw [hshift, ← ((tracks_fraction m hd).shift hd k).roundedMantissa]
  rfl

/-- A quotient with enough digits is rounded to the magnitude nearest to it. -/
theorem roundFraction_nearest (s : Sign) {m d n D : Nat} {e : Int} (hd : 0 < d) (hD : 0 < D)
    (hdigits : e ≤ -1074 ∨ 52 ≤ (m / d).log2)
    (hratio : ∀ a b : Nat, (a : Int) - b = e + 1074 → n * (2 ^ b * d) = m * (2 ^ a * D)) :
    let x := packed (.roundWithAccuracy Format.binary64 s (m / d) e
      (UnpackedFloat.accuracyOfFraction (m % d) d))
    sign x = s ∧ Nearest n D (magnitude x) := by
  obtain ⟨t, ht⟩ := Int.eq_ofNat_of_zero_le
    (show 0 ≤ max (((m / d).log2 : Int) + 1 + e - 53) (-1074) + 1074 by omega)
  obtain ⟨k, hk⟩ := Int.eq_ofNat_of_zero_le
    (show 0 ≤ max (((m / d).log2 : Int) + 1 + e - 53) (-1074) - e by omega)
  dsimp only
  rw [roundFraction_eq s m hd (t := t) (k := k) (by omega) (by omega)]
  have heq := hratio t k (by omega)
  have hpos : 0 < 2 ^ k * d := Nat.mul_pos (Nat.two_pow_pos k) hd
  have hpos' : 0 < 2 ^ t * D := Nat.mul_pos (Nat.two_pow_pos t) hD
  have hlt : n < 2 * leadingDigit * (2 ^ t * D) := by
    refine Nat.lt_of_mul_lt_mul_right (a := 2 ^ k * d) ?_
    have hlog := Nat.lt_log2_self (n := m / d)
    have hpow : 2 ^ ((m / d).log2 + 1) ≤ 2 * leadingDigit * 2 ^ k := by
      change _ ≤ 2 ^ (53 : Nat) * 2 ^ k
      rw [← Nat.pow_add]
      exact Nat.pow_le_pow_right (by decide) (by omega)
    have hm : m < 2 * leadingDigit * (2 ^ k * d) := by
      rw [← Nat.mul_assoc, ← Nat.div_lt_iff_lt_mul hd]
      omega
    rw [heq, Nat.mul_right_comm]
    exact Nat.mul_lt_mul_of_pos_right hm hpos'
  have hfull : 0 < t → leadingDigit * (2 ^ t * D) ≤ n := by
    intro htpos
    have hlog : (m / d).log2 = 52 + k := by omega
    have hne : m / d ≠ 0 := by
      intro hz
      rw [hz, Nat.log2_zero] at hlog
      omega
    have hm : leadingDigit * (2 ^ k * d) ≤ m := by
      rw [← Nat.mul_assoc, ← Nat.le_div_iff_mul_le hd]
      refine Nat.le_trans (Nat.le_of_eq ?_) (Nat.log2_self_le hne)
      rw [hlog, Nat.pow_add]
      rfl
    refine Nat.le_of_mul_le_mul_right ?_ hpos
    rw [heq, Nat.mul_right_comm]
    exact Nat.mul_le_mul_right _ hm
  have hround : roundHalfEven m (2 ^ k * d) = roundHalfEven n (2 ^ t * D) :=
    roundHalfEven_eq hpos hpos' heq.symm
  have hcut := cut_roundHalfEven n hpos'
  rw [hround]
  suffices hsettled : sign (packed (settled s (roundHalfEven n (2 ^ t * D)) ((t : Int) - 1074))) = s ∧
      magnitude (packed (settled s (roundHalfEven n (2 ^ t * D)) ((t : Int) - 1074))) =
        min (t * leadingDigit + roundHalfEven n (2 ^ t * D)) endless from
    ⟨hsettled.1, t, hlt, hfull, hsettled.2⟩
  rcases Nat.eq_zero_or_pos (roundHalfEven n (2 ^ t * D)) with hr | hr
  · -- Nothing is left of the digits only where they are those of the smallest doubles.
    have hzero : t = 0 := Nat.eq_zero_of_not_pos fun ht => by
      have hle := hcut.le _ (hfull ht)
      unfold leadingDigit at hle
      omega
    rw [hr, hzero]
    exact packed_zero s
  · exact packed_settled s hr (hcut.ge _ (Nat.le_of_lt hlt)) fun ht => hcut.le _ (hfull ht)

/-- Digits that are all known, and enough of them, are rounded to the nearest magnitude. -/
theorem roundExact_nearest (s : Sign) {m n D : Nat} {e : Int} (hD : 0 < D)
    (hdigits : e ≤ -1074 ∨ 52 ≤ m.log2)
    (hratio : ∀ a b : Nat, (a : Int) - b = e + 1074 → n * 2 ^ b = m * (2 ^ a * D)) :
    let x := packed (.roundWithAccuracy Format.binary64 s m e .exact)
    sign x = s ∧ Nearest n D (magnitude x) := by
  have hnearest := roundFraction_nearest s (m := m) (n := n) (e := e) Nat.one_pos hD
    (by rwa [Nat.div_one]) (fun a b hab => by rw [Nat.mul_one, hratio a b hab])
  rw [Nat.mod_one, Nat.div_one] at hnearest
  exact hnearest

/-- A number of digits is rounded to the nearest magnitude. -/
theorem round_nearest (s : Sign) {m : Nat} (hm : 0 < m) (j : Nat) :
    let x := packed (.round Format.binary64 s m (j - 1074))
    sign x = s ∧ Nearest (m * 2 ^ j) 1 (magnitude x) := by
  unfold UnpackedFloat.round UnpackedFloat.decreaseExponent
  rw [targetExponent_eq]
  dsimp only
  rw [Nat.shiftLeft_eq]
  generalize hk : ((j : Int) - 1074 - ((place (m.log2 + j) : Int) - 1074)).toNat = k
  unfold place at hk
  refine roundExact_nearest s Nat.one_pos ?_ fun a b hab => ?_
  · rw [log2_shift hm]
    omega
  · rw [Nat.mul_one, Nat.mul_assoc, Nat.mul_assoc, ← Nat.pow_add, ← Nat.pow_add,
      show j + b = k + a by omega]

end MetricCapture.Number
