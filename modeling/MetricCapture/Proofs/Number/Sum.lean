import MetricCapture.Proofs.Number.Arithmetic
import MetricCapture.Proofs.Number.Rounding
/-! Sums, differences and products of doubles. They are the nearest doubles to the exact ones, so that an exact
bound that is a double itself holds for what has been rounded too. -/
namespace MetricCapture.Number

open Float.Model
open Float.Model.UnpackedFloat (Sign)

def value (x : Float) : Int := (sign x).apply (units (magnitude x))

def unitsOfOne : Nat := 2 ^ (1074 : Nat)

theorem unitsOfOne_pos : 0 < unitsOfOne := by
  unfold unitsOfOne
  exact Nat.two_pow_pos 1074

/-- The power of two that it is, without its digits being worked out. -/
theorem exists_unitsOfOne : ∃ j : Nat, j = 1074 ∧ unitsOfOne = 2 ^ j :=
  ⟨1074, rfl, unitsOfOne.eq_1⟩

theorem units_zero : units 0 = 0 := Nat.zero_mul _

theorem units_pos {w : Nat} (h : w ≠ 0) : 0 < units w :=
  Nat.mul_pos (significand_pos h) (Nat.two_pow_pos _)

theorem units_lt {w w' : Nat} (h : w < w') : units w < units w' := by
  obtain ⟨e, hdigits, hunits, hlt, hfull⟩ := units_bounds w
  obtain ⟨e', hdigits', hunits', hlt', hfull'⟩ := units_bounds w'
  rw [hunits, hunits']
  rcases Nat.lt_trichotomy e e' with he | rfl | he
  · have hpow := Nat.mul_le_mul_left leadingDigit (two_pow_lt he)
    have hgt := Nat.mul_lt_mul_of_pos_right hlt (Nat.two_pow_pos e)
    have hge := Nat.mul_le_mul_right (2 ^ e') (hfull' (by omega))
    rw [← Nat.mul_assoc, Nat.mul_comm leadingDigit] at hpow
    omega
  · exact Nat.mul_lt_mul_of_pos_right (by omega) (Nat.two_pow_pos e)
  · have hge := hfull (by omega)
    unfold leadingDigit at *
    omega

theorem units_le_iff (w w' : Nat) : units w ≤ units w' ↔ w ≤ w' := by
  constructor
  · intro h
    exact Nat.not_lt.mp fun hlt => Nat.not_lt.mpr h (units_lt hlt)
  · intro h
    rcases Nat.eq_or_lt_of_le h with rfl | hlt
    · exact Nat.le_refl _
    · exact Nat.le_of_lt (units_lt hlt)

/-- Signed magnitudes are ordered as what they stand for. -/
theorem apply_units_le_iff (s s' : Sign) (w w' : Nat) :
    s.apply (units w) ≤ s'.apply (units w') ↔ s.apply w ≤ s'.apply w' := by
  have hle := units_le_iff w w'
  have hge := units_le_iff w' w
  have hz := units_zero
  have hw : w ≠ 0 → 0 < units w := units_pos
  have hw' : w' ≠ 0 → 0 < units w' := units_pos
  cases s <;> cases s'
  · change -(units w : Int) ≤ -(units w' : Int) ↔ -(w : Int) ≤ -(w' : Int)
    omega
  · change -(units w : Int) ≤ (units w' : Int) ↔ -(w : Int) ≤ (w' : Int)
    omega
  · change (units w : Int) ≤ -(units w' : Int) ↔ (w : Int) ≤ -(w' : Int)
    by_cases h : w = 0
    · subst h
      by_cases h' : w' = 0
      · subst h'
        omega
      · have hp := hw' h'
        omega
    · have hp := hw h
      omega
  · change (units w : Int) ≤ (units w' : Int) ↔ (w : Int) ≤ (w' : Int)
    omega

theorem value_le_iff (x y : Float) : value x ≤ value y ↔ order x ≤ order y :=
  apply_units_le_iff _ _ _ _

theorem value_le {x y : Float} (h : x ≤ y) : value x ≤ value y :=
  (value_le_iff x y).mpr ((le_iff x y).mp h).2.2

theorem le_iff_value {x y : Float} (hx : IsFinite x) (hy : IsFinite y) :
    x ≤ y ↔ value x ≤ value y := by
  rw [le_iff, and_iff_right hx.isNumber, and_iff_right hy.isNumber, value_le_iff]

theorem lt_iff_value {x y : Float} (hx : IsFinite x) (hy : IsFinite y) :
    x < y ↔ value x < value y := by
  rw [lt_iff, and_iff_right hx.isNumber, and_iff_right hy.isNumber, ← Int.not_le, ← Int.not_le,
    value_le_iff]

/-- A double next to a number: no finite one lies between. -/
structure NearTo (v : Int) (y : Float) : Prop where
  isNumber : IsNumber y
  le : ∀ (s : Sign), ∀ c < endless, s.apply (units c) ≤ v → s.apply c ≤ order y
  ge : ∀ (s : Sign), ∀ c < endless, v ≤ s.apply (units c) → order y ≤ s.apply c

theorem NearQuotient.nearTo {n : Nat} {y : Float} {s : Sign} (h : NearQuotient n 1 (magnitude y))
    (hs : sign y = s) : NearTo (s.apply n) y := by
  obtain ⟨hend, hle, hge⟩ := h
  simp only [Nat.mul_one] at hle hge
  have hz := units_zero
  have hzero : ∀ c, units c = 0 → c = 0 := by
    intro c hc
    by_cases h : c = 0
    · exact h
    · exact absurd hc (Nat.ne_of_gt (units_pos h))
  refine ⟨hend, fun s' c hc hv => ?_, fun s' c hc hv => ?_⟩
  all_goals
    have hlec := hle c hc
    have hgec := hge c hc
    have hzc := hzero c
    unfold order
    rw [hs]
  · cases s <;> cases s'
    · change -(units c : Int) ≤ -(n : Int) at hv
      change -(c : Int) ≤ -(magnitude y : Int)
      omega
    · change (units c : Int) ≤ -(n : Int) at hv
      change (c : Int) ≤ -(magnitude y : Int)
      omega
    · change -(c : Int) ≤ (magnitude y : Int)
      omega
    · change (units c : Int) ≤ (n : Int) at hv
      change (c : Int) ≤ (magnitude y : Int)
      omega
  · cases s <;> cases s'
    · change -(n : Int) ≤ -(units c : Int) at hv
      change -(magnitude y : Int) ≤ -(c : Int)
      omega
    · change -(magnitude y : Int) ≤ (c : Int)
      omega
    · change (n : Int) ≤ -(units c : Int) at hv
      change (magnitude y : Int) ≤ -(c : Int)
      omega
    · change (n : Int) ≤ (units c : Int) at hv
      change (magnitude y : Int) ≤ (c : Int)
      omega

def NearestTo (v : Int) (y : Float) : Prop :=
  ∃ n, Nearest n 1 (magnitude y) ∧ (sign y).apply n = v

theorem NearestTo.nearTo {v : Int} {y : Float} (h : NearestTo v y) : NearTo v y := by
  obtain ⟨n, hnearest, rfl⟩ := h
  exact hnearest.nearQuotient.nearTo rfl

theorem Nearest.nearestTo {n : Nat} {y : Float} {s : Sign} (h : Nearest n 1 (magnitude y))
    (hs : sign y = s) : NearestTo (s.apply n) y :=
  ⟨n, h, by rw [hs]⟩

/-- A magnitude is the nearest one to itself. -/
theorem nearest_units {w : Nat} (h : w ≤ endless) : Nearest (units w) 1 w := by
  obtain ⟨e, hdigits, hunits, hlt, hfull⟩ := units_bounds w
  have hpos := Nat.two_pow_pos e
  rw [hunits]
  refine ⟨e, ?_, fun he => ?_, ?_⟩
  · rw [Nat.mul_one]
    exact Nat.mul_lt_mul_of_pos_right hlt hpos
  · rw [Nat.mul_one]
    exact Nat.mul_le_mul_right _ (hfull he)
  · rw [Nat.mul_one, roundHalfEven_mul _ hpos]
    omega

theorem packed_unpacked (s : Sign) {w : Nat} (h : w ≤ endless) :
    sign (packed (unpacked s w)) = s ∧ magnitude (packed (unpacked s w)) = w := by
  rcases unpacked_cases s h with ⟨rfl, hu⟩ | ⟨rfl, hu⟩ | ⟨hpos, hlt, hm, hu⟩
  · rw [hu]
    exact packed_infinity s
  · rw [hu]
    exact packed_zero s
  · rw [hu]
    have hdigits := digits_eq w
    obtain ⟨hs, hw⟩ := packed_finite s hm (rounded_digits w)
    refine ⟨hs, hw.trans ?_⟩
    obtain ⟨_, hle, _⟩ := rounded_digits w
    unfold leadingDigit at *
    omega

/-- A whole number of units is rounded to the nearest double. -/
theorem normalize_nearestTo (m : Int) (j : Nat) :
    NearestTo (m * 2 ^ j) (packed (.normalize Format.binary64 m (j - 1074) .positive)) := by
  have hvalue : ∀ s : Sign, s.apply (m.natAbs * 2 ^ j : Nat) = s.apply m.natAbs * 2 ^ j := by
    intro s
    rw [Int.natCast_mul, Int.natCast_pow]
    cases s with
    | positive => rfl
    | negative => exact (Int.neg_mul _ _).symm
  unfold UnpackedFloat.normalize
  rcases Int.lt_trichotomy m 0 with hm | rfl | hm
  · rw [Int.compare_eq_lt.mpr hm]
    dsimp only
    obtain ⟨hs, hnearest⟩ := round_nearest .negative (m := m.natAbs) (by omega) j
    have hnearestTo := hnearest.nearestTo hs
    rw [hvalue, show Sign.negative.apply m.natAbs = m from by change -(m.natAbs : Int) = m; omega,
      show m.natAbs = (-m).toNat by omega] at hnearestTo
    exact hnearestTo
  · rw [Int.compare_eq_eq.mpr rfl, Int.zero_mul]
    obtain ⟨hs, hw⟩ := packed_zero .positive
    have hnearest := nearest_units (Nat.zero_le endless)
    rw [← hw, hw, units_zero] at hnearest
    refine ⟨0, ?_, ?_⟩
    · dsimp only
      rw [hw]
      exact hnearest
    · dsimp only
      rw [hs]
      rfl
  · rw [Int.compare_eq_gt.mpr hm]
    dsimp only
    obtain ⟨hs, hnearest⟩ := round_nearest .positive (m := m.natAbs) (by omega) j
    have hnearestTo := hnearest.nearestTo hs
    rw [hvalue, show Sign.positive.apply m.natAbs = m from by change (m.natAbs : Int) = m; omega,
      show m.natAbs = m.toNat by omega] at hnearestTo
    exact hnearestTo

theorem nearestTo_unpacked (s : Sign) {w : Nat} (h : w ≤ endless) :
    NearestTo (s.apply (units w)) (packed (unpacked s w)) := by
  obtain ⟨hs, hw⟩ := packed_unpacked s h
  have hnearest := nearest_units h
  refine ⟨units w, ?_, by rw [hs]⟩
  rw [hw]
  exact hnearest

private theorem apply_decreaseExponent (s : Sign) (w : Nat) {e : Int} (hle : e ≤ exponent w)
    (hlow : -1074 ≤ e) :
    s.apply (UnpackedFloat.decreaseExponent (significand w) (exponent w) e).1 * 2 ^ (e + 1074).toNat =
      s.apply (units w) := by
  have hsplit : (exponent w + 1074).toNat = (exponent w - e).toNat + (e + 1074).toNat := by omega
  have hunits : units w = significand w <<< (exponent w - e).toNat * 2 ^ (e + 1074).toNat := by
    unfold units
    rw [hsplit, Nat.pow_add, ← Nat.mul_assoc, Nat.shiftLeft_eq]
  rw [hunits]
  unfold UnpackedFloat.decreaseExponent
  dsimp only
  cases s with
  | positive =>
    change ((_ : Nat) : Int) * _ = ((_ : Nat) : Int)
    rw [Int.natCast_mul, Int.natCast_pow]
    rfl
  | negative =>
    change -((_ : Nat) : Int) * _ = -((_ : Nat) : Int)
    rw [Int.natCast_mul, Int.natCast_pow, Int.neg_mul]
    rfl

/-- What is added is the nearest double to the exact sum. -/
private theorem nearestTo_packed_add (s s' : Sign) {w w' : Nat} (h : w < endless) (h' : w' < endless) :
    NearestTo (s.apply (units w) + s'.apply (units w'))
      (packed (.add Format.binary64 (unpacked s w) (unpacked s' w'))) := by
  have hzero : ∀ s : Sign, s.apply (units 0) = 0 := by
    intro s
    rw [units_zero]
    cases s <;> rfl
  rcases unpacked_cases s (Nat.le_of_lt h) with ⟨rfl, _⟩ | ⟨rfl, hu⟩ | ⟨hpos, _, hm, hu⟩
  · exact absurd h (Nat.lt_irrefl _)
  · rw [hzero, Int.zero_add]
    rcases unpacked_cases s' (Nat.le_of_lt h') with ⟨rfl, _⟩ | ⟨rfl, hu'⟩ | ⟨hpos', _, hm', hu'⟩
    · exact absurd h' (Nat.lt_irrefl _)
    · have hadd : ∃ t, UnpackedFloat.add Format.binary64 (unpacked s 0) (unpacked s' 0) =
          unpacked t 0 := by
        rw [hu, hu']
        cases s <;> cases s' <;> exact ⟨_, rfl⟩
      obtain ⟨t, hadd⟩ := hadd
      rw [hadd, hzero, ← hzero t]
      exact nearestTo_unpacked t (Nat.zero_le _)
    · have hadd : UnpackedFloat.add Format.binary64 (unpacked s 0) (unpacked s' w') =
          unpacked s' w' := by
        rw [hu, hu']
        rfl
      rw [hadd]
      exact nearestTo_unpacked s' (Nat.le_of_lt h')
  · rcases unpacked_cases s' (Nat.le_of_lt h') with ⟨rfl, _⟩ | ⟨rfl, hu'⟩ | ⟨hpos', _, hm', hu'⟩
    · exact absurd h' (Nat.lt_irrefl _)
    · rw [hzero, Int.add_zero]
      have hadd : UnpackedFloat.add Format.binary64 (unpacked s w) (unpacked s' 0) =
          unpacked s w := by
        rw [hu, hu']
        rfl
      rw [hadd]
      exact nearestTo_unpacked s (Nat.le_of_lt h)
    · have hle := (rounded_digits w).le
      have hle' := (rounded_digits w').le
      generalize hk : min (exponent w) (exponent w') = k
      have hsum := normalize_nearestTo
        (s.apply (UnpackedFloat.decreaseExponent (significand w) (exponent w) k).1 +
          s'.apply (UnpackedFloat.decreaseExponent (significand w') (exponent w') k).1)
        (k + 1074).toNat
      rw [Int.add_mul, apply_decreaseExponent s w (by omega) (by omega),
        apply_decreaseExponent s' w' (by omega) (by omega), Int.toNat_of_nonneg (by omega),
        Int.add_sub_cancel, ← hk] at hsum
      rw [hu, hu']
      exact hsum

theorem neg_apply (s : Sign) (n : Int) : (-s).apply n = -s.apply n := by
  cases s with
  | negative => exact (Int.neg_neg n).symm
  | positive => rfl

private theorem sub_eq_add (u : UnpackedFloat) (s : Sign) {w : Nat} (h : w ≤ endless) :
    UnpackedFloat.sub Format.binary64 u (unpacked s w) =
      UnpackedFloat.add Format.binary64 u (unpacked (-s) w) := by
  rcases unpacked_cases s h with ⟨rfl, hu⟩ | ⟨rfl, hu⟩ | ⟨hpos, hlt, hm, hu⟩
  · rw [hu, unpacked_endless]
    cases u with
    | infinity t => cases s <;> cases t <;> rfl
    | notANumber => rfl
    | zero t => rfl
    | finite t m e hm => rfl
  · rw [hu, unpacked_zero]
    cases u with
    | infinity t => rfl
    | notANumber => rfl
    | zero t => cases s <;> cases t <;> rfl
    | finite t m e hm => rfl
  · rw [hu, unpacked_finite _ hlt (Nat.ne_of_gt hpos)]
    cases u with
    | infinity t => rfl
    | notANumber => rfl
    | zero t => rfl
    | finite t m e hm =>
      unfold UnpackedFloat.sub UnpackedFloat.add
      dsimp only
      rw [Int.sub_eq_add_neg, neg_apply]

private theorem add_comm (u v : UnpackedFloat) :
    UnpackedFloat.add Format.binary64 u v = UnpackedFloat.add Format.binary64 v u := by
  cases u with
  | infinity s =>
    cases v with
    | infinity t => cases s <;> cases t <;> rfl
    | notANumber => rfl
    | zero t => rfl
    | finite t m e hm => rfl
  | notANumber => cases v <;> rfl
  | zero s =>
    cases v with
    | infinity t => rfl
    | notANumber => rfl
    | zero t => cases s <;> cases t <;> rfl
    | finite t m e hm => rfl
  | finite s m e hm =>
    cases v with
    | infinity t => rfl
    | notANumber => rfl
    | zero t => rfl
    | finite t m' e' hm' =>
      unfold UnpackedFloat.add
      dsimp only
      rw [Int.min_comm, Int.add_comm]

/-- A sum is the nearest double to the exact one. -/
theorem nearestTo_add {x y : Float} (hx : IsFinite x) (hy : IsFinite y) :
    NearestTo (value x + value y) (x + y) := by
  rw [add_def]
  exact nearestTo_packed_add (sign x) (sign y) hx hy

/-- A difference is the nearest double to the exact one. -/
theorem nearestTo_sub {x y : Float} (hx : IsFinite x) (hy : IsFinite y) :
    NearestTo (value x - value y) (x - y) := by
  have hnearest := nearestTo_packed_add (sign x) (-sign y) hx hy
  rw [neg_apply, ← sub_eq_add _ _ (Nat.le_of_lt hy), ← sub_def] at hnearest
  exact hnearest

/-- A sum is no less than a double that is no greater than the exact one. -/
private theorem le_packed_add {c : Float} (hc : IsFinite c) {s s' t : Sign} {w w' n : Nat}
    (hw : w ≤ endless) (hw' : w' < endless) (hn : n < endless) (h : t.apply n ≤ s.apply w)
    (hv : value c ≤ t.apply (units n) + s'.apply (units w')) :
    c ≤ packed (.add Format.binary64 (unpacked s w) (unpacked s' w')) := by
  rw [le_iff]
  rcases Nat.eq_or_lt_of_le hw with rfl | hlt
  · have hs : s = .positive := by
      cases s with
      | positive => rfl
      | negative =>
        change t.apply n ≤ -(endless : Int) at h
        cases t with
        | positive =>
          change (n : Int) ≤ _ at h
          omega
        | negative =>
          change -(n : Int) ≤ _ at h
          omega
    have hadd : UnpackedFloat.add Format.binary64 (unpacked s endless) (unpacked s' w') =
        .infinity .positive := by
      rw [hs, unpacked_endless]
      rcases unpacked_cases s' (Nat.le_of_lt hw') with ⟨rfl, _⟩ | ⟨rfl, hu⟩ | ⟨_, _, hm, hu⟩
      · exact absurd hw' (Nat.lt_irrefl _)
      · rw [hu]
        rfl
      · rw [hu]
        rfl
    obtain ⟨hsign, hmag⟩ := packed_infinity .positive
    rw [hadd]
    refine ⟨hc.isNumber, Nat.le_of_eq hmag, ?_⟩
    unfold order
    rw [hsign, hmag]
    change _ ≤ (endless : Int)
    unfold IsFinite at hc
    cases sign c with
    | positive =>
      change (magnitude c : Int) ≤ _
      omega
    | negative =>
      change -(magnitude c : Int) ≤ _
      omega
  · obtain ⟨hnum, hle, _⟩ := (nearestTo_packed_add s s' hlt hw').nearTo
    refine ⟨hc.isNumber, hnum, hle (sign c) (magnitude c) hc (Int.le_trans hv ?_)⟩
    exact Int.add_le_add_right ((apply_units_le_iff _ _ _ _).mpr h) _

theorem le_add {b c x y : Float} (hb : IsFinite b) (hc : IsFinite c) (hy : IsFinite y) (h : b ≤ x)
    (hv : value c ≤ value b + value y) : c ≤ x + y := by
  obtain ⟨_, hx, hle⟩ := (le_iff b x).mp h
  rw [add_def]
  exact le_packed_add hc hx hy hb hle hv

/-- A sum is no greater than a double that is no less than the exact one. -/
theorem add_le {c x y : Float} (hc : IsFinite c) (hx : IsFinite x) (hy : IsFinite y)
    (hv : value x + value y ≤ value c) : x + y ≤ c := by
  obtain ⟨hnum, _, hge⟩ := (nearestTo_add hx hy).nearTo
  exact (le_iff _ _).mpr ⟨hnum, hc.isNumber, hge (sign c) (magnitude c) hc hv⟩

theorem le_sub {b c x y : Float} (hb : IsFinite b) (hc : IsFinite c) (hy : IsFinite y) (h : b ≤ x)
    (hv : value c ≤ value b - value y) : c ≤ x - y := by
  obtain ⟨_, hx, hle⟩ := (le_iff b x).mp h
  rw [sub_def, sub_eq_add _ _ (Nat.le_of_lt hy)]
  refine le_packed_add hc hx hy hb hle ?_
  rw [neg_apply]
  exact hv

theorem le_sub_of_le {b c x y : Float} (hb : IsFinite b) (hc : IsFinite c) (hx : IsFinite x) (h : y ≤ b)
    (hv : value c ≤ value x - value b) : c ≤ x - y := by
  obtain ⟨hy, _, hle⟩ := (le_iff y b).mp h
  have hle' : (-sign b).apply (magnitude b) ≤ (-sign y).apply (magnitude y) := by
    rw [neg_apply, neg_apply]
    exact Int.neg_le_neg hle
  rw [sub_def, sub_eq_add _ _ hy, add_comm]
  refine le_packed_add hc hy hx hb hle' ?_
  rw [neg_apply, Int.add_comm]
  exact hv

/-- A difference is no greater than a double that is no less than the exact one. -/
theorem sub_le {c x y : Float} (hc : IsFinite c) (hx : IsFinite x) (hy : IsFinite y)
    (hv : value x - value y ≤ value c) : x - y ≤ c := by
  obtain ⟨hnum, _, hge⟩ := (nearestTo_sub hx hy).nearTo
  exact (le_iff _ _).mpr ⟨hnum, hc.isNumber, hge (sign c) (magnitude c) hc hv⟩

theorem nearest_zero {d : Nat} (hd : 0 < d) : Nearest 0 d 0 := by
  have hround := roundHalfEven_mul 0 (Nat.mul_pos (Nat.two_pow_pos 0) hd)
  rw [Nat.zero_mul] at hround
  refine ⟨0, Nat.mul_pos (by decide) (Nat.mul_pos (Nat.two_pow_pos 0) hd), fun h => ?_, ?_⟩
  · exact absurd h (Nat.lt_irrefl 0)
  · rw [hround]
    rfl

/-- A product is the nearest double to the exact one. -/
theorem mul_nearest {x y : Float} (hx : IsFinite x) (hy : IsFinite y) :
    sign (x * y) = sign x * sign y ∧
      Nearest (units (magnitude x) * units (magnitude y)) unitsOfOne (magnitude (x * y)) := by
  have hzero : ∀ s, units (magnitude x) * units (magnitude y) = 0 →
      sign (packed (.zero s)) = s ∧ Nearest (units (magnitude x) * units (magnitude y)) unitsOfOne
        (magnitude (packed (.zero s))) := by
    intro s hz
    obtain ⟨hs, hw⟩ := packed_zero s
    rw [hw, hz]
    exact ⟨hs, nearest_zero unitsOfOne_pos⟩
  rw [mul_def]
  rcases unpacked_cases (sign x) hx.isNumber with ⟨h, _⟩ | ⟨hx0, hu⟩ | ⟨_, _, hm, hu⟩
  · exact absurd h (Nat.ne_of_lt hx)
  all_goals
    rcases unpacked_cases (sign y) hy.isNumber with ⟨h, _⟩ | ⟨hy0, hu'⟩ | ⟨_, _, hm', hu'⟩
    · exact absurd h (Nat.ne_of_lt hy)
  all_goals rw [hu, hu']
  · exact hzero _ (by rw [hx0, units_zero, Nat.zero_mul])
  · exact hzero _ (by rw [hx0, units_zero, Nat.zero_mul])
  · exact hzero _ (by rw [hy0, units_zero, Nat.mul_zero])
  · have hdigits := rounded_digits (magnitude x)
    have hdigits' := rounded_digits (magnitude y)
    refine roundExact_nearest _ unitsOfOne_pos ?_ fun a b hab => ?_
    · rw [Nat.le_log2 (Nat.ne_of_gt (Nat.mul_pos hm hm'))]
      rcases hdigits.full with he | hfull
      · rcases hdigits'.full with he' | hfull'
        · omega
        · exact .inr (Nat.le_trans hfull' (Nat.le_mul_of_pos_left _ hm))
      · exact .inr (Nat.le_trans hfull (Nat.le_mul_of_pos_right _ hm'))
    · have hle := hdigits.le
      have hle' := hdigits'.le
      obtain ⟨l, hl, hone⟩ := exists_unitsOfOne
      unfold units
      generalize hj : (exponent (magnitude x) + 1074).toNat = j
      generalize hk : (exponent (magnitude y) + 1074).toNat = k
      rw [hone, Nat.mul_mul_mul_comm, Nat.mul_assoc, ← Nat.pow_add, ← Nat.pow_add, ← Nat.pow_add,
        show j + k + b = a + l by omega]

end MetricCapture.Number
