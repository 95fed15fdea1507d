import MetricCapture.Proofs.Number.Whole
/-! Rounding keeps the order of exact outcomes, and so do sums, differences and products of doubles. What is
left of a double after a whole number is taken away is exact. -/
namespace MetricCapture.Number

open Float.Model
open Float.Model.UnpackedFloat (Sign)

/-- The magnitude nearest to a larger quotient is not smaller. -/
theorem Nearest.le {n n' d w w' : Nat} (h : Nearest n d w) (h' : Nearest n' d w') (hle : n ≤ n') :
    w ≤ w' := by
  obtain ⟨t, hlt, hfull, rfl⟩ := h
  obtain ⟨t', hlt', hfull', rfl⟩ := h'
  have hd : 0 < d := Nat.pos_of_ne_zero fun hz => by simp [hz] at hlt
  have hpos := Nat.mul_pos (Nat.two_pow_pos t) hd
  have hpos' := Nat.mul_pos (Nat.two_pow_pos t') hd
  refine Nat.le_min.mpr ⟨Nat.le_trans (Nat.min_le_left _ _) ?_, Nat.min_le_right _ _⟩
  rcases Nat.lt_trichotomy t t' with ht | rfl | ht
  · have hupper := (cut_roundHalfEven n hpos).ge _ (Nat.le_of_lt hlt)
    have hlower := (cut_roundHalfEven n' hpos').le _ (hfull' (by omega))
    unfold leadingDigit at *
    omega
  · exact Nat.add_le_add_left (roundHalfEven_le _ hle) _
  · -- All digits of the one are worth more than the other.
    have hpow := Nat.mul_le_mul_left leadingDigit (Nat.mul_le_mul_right d (two_pow_lt ht))
    have hn := hfull (by omega)
    rw [Nat.mul_assoc 2, ← Nat.mul_assoc leadingDigit, Nat.mul_comm leadingDigit] at hpow
    omega

theorem Nearest.eq_zero {d w : Nat} (h : Nearest 0 d w) : w = 0 := by
  have hd : 0 < d := by
    obtain ⟨t, hlt, _⟩ := h
    exact Nat.pos_of_ne_zero fun hz => by simp [hz] at hlt
  exact Nat.le_zero.mp (h.le (nearest_zero hd) (Nat.le_refl 0))

/-- The double nearest to a larger number is not smaller. -/
theorem NearestTo.order_le {v v' : Int} {y y' : Float} (h : NearestTo v y) (h' : NearestTo v' y')
    (hle : v ≤ v') : order y ≤ order y' := by
  obtain ⟨n, hn, rfl⟩ := h
  obtain ⟨n', hn', rfl⟩ := h'
  have hzero : n = 0 → magnitude y = 0 := fun hz => (hz ▸ hn).eq_zero
  have hzero' : n' = 0 → magnitude y' = 0 := fun hz => (hz ▸ hn').eq_zero
  have hup : n ≤ n' → magnitude y ≤ magnitude y' := hn.le hn'
  have hdown : n' ≤ n → magnitude y' ≤ magnitude y := hn'.le hn
  unfold order
  generalize magnitude y = w at *
  generalize magnitude y' = w' at *
  generalize sign y = s at *
  generalize sign y' = s' at *
  cases s <;> cases s'
  · change -(n : Int) ≤ -(n' : Int) at hle
    change -(w : Int) ≤ -(w' : Int)
    omega
  · change -(w : Int) ≤ (w' : Int)
    omega
  · change (n : Int) ≤ -(n' : Int) at hle
    change (w : Int) ≤ -(w' : Int)
    omega
  · change (n : Int) ≤ (n' : Int) at hle
    change (w : Int) ≤ (w' : Int)
    omega

section

variable {x x' y y' : Float}

theorem add_le_add (hx : IsFinite x) (hx' : IsFinite x') (hy : IsFinite y) (hy' : IsFinite y')
    (h : x ≤ x') (h' : y ≤ y') : x + y ≤ x' + y' := by
  have hsum := nearestTo_add hx hy
  have hsum' := nearestTo_add hx' hy'
  refine (le_iff _ _).mpr ⟨hsum.nearTo.isNumber, hsum'.nearTo.isNumber, hsum.order_le hsum' ?_⟩
  exact Int.add_le_add (value_le h) (value_le h')

theorem sub_le_sub (hx : IsFinite x) (hx' : IsFinite x') (hy : IsFinite y) (hy' : IsFinite y')
    (h : x ≤ x') (h' : y' ≤ y) : x - y ≤ x' - y' := by
  have hrest := nearestTo_sub hx hy
  have hrest' := nearestTo_sub hx' hy'
  refine (le_iff _ _).mpr ⟨hrest.nearTo.isNumber, hrest'.nearTo.isNumber, hrest.order_le hrest' ?_⟩
  exact Int.sub_le_sub (value_le h) (value_le h')

end

theorem neg_def (x : Float) : -x = packed (.neg (unpacked (sign x) (magnitude x))) := by
  rw [← toModel_unpack]
  rfl

/-- The place of a number is turned round. -/
theorem order_neg {x : Float} (h : IsNumber x) : IsNumber (-x) ∧ order (-x) = -order x := by
  have hneg : -x = packed (unpacked (-sign x) (magnitude x)) := by
    rw [neg_def]
    rcases unpacked_cases (sign x) h with ⟨hw, hu⟩ | ⟨hw, hu⟩ | ⟨hpos, hlt, hm, hu⟩
    · rw [hu, hw, unpacked_endless]
      rfl
    · rw [hu, hw, unpacked_zero]
      rfl
    · rw [hu, unpacked_finite _ hlt (Nat.ne_of_gt hpos)]
      rfl
  obtain ⟨hs, hw⟩ := packed_unpacked (-sign x) h
  rw [← hneg] at hs hw
  refine ⟨?_, ?_⟩
  · unfold IsNumber
    rw [hw]
    exact h
  · unfold order
    rw [hs, hw, neg_apply]

theorem neg_le_neg {x y : Float} (h : x ≤ y) : -y ≤ -x := by
  obtain ⟨hx, hy, hle⟩ := (le_iff _ _).mp h
  obtain ⟨hx', hneg⟩ := order_neg hx
  obtain ⟨hy', hneg'⟩ := order_neg hy
  refine (le_iff _ _).mpr ⟨hy', hx', ?_⟩
  omega

/-- What is less than the negative of a number leaves the number less than its own negative. -/
theorem lt_neg {x y : Float} (h : x < -y) : y < -x := by
  obtain ⟨hx, hy, hlt⟩ := (lt_iff _ _).mp h
  have hy' : IsNumber y := by
    refine Nat.not_lt.mp fun hnot => Nat.not_lt.mpr hy ?_
    rw [neg_def, unpacked_notANumber _ hnot]
    exact magnitude_packed_notANumber
  obtain ⟨_, hneg⟩ := order_neg hy'
  obtain ⟨hx', hneg'⟩ := order_neg hx
  refine (lt_iff _ _).mpr ⟨hy', hx', ?_⟩
  omega

theorem order_zero : order 0.0 = 0 := by
  decide

structure IsNatural (x : Float) : Prop where
  isFinite : IsFinite x
  order_nonneg : 0 ≤ order x

theorem isNatural_of_le {x y : Float} (hx : 0.0 ≤ x) (hxy : x ≤ y) (hy : IsFinite y) : IsNatural x := by
  obtain ⟨_, _, hge⟩ := (le_iff _ _).mp hx
  rw [order_zero] at hge
  exact ⟨finite_of_le isWhole_zero.isFinite hy hx hxy, hge⟩

theorem IsNatural.order_eq {x : Float} (h : IsNatural x) : order x = magnitude x := by
  have hge := h.order_nonneg
  unfold order at hge ⊢
  cases hs : sign x with
  | positive => rfl
  | negative =>
    rw [hs] at hge
    change 0 ≤ -(magnitude x : Int) at hge
    change -(magnitude x : Int) = _
    omega

theorem IsNatural.value_eq {x : Float} (h : IsNatural x) : value x = units (magnitude x) := by
  have horder := h.order_eq
  unfold order at horder
  unfold value
  cases hs : sign x with
  | positive => rfl
  | negative =>
    rw [hs] at horder
    change -(magnitude x : Int) = _ at horder
    rw [show magnitude x = 0 by omega, units_zero]
    rfl

theorem zero_le_ofNat {n : Nat} (h : n ≤ 2 ^ (53 : Nat)) : 0.0 ≤ Float.ofNat n :=
  le_trans (by decide) ((ofNat_le_iff (Nat.zero_le _) h).mpr (Nat.zero_le n))

theorem isNatural_ofNat {n : Nat} (h : n ≤ 2 ^ (53 : Nat)) : IsNatural (Float.ofNat n) :=
  isNatural_of_le (zero_le_ofNat h) (le_self (ofNat_exact h).1.isNumber) (ofNat_exact h).1

section

variable {x x' y : Float}

/-- A product of doubles that are not below zero is not either, unless it is beyond all of them. -/
theorem order_mul (hx : IsNatural x) (hy : IsNatural y) : order (x * y) = magnitude (x * y) := by
  obtain ⟨hs, hnearest⟩ := mul_nearest hx.isFinite hy.isFinite
  have hvalue := hx.value_eq
  have hvalue' := hy.value_eq
  have hzero : units (magnitude x) * units (magnitude y) = 0 → magnitude (x * y) = 0 :=
    fun hz => (hz ▸ hnearest).eq_zero
  unfold value at hvalue hvalue'
  unfold order
  rw [hs]
  cases hsx : sign x <;> cases hsy : sign y
  · rfl
  · rw [hsx] at hvalue
    change -(units (magnitude x) : Int) = _ at hvalue
    rw [hzero (by rw [show units (magnitude x) = 0 by omega, Nat.zero_mul])]
    rfl
  · rw [hsy] at hvalue'
    change -(units (magnitude y) : Int) = _ at hvalue'
    rw [hzero (by rw [show units (magnitude y) = 0 by omega, Nat.mul_zero])]
    rfl
  · rfl

theorem mul_le_mul_right (hx : IsNatural x) (hx' : IsNatural x') (hy : IsNatural y) (h : x ≤ x') :
    x * y ≤ x' * y := by
  have hle := value_le h
  rw [hx.value_eq, hx'.value_eq] at hle
  have hnearest := (mul_nearest hx.isFinite hy.isFinite).2
  have hnearest' := (mul_nearest hx'.isFinite hy.isFinite).2
  refine (le_iff _ _).mpr ⟨hnearest.nearQuotient.le_endless, hnearest'.nearQuotient.le_endless, ?_⟩
  rw [order_mul hx hy, order_mul hx' hy]
  exact Int.ofNat_le.mpr (hnearest.le hnearest' (Nat.mul_le_mul_right _ (Int.ofNat_le.mp hle)))

/-- A product with what is no more than one is no larger. -/
theorem mul_le_of_le_one (hx : IsNatural x) (hy : IsNatural y) (h : x ≤ 1.0) : x * y ≤ y := by
  have hle := value_le h
  rw [hx.value_eq, show value 1.0 = unitsOfOne by decide +kernel] at hle
  have hnear := (mul_nearest hx.isFinite hy.isFinite).2.nearQuotient
  refine (le_iff _ _).mpr ⟨hnear.le_endless, hy.isFinite.isNumber, ?_⟩
  rw [order_mul hx hy, hy.order_eq]
  refine Int.ofNat_le.mpr (hnear.ge _ hy.isFinite ?_)
  rw [Nat.mul_comm]
  exact Nat.mul_le_mul_left _ (Int.ofNat_le.mp hle)

/-- A product of doubles that are not below zero, one of which is no more than one. -/
theorem isNatural_mul (hx : IsNatural x) (hy : IsNatural y) (h : x ≤ 1.0) : IsNatural (x * y) := by
  refine isNatural_of_le ((le_iff _ _).mpr ⟨by unfold IsNumber; decide, ?_, ?_⟩)
    (mul_le_of_le_one hx hy h) hy.isFinite
  · exact ((le_iff _ _).mp (mul_le_of_le_one hx hy h)).1
  · rw [order_mul hx hy, order_zero]
    exact Int.natCast_nonneg _

end

/-- Digits make up the magnitude of what they stand for. -/
theorem units_digits {m t : Nat} (hlt : m < 2 * leadingDigit) (hfull : 0 < t → leadingDigit ≤ m) :
    units (t * leadingDigit + m) = m * 2 ^ t := by
  obtain ⟨e, hdigits, hunits, hupper, hlower⟩ := units_bounds (t * leadingDigit + m)
  generalize significand (t * leadingDigit + m) = m' at *
  obtain ⟨rfl, rfl⟩ : m' = m ∧ e = t := by
    unfold leadingDigit at *
    omega
  exact hunits

/-- What has no more digits than a double is exact. -/
theorem Nearest.units_eq {m e w : Nat} (h : Nearest (m * 2 ^ e) 1 w) (hm : m < 2 * leadingDigit)
    (hw : w < endless) : units w = m * 2 ^ e := by
  obtain ⟨t, hlt, hfull, rfl⟩ := h
  have hpos := Nat.two_pow_pos t
  simp only [Nat.mul_one] at hlt hfull hw ⊢
  rcases Nat.lt_or_ge e t with het | het
  · have hpow := Nat.mul_le_mul_left leadingDigit (two_pow_lt het)
    have hgt := Nat.mul_lt_mul_of_pos_right hm (Nat.two_pow_pos e)
    have hn := hfull (by omega)
    rw [← Nat.mul_assoc, Nat.mul_comm leadingDigit] at hpow
    omega
  · obtain ⟨k, rfl⟩ := Nat.exists_eq_add_of_le het
    have hsplit : m * 2 ^ (t + k) = m * 2 ^ k * 2 ^ t := by
      rw [Nat.pow_add, Nat.mul_comm (2 ^ t), Nat.mul_assoc]
    rw [hsplit] at hlt hfull hw ⊢
    rw [roundHalfEven_mul _ hpos] at hw ⊢
    rw [Nat.min_eq_left (by omega)]
    exact units_digits (Nat.lt_of_mul_lt_mul_right hlt) fun ht =>
      Nat.le_of_mul_le_mul_right (hfull ht) hpos

/-- The last digit of a number that is bounded has a bounded worth. -/
private theorem exponent_le {m e j : Nat} (hfull : 0 < e → leadingDigit ≤ m)
    (hlt : m * 2 ^ e < 2 * leadingDigit * 2 ^ j) : e ≤ j := by
  refine Nat.not_lt.mp fun hgt => ?_
  have hpow := Nat.mul_le_mul_left leadingDigit (two_pow_lt hgt)
  have hdigits := Nat.mul_le_mul_right (2 ^ e) (hfull (by omega))
  rw [← Nat.mul_assoc, Nat.mul_comm leadingDigit 2] at hpow
  omega

/-- A whole number can be taken away from a double that is not below it without a loss, as long as all
whole numbers up to the double are exact. -/
theorem sub_exact {r z : Float} {n : Nat} (hr : IsNatural r) (hz : IsWhole z n) (hle : z ≤ r)
    (hlt : units (magnitude r) < 2 ^ (53 : Nat) * unitsOfOne) :
    IsNatural (r - z) ∧ value (r - z) = value r - value z := by
  have hvalue := hr.value_eq
  have hwhole := hz.value_eq
  have hge := value_le hle
  obtain ⟨e, _, hunits, hupper, hfull⟩ := units_bounds (magnitude r)
  have hnearest := nearestTo_sub hr.isFinite hz.isFinite
  have hnonneg : 0 ≤ value z := by
    rw [hwhole]
    exact Int.mul_nonneg (Int.natCast_nonneg n) (Int.natCast_nonneg _)
  have hnat : IsNatural (r - z) := by
    refine isNatural_of_le ?_ (sub_le hr.isFinite hr.isFinite hz.isFinite (by omega)) hr.isFinite
    refine (le_iff _ _).mpr ⟨by unfold IsNumber; decide, hnearest.nearTo.isNumber, ?_⟩
    rw [order_zero]
    refine hnearest.nearTo.le .positive 0 (by decide) ?_
    rw [units_zero]
    exact Int.sub_nonneg.mpr hge
  refine ⟨hnat, ?_⟩
  -- The whole number is a multiple of the worth of the last digit.
  rw [hunits, show 2 ^ (53 : Nat) = 2 * leadingDigit from rfl] at hlt
  obtain ⟨j, _, hone⟩ := exists_unitsOfOne
  rw [hone] at hlt hwhole
  obtain ⟨k, rfl⟩ := Nat.exists_eq_add_of_le (exponent_le hfull hlt)
  have hmultiple : n * 2 ^ (e + k) = n * 2 ^ k * 2 ^ e := by
    rw [Nat.pow_add, Nat.mul_comm (2 ^ e), Nat.mul_assoc]
  have hrest : value r - value z = ((significand (magnitude r) - n * 2 ^ k) * 2 ^ e : Nat) := by
    rw [hvalue, hwhole, hunits, ← Int.natCast_mul n, hmultiple, Nat.sub_mul]
    rw [hvalue, hwhole, hunits, ← Int.natCast_mul n, hmultiple] at hge
    exact (Int.ofNat_sub (Int.ofNat_le.mp hge)).symm
  obtain ⟨d, hd, happly⟩ := hnearest
  have hsame : d = (significand (magnitude r) - n * 2 ^ k) * 2 ^ e := by
    rw [hrest] at happly
    generalize sign (r - z) = s at happly
    cases s with
    | positive => exact Int.ofNat.inj happly
    | negative =>
      change -(d : Int) = _ at happly
      omega
  have hexact := (hsame ▸ hd).units_eq (by omega) hnat.isFinite
  rw [hnat.value_eq, hexact, hrest]

end MetricCapture.Number
