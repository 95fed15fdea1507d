import MetricCapture.Proofs.Number.Sum
/-! Whole numbers as doubles, which are exact up to the number of digits that a double has. -/
namespace MetricCapture.Number

open Float.Model
open Float.Model.UnpackedFloat (Sign)

theorem NearQuotient.eq {w w' d : Nat} (h : NearQuotient (units w * d) d w') (hw : w < endless) :
    w' = w :=
  Nat.le_antisymm (h.ge w hw (Nat.le_refl _)) (h.le w hw (Nat.le_refl _))

private def whole (n : Nat) : Nat := (n.log2 + 1022) * leadingDigit + n * 2 ^ (52 - n.log2)

private theorem whole_digits {n : Nat} (hpos : 0 < n) (hlt : n < 2 ^ (53 : Nat)) :
    n.log2 ≤ 52 ∧ significand (whole n) = n * 2 ^ (52 - n.log2) ∧
      exponent (whole n) = (n.log2 : Int) - 52 ∧ whole n < endless := by
  have hne := Nat.ne_of_gt hpos
  have hlog : n.log2 < 53 := (Nat.log2_lt hne).mpr hlt
  have hlower : leadingDigit ≤ n * 2 ^ (52 - n.log2) := by
    have hmul := Nat.mul_le_mul_right (2 ^ (52 - n.log2)) (Nat.log2_self_le hne)
    rw [← Nat.pow_add, Nat.add_sub_cancel' (by omega)] at hmul
    exact hmul
  have hupper : n * 2 ^ (52 - n.log2) < 2 * leadingDigit := by
    have hmul := Nat.mul_lt_mul_of_pos_right (Nat.lt_log2_self (n := n))
      (Nat.two_pow_pos (52 - n.log2))
    rw [← Nat.pow_add, show n.log2 + 1 + (52 - n.log2) = 53 by omega] at hmul
    exact hmul
  unfold whole significand exponent endless
  generalize n * 2 ^ (52 - n.log2) = m at *
  generalize n.log2 = l at *
  unfold leadingDigit at *
  rw [if_neg (by omega)]
  omega

private theorem units_whole {n : Nat} (hpos : 0 < n) (hlt : n < 2 ^ (53 : Nat)) :
    units (whole n) = n * unitsOfOne := by
  obtain ⟨hlog, hs, he, _⟩ := whole_digits hpos hlt
  unfold units unitsOfOne
  rw [hs, he, Nat.mul_assoc, ← Nat.pow_add]
  congr 2
  omega

private theorem toFloat_whole {n : Nat} (hpos : 0 < n) (hlt : n < 2 ^ (53 : Nat)) :
    sign n.toUInt64.toFloat = .positive ∧ magnitude n.toUInt64.toFloat = whole n := by
  have hmod : n.toUInt64.toNat = n := Nat.mod_eq_of_lt (Nat.lt_trans hlt (by decide))
  have hround : n.toUInt64.toFloat = packed (.round Format.binary64 .positive n ((1074 : Nat) - 1074)) := by
    change packed (.normalize Format.binary64 (n.toUInt64.toNat : Int) 0 .positive) = _
    rw [hmod]
    unfold UnpackedFloat.normalize
    rw [Int.compare_eq_gt.mpr (by omega)]
    rfl
  obtain ⟨hs, hnearest⟩ := round_nearest .positive hpos 1074
  rw [← hround] at hs hnearest
  rw [← unitsOfOne, ← units_whole hpos hlt, ← Nat.mul_one (units _)] at hnearest
  exact ⟨hs, hnearest.nearQuotient.eq (whole_digits hpos hlt).2.2.2⟩

private def one : Float := Float.ofBits 0x3FF0000000000000

private theorem ofNat_eq {n : Nat} (h : n < 2 ^ (53 : Nat)) :
    Float.ofNat n = n.toUInt64.toFloat * one :=
  dif_pos ⟨h, by decide⟩

private theorem ofNat_whole {n : Nat} (hpos : 0 < n) (hlt : n < 2 ^ (53 : Nat)) :
    sign (Float.ofNat n) = .positive ∧ magnitude (Float.ofNat n) = whole n := by
  obtain ⟨hs, hw⟩ := toFloat_whole hpos hlt
  have hend := (whole_digits hpos hlt).2.2.2
  have hfinite : IsFinite n.toUInt64.toFloat := by
    unfold IsFinite
    rw [hw]
    exact hend
  have hone : IsFinite one ∧ sign one = .positive ∧ units (magnitude one) = unitsOfOne := by
    refine ⟨?_, if_pos (by decide), by decide +kernel⟩
    unfold IsFinite
    decide
  obtain ⟨hsign, hnearest⟩ := mul_nearest hfinite hone.1
  rw [hw, hone.2.2] at hnearest
  rw [hs, hone.2.1] at hsign
  rw [ofNat_eq hlt]
  exact ⟨hsign, hnearest.nearQuotient.eq hend⟩

/-- A whole number is exact. -/
theorem ofNat_exact {n : Nat} (h : n ≤ 2 ^ (53 : Nat)) :
    IsFinite (Float.ofNat n) ∧ value (Float.ofNat n) = n * unitsOfOne := by
  rcases Nat.eq_zero_or_pos n with rfl | hpos
  · exact ⟨by unfold IsFinite; decide +kernel, by decide +kernel⟩
  · rcases Nat.eq_or_lt_of_le h with rfl | hlt
    · exact ⟨by unfold IsFinite; decide +kernel, by decide +kernel⟩
    · obtain ⟨hs, hw⟩ := ofNat_whole hpos hlt
      refine ⟨?_, ?_⟩
      · unfold IsFinite
        rw [hw]
        exact (whole_digits hpos hlt).2.2.2
      · unfold value
        rw [hs, hw, units_whole hpos hlt]
        exact Int.natCast_mul n unitsOfOne

theorem ofNat_le_iff {m n : Nat} (hm : m ≤ 2 ^ (53 : Nat)) (hn : n ≤ 2 ^ (53 : Nat)) :
    Float.ofNat m ≤ Float.ofNat n ↔ m ≤ n := by
  obtain ⟨hfinite, hvalue⟩ := ofNat_exact hm
  obtain ⟨hfinite', hvalue'⟩ := ofNat_exact hn
  rw [le_iff_value hfinite hfinite', hvalue, hvalue',
    Int.mul_le_mul_right (Int.natCast_pos.mpr unitsOfOne_pos), Int.ofNat_le]

/-- A double next to the value of a finite one has its place. -/
theorem NearTo.order_eq {v : Int} {y c : Float} (h : NearTo v y) (hc : IsFinite c)
    (hv : value c = v) : order y = order c := by
  subst hv
  exact Int.le_antisymm (h.ge (sign c) (magnitude c) hc (Int.le_refl _))
    (h.le (sign c) (magnitude c) hc (Int.le_refl _))

structure IsWhole (x : Float) (n : Nat) : Prop where
  isFinite : IsFinite x
  value_eq : value x = n * unitsOfOne

theorem isWhole_ofNat {n : Nat} (h : n ≤ 2 ^ (53 : Nat)) : IsWhole (Float.ofNat n) n :=
  ⟨(ofNat_exact h).1, (ofNat_exact h).2⟩

theorem isWhole_zero : IsWhole 0.0 0 :=
  ⟨by unfold IsFinite; decide +kernel, by decide +kernel⟩

/-- The sum of whole numbers is exact if it has no more digits than a double. -/
theorem IsWhole.add {x y : Float} {m n : Nat} (hx : IsWhole x m) (hy : IsWhole y n)
    (h : m + n ≤ 2 ^ (53 : Nat)) : IsWhole (x + y) (m + n) := by
  obtain ⟨hfinite, hvalue⟩ := isWhole_ofNat h
  have hsum : value (Float.ofNat (m + n)) = value x + value y := by
    rw [hvalue, hx.value_eq, hy.value_eq, Int.natCast_add, Int.add_mul]
  have horder : order (x + y) = order (Float.ofNat (m + n)) :=
    (nearestTo_add hx.isFinite hy.isFinite).nearTo.order_eq hfinite hsum
  obtain ⟨hlow, hhigh⟩ := hfinite.order_lt
  refine ⟨finite_of_order (by omega) (by omega), ?_⟩
  rw [← hvalue]
  exact Int.le_antisymm ((value_le_iff _ _).mpr (Int.le_of_eq horder))
    ((value_le_iff _ _).mpr (Int.le_of_eq horder.symm))

end MetricCapture.Number
