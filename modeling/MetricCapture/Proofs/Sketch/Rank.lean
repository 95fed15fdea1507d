import MetricCapture.Proofs.Number.Whole
/-! Ranks of values. What is left of a rank once smaller values are taken away is told apart from
nothing, in spite of rounding, as long as the number of values is exact. -/
namespace MetricCapture.Sketch

open MetricCapture.Number

private def gap : Float := Float.ofBits 0x3CA0000000000000

private def gapBelow : Float := Float.ofBits 0xBFEFFFFFFFFFFFFF

private def half : Float := Float.ofBits 0x3FE0000000000000

private theorem finite_gap : IsFinite gap := by
  unfold IsFinite
  decide

private theorem finite_gapBelow : IsFinite gapBelow := by
  unfold IsFinite
  decide

private theorem finite_half : IsFinite half := by
  unfold IsFinite
  decide

private def unitsOfGap : Nat := 2 ^ (1021 : Nat)

/-- Doubles beyond a half are multiples of the gap. -/
private theorem gap_dvd {r : Float} (h : order half < order r) :
    ∃ k : Nat, value r = k * unitsOfGap := by
  have hhalf : order half = 1022 * leadingDigit := by decide
  have hsign : sign r = .positive := by
    cases hs : sign r with
    | positive => rfl
    | negative =>
      unfold order at h hhalf
      rw [hs] at h
      change _ < -(magnitude r : Int) at h
      omega
  have hmag : 1022 * leadingDigit < magnitude r := by
    unfold order at h hhalf
    rw [hsign] at h
    change _ < (magnitude r : Int) at h
    omega
  obtain ⟨k, hk⟩ : ∃ k, (exponent (magnitude r) + 1074).toNat = k + 1021 := by
    refine ⟨(exponent (magnitude r) + 1074).toNat - 1021, ?_⟩
    unfold exponent
    unfold leadingDigit at *
    omega
  refine ⟨significand (magnitude r) * 2 ^ k, ?_⟩
  unfold value units unitsOfGap
  rw [hsign, hk, Nat.pow_add, ← Nat.mul_assoc]
  exact Int.natCast_mul _ _

/-- Counted by the gap, the numbers around one are whole. -/
private theorem values_by_gap :
    ∃ u : Nat, value gap = u ∧ value half = 2 ^ (52 : Nat) * u ∧
      value 1.0 = 2 ^ (53 : Nat) * u ∧ value gapBelow = u - 2 ^ (53 : Nat) * u ∧
      unitsOfOne = 2 ^ (53 : Nat) * u ∧
      ∀ r, order half < order r → ∃ k : Nat, value r = k * u := by
  refine ⟨unitsOfGap, ?_, ?_, ?_, ?_, ?_, fun r h => gap_dvd h⟩
  all_goals decide +kernel

/-- A rank below a number of values leaves at least the gap of it. -/
private theorem gap_le_sub {n : Nat} {r : Float} (hpos : 0 < n) (hn : n ≤ 2 ^ (53 : Nat))
    (h : r < Float.ofNat n) : gap ≤ Float.ofNat n - r := by
  obtain ⟨hfin, hval⟩ := ofNat_exact hn
  obtain ⟨u, hgap, hhalf, hone, hbelow, hunits, hdvd⟩ := values_by_gap
  obtain ⟨hr, _, hlt⟩ := (lt_iff _ _).mp h
  have hvlt : value r < value (Float.ofNat n) := by
    rw [← Int.not_le, value_le_iff, Int.not_le]
    exact hlt
  obtain ⟨top, hmul, hbig⟩ :
      ∃ top : Nat, value (Float.ofNat n) = top * u ∧ 2 ^ (53 : Nat) ≤ top := by
    refine ⟨n * 2 ^ (53 : Nat), ?_, Nat.le_mul_of_pos_left _ hpos⟩
    rw [hval, hunits, Int.natCast_mul, Int.natCast_mul, ← Int.mul_assoc]
  rw [hmul] at hvlt
  by_cases hle : order r ≤ order half
  · refine le_sub_of_le finite_half finite_gap hfin ((le_iff _ _).mpr
      ⟨hr, finite_half.isNumber, hle⟩) ?_
    have hge : ((2 ^ (53 : Nat) : Nat) : Int) * (u : Int) ≤ (top : Int) * (u : Int) :=
      Int.mul_le_mul_of_nonneg_right (Int.ofNat_le.mpr hbig) (Int.natCast_nonneg u)
    rw [hgap, hhalf, hmul]
    omega
  · have hr' : IsFinite r := by
      have hl := finite_half.order_lt
      have hh := hfin.order_lt
      exact finite_of_order (by omega) (by omega)
    refine le_sub_of_le hr' finite_gap hfin (le_self hr) ?_
    obtain ⟨k, hk⟩ := hdvd r (Int.not_le.mp hle)
    have hlt' : k < top := by
      rw [hk] at hvlt
      exact Int.ofNat_lt.mp (Int.lt_of_mul_lt_mul_right hvlt (Int.natCast_nonneg u))
    have hge : ((k + 1 : Nat) : Int) * (u : Int) ≤ (top : Int) * (u : Int) :=
      Int.mul_le_mul_of_nonneg_right (Int.ofNat_le.mpr hlt') (Int.natCast_nonneg u)
    rw [Int.natCast_add, Int.add_mul] at hge
    rw [hgap, hmul, hk]
    omega

/-- What a rank leaves of a greater number of values is more than nothing. -/
theorem not_le_zero {n : Nat} {r : Float} (hpos : 0 < n) (hn : n ≤ 2 ^ (53 : Nat))
    (h : r < Float.ofNat n) :
    ¬ Float.ofNat n - r - 1.0 + 1.0 ≤ Float.ofNat 0 := by
  obtain ⟨u, hgap, hhalf, hone, hbelow, _⟩ := values_by_gap
  have hfirst := gap_le_sub hpos hn h
  have hsecond : gapBelow ≤ Float.ofNat n - r - 1.0 :=
    le_sub finite_gap finite_gapBelow finite_one hfirst (by omega)
  have hthird : gap ≤ Float.ofNat n - r - 1.0 + 1.0 :=
    le_add finite_gapBelow finite_gap finite_one hsecond (by omega)
  obtain ⟨_, _, hge⟩ := (le_iff _ _).mp hthird
  intro hle
  obtain ⟨_, _, hle⟩ := (le_iff _ _).mp hle
  have horder : order (Float.ofNat 0) = 0 ∧ 0 < order gap := by decide
  omega

/-- What smaller values leave of a rank that is not below their number is not less than nothing. -/
theorem not_lt_zero {z n : Nat} {r : Float} (h : z + n ≤ 2 ^ (53 : Nat))
    (hr : ¬ r < Float.ofNat (z + n)) : ¬ r - Float.ofNat z - Float.ofNat n < Float.ofNat 0 := by
  obtain ⟨hfin, hval⟩ := ofNat_exact h
  obtain ⟨hzfin, hzval⟩ := ofNat_exact (Nat.le_trans (Nat.le_add_right z n) h)
  obtain ⟨hnfin, hnval⟩ := ofNat_exact (Nat.le_trans (Nat.le_add_left n z) h)
  obtain ⟨h0fin, h0val⟩ := ofNat_exact (Nat.zero_le (2 ^ (53 : Nat)))
  intro hlt
  by_cases hnum : IsNumber r
  · have hge : Float.ofNat (z + n) ≤ r := by
      refine (le_iff _ _).mpr ⟨hfin.isNumber, hnum, Int.not_lt.mp fun horder => hr ?_⟩
      exact (lt_iff _ _).mpr ⟨hnum, hfin.isNumber, horder⟩
    have hfirst : Float.ofNat n ≤ r - Float.ofNat z := by
      refine le_sub hfin hnfin hzfin hge ?_
      rw [hval, hzval, hnval, Int.natCast_add, Int.add_mul]
      omega
    have hsecond : Float.ofNat 0 ≤ r - Float.ofNat z - Float.ofNat n := by
      refine le_sub hnfin h0fin hnfin hfirst ?_
      rw [h0val, hnval]
      omega
    obtain ⟨_, _, hle⟩ := (le_iff _ _).mp hsecond
    obtain ⟨_, _, hlt⟩ := (lt_iff _ _).mp hlt
    omega
  · obtain ⟨hnum', _, _⟩ := (lt_iff _ _).mp hlt
    exact not_isNumber_sub (not_isNumber_sub hnum _) _ hnum'

end MetricCapture.Sketch
