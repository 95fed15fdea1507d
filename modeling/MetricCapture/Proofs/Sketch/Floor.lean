import MetricCapture.Proofs.Number.Monotone
import MetricCapture.Proofs.Sketch.Rank
/-! The whole number that a rank begins with tells which value has the rank. What is left of a rank after
smaller values are taken away is exact. Among the negative values the rank is counted from the other end, and
then it can be rounded to a whole number, which leads to the next value. -/
namespace MetricCapture.Sketch

open MetricCapture.Number

structure IsFloor (r : Float) (k : Nat) : Prop where
  isNatural : IsNatural r
  le : Float.ofNat k ≤ r
  lt : r < Float.ofNat (k + 1)
  bound : k < 2 ^ (53 : Nat)

def turned (n : Nat) (r : Float) : Float :=
  Float.ofNat n - r - 1.0 + 1.0

/-- The place of the value with a rank among all values in ascending order, the first `n` of which are
negative. It is the whole number that the rank begins with, unless what the rank leaves of the negative values
is rounded to the next whole number below. -/
def placeOf (n : Nat) (r : Float) (k : Nat) : Nat :=
  if r < Float.ofNat n ∧ turned n r ≤ Float.ofNat (n - k - 1) then k + 1 else k

-- The largest double below one, as a rank among three negative values, is taken for one.
example : placeOf 3 (Float.ofBits 0x3FEFFFFFFFFFFFFF) 0 = 1 := by decide +kernel

variable {r r' : Float} {k k' n z j : Nat}

/-- A rank that is no more than a whole number begins with one that is no more either. -/
theorem exists_isFloor (hr : IsNatural r) (h : r ≤ Float.ofNat n) (hn : n < 2 ^ (53 : Nat)) :
    ∃ k ≤ n, IsFloor r k := by
  obtain ⟨hfinite, hvalue⟩ := ofNat_exact (Nat.le_of_lt hn)
  have hle := value_le h
  rw [hr.value_eq, hvalue, ← Int.natCast_mul, Int.ofNat_le] at hle
  generalize hu : units (magnitude r) = u at hle
  have hk : u / unitsOfOne ≤ n := Nat.div_le_of_le_mul (by rw [Nat.mul_comm]; exact hle)
  obtain ⟨hkfinite, hkvalue⟩ := ofNat_exact (n := u / unitsOfOne) (by omega)
  obtain ⟨hsfinite, hsvalue⟩ := ofNat_exact (n := u / unitsOfOne + 1) (by omega)
  refine ⟨u / unitsOfOne, hk, hr, ?_, ?_, by omega⟩
  · rw [le_iff_value hkfinite hr.isFinite, hkvalue, hr.value_eq, hu, ← Int.natCast_mul, Int.ofNat_le]
    exact Nat.div_mul_le_self _ _
  · rw [lt_iff_value hr.isFinite hsfinite, hsvalue, hr.value_eq, hu, ← Int.natCast_mul, Int.ofNat_lt,
      Nat.mul_comm]
    exact Nat.lt_mul_div_succ u unitsOfOne_pos

theorem IsFloor.lt_iff (h : IsFloor r k) (hn : n ≤ 2 ^ (53 : Nat)) : r < Float.ofNat n ↔ k < n := by
  constructor
  · intro hlt
    refine Nat.not_le.mp fun hle => not_le_of_lt hlt (Number.le_trans ?_ h.le)
    exact (ofNat_le_iff hn (Nat.le_of_lt h.bound)).mpr hle
  · intro hlt
    have hle := (ofNat_le_iff h.bound hn).mpr hlt
    obtain ⟨hnum, _, hbelow⟩ := (Number.lt_iff _ _).mp h.lt
    obtain ⟨_, hnum', hup⟩ := (le_iff _ _).mp hle
    exact (Number.lt_iff _ _).mpr ⟨hnum, hnum', Int.lt_of_lt_of_le hbelow hup⟩

/-- A larger rank does not begin with a smaller number. -/
theorem IsFloor.floor_le (h : IsFloor r k) (h' : IsFloor r' k') (hle : r ≤ r') : k ≤ k' :=
  Nat.le_of_lt_succ ((h.lt_iff h'.bound).mp (Number.lt_of_le hle h'.lt))

/-- How many times the smallest double a rank is, between two whole numbers. -/
theorem IsFloor.value_bounds (h : IsFloor r k) :
    (k : Int) * unitsOfOne ≤ value r ∧ value r < ((k + 1 : Nat) : Int) * unitsOfOne := by
  obtain ⟨_, hk⟩ := ofNat_exact (Nat.le_of_lt h.bound)
  obtain ⟨hfinite, hs⟩ := ofNat_exact h.bound
  rw [← hk, ← hs]
  exact ⟨value_le h.le, (lt_iff_value h.isNatural.isFinite hfinite).mp h.lt⟩

private theorem mul_unitsOfOne_le {a b : Nat} (h : a ≤ b) :
    (a : Int) * unitsOfOne ≤ (b : Int) * unitsOfOne :=
  Int.mul_le_mul_of_nonneg_right (Int.ofNat_le.mpr h) (Int.natCast_nonneg _)

/-- Whole numbers are taken away from a rank without a loss. -/
theorem IsFloor.rest_lt_iff (h : IsFloor r k) (hk : z + n ≤ k) (hj : z + n + j ≤ 2 ^ (53 : Nat)) :
    r - Float.ofNat z - Float.ofNat n < Float.ofNat j ↔ k < z + n + j := by
  obtain ⟨hlow, hhigh⟩ := h.value_bounds
  have hz := isWhole_ofNat (n := z) (by omega)
  have hn := isWhole_ofNat (n := n) (by omega)
  obtain ⟨hjfinite, hjvalue⟩ := ofNat_exact (n := j) (by omega)
  obtain ⟨hsfinite, hsvalue⟩ := ofNat_exact hj
  have hsum := Int.le_trans (mul_unitsOfOne_le hk) hlow
  have hnonneg : (0 : Int) ≤ (z : Int) * unitsOfOne :=
    Int.mul_nonneg (Int.natCast_nonneg z) (Int.natCast_nonneg _)
  have hbound : units (magnitude r) < 2 ^ (53 : Nat) * unitsOfOne := by
    have hlt := Int.lt_of_lt_of_le hhigh (mul_unitsOfOne_le h.bound)
    rw [h.isNatural.value_eq, ← Int.natCast_mul, Int.ofNat_lt] at hlt
    exact hlt
  rw [Int.natCast_add, Int.add_mul] at hsum
  obtain ⟨hnat, hrest⟩ := sub_exact h.isNatural hz
    (Number.le_trans ((ofNat_le_iff (by omega) (Nat.le_of_lt h.bound)).mpr (by omega)) h.le) hbound
  rw [hz.value_eq] at hrest
  have hbound' : units (magnitude (r - Float.ofNat z)) < 2 ^ (53 : Nat) * unitsOfOne := by
    have hvalue := h.isNatural.value_eq
    have hvalue' := hnat.value_eq
    omega
  obtain ⟨hnat', hrest'⟩ := sub_exact hnat hn
    ((le_iff_value hn.isFinite hnat.isFinite).mpr (by rw [hn.value_eq, hrest]; omega)) hbound'
  rw [← h.lt_iff hj, lt_iff_value hnat'.isFinite hjfinite, lt_iff_value h.isNatural.isFinite hsfinite,
    hrest', hrest, hn.value_eq, hjvalue, hsvalue, Int.natCast_add, Int.natCast_add, Int.add_mul,
    Int.add_mul]
  omega

/-- Beyond the negative values a rank is not turned round. -/
theorem IsFloor.placeOf_eq (h : IsFloor r k) (hk : n ≤ k) : placeOf n r k = k := by
  refine if_neg fun hnext => ?_
  have hbound := h.bound
  have hlt := (h.lt_iff (by omega)).mp hnext.1
  omega

/-- The value with a rank among the negative values is one of them. -/
theorem placeOf_lt (hk : k < n) (hn : n ≤ 2 ^ (53 : Nat)) : placeOf n r k < n := by
  unfold placeOf
  split
  · rename_i hnext
    obtain ⟨hlt, hle⟩ := hnext
    refine Nat.not_le.mp fun hlast => ?_
    rw [show n - k - 1 = 0 by omega] at hle
    exact not_le_zero (by omega) hn hlt hle
  · exact hk

section

variable (h : IsFloor r k) (hk : k < n) (hn : n ≤ 2 ^ (53 : Nat))

include h hk hn

/-- A rank among the negative values leaves of them what lies between two whole numbers. -/
private theorem IsFloor.sub_bounds :
    Float.ofNat (n - k - 1) ≤ Float.ofNat n - r ∧ Float.ofNat n - r ≤ Float.ofNat (n - k) ∧
      IsFinite (Float.ofNat n - r) := by
  obtain ⟨hlow, _⟩ := h.value_bounds
  obtain ⟨a, rfl⟩ := Nat.exists_eq_add_of_lt hk
  have hwhole := isWhole_ofNat hn
  have hfloor := isWhole_ofNat (Nat.le_of_lt h.bound)
  have hnext := isWhole_ofNat (n := k + 1) h.bound
  have ha := isWhole_ofNat (n := a) (by omega)
  have hs := isWhole_ofNat (n := a + 1) (by omega)
  obtain ⟨hr, _, hrnext⟩ := (Number.lt_iff _ _).mp h.lt
  have hle : Float.ofNat a ≤ Float.ofNat (k + a + 1) - r := by
    refine le_sub_of_le hnext.isFinite ha.isFinite hwhole.isFinite
      ((le_iff _ _).mpr ⟨hr, hnext.isFinite.isNumber, Int.le_of_lt hrnext⟩) ?_
    rw [ha.value_eq, hwhole.value_eq, hnext.value_eq]
    simp only [Int.natCast_add, Int.add_mul]
    omega
  have hge : Float.ofNat (k + a + 1) - r ≤ Float.ofNat (a + 1) := by
    refine sub_le hs.isFinite hwhole.isFinite h.isNatural.isFinite ?_
    rw [hs.value_eq, hwhole.value_eq]
    simp only [Int.natCast_add, Int.add_mul]
    omega
  rw [show k + a + 1 - k - 1 = a by omega, show k + a + 1 - k = a + 1 by omega]
  exact ⟨hle, hge, finite_of_le ha.isFinite hs.isFinite hle hge⟩

/-- So it does less one, where less than nothing may be left of the last of them. -/
private theorem IsFloor.sub_one_bounds :
    Float.ofNat n - r - 1.0 ≤ Float.ofNat (n - k - 1) ∧ IsFinite (Float.ofNat n - r - 1.0) ∧
      (k + 1 < n → Float.ofNat (n - k - 2) ≤ Float.ofNat n - r - 1.0) := by
  obtain ⟨hle, hge, hfinite⟩ := h.sub_bounds hk hn
  have hone : IsWhole 1.0 1 := ⟨finite_one, by decide +kernel⟩
  have hrest := isWhole_ofNat (n := n - k) (by omega)
  have hless := isWhole_ofNat (n := n - k - 1) (by omega)
  have hminus : IsFinite (-1.0) ∧ value (-1.0) = -unitsOfOne := by
    refine ⟨?_, by decide +kernel⟩
    unfold IsFinite
    decide
  have hvalue := value_le hge
  have hvalue' := value_le hle
  have hupper : Float.ofNat n - r - 1.0 ≤ Float.ofNat (n - k - 1) := by
    refine sub_le hless.isFinite hfinite hone.isFinite ?_
    rw [hrest.value_eq] at hvalue
    rw [hless.value_eq, hone.value_eq]
    rw [show n - k = n - k - 1 + 1 by omega, Int.natCast_add, Int.add_mul] at hvalue
    omega
  have hlower : -1.0 ≤ Float.ofNat n - r - 1.0 := by
    refine le_sub hless.isFinite hminus.1 hone.isFinite hle ?_
    rw [hminus.2, hless.value_eq, hone.value_eq]
    have hnonneg := mul_unitsOfOne_le (Nat.zero_le (n - k - 1))
    omega
  refine ⟨hupper, finite_of_le hminus.1 hless.isFinite hlower hupper, fun hlt => ?_⟩
  have hleast := isWhole_ofNat (n := n - k - 2) (by omega)
  refine le_sub hless.isFinite hleast.isFinite hone.isFinite hle ?_
  rw [hleast.value_eq, hless.value_eq, hone.value_eq, show n - k - 1 = n - k - 2 + 1 by omega,
    Int.natCast_add, Int.add_mul]
  omega

/-- What a rank leaves of the negative values, as it is worked out, lies between whole numbers too. -/
theorem IsFloor.turned_bounds :
    turned n r ≤ Float.ofNat (n - k) ∧
      (k + 1 < n → Float.ofNat (n - k - 1) ≤ turned n r) := by
  obtain ⟨hupper, hfinite, hlower⟩ := h.sub_one_bounds hk hn
  have hone : IsWhole 1.0 1 := ⟨finite_one, by decide +kernel⟩
  have hrest := isWhole_ofNat (n := n - k) (by omega)
  have hless := isWhole_ofNat (n := n - k - 1) (by omega)
  refine ⟨add_le hrest.isFinite hfinite hone.isFinite ?_, fun hlt => ?_⟩
  · have hvalue := value_le hupper
    rw [hless.value_eq] at hvalue
    rw [hrest.value_eq, hone.value_eq, show n - k = n - k - 1 + 1 by omega, Int.natCast_add, Int.add_mul]
    omega
  · have hleast := isWhole_ofNat (n := n - k - 2) (by omega)
    refine le_add hleast.isFinite hless.isFinite hone.isFinite (hlower hlt) (Int.le_of_eq ?_)
    rw [hleast.value_eq, hless.value_eq, hone.value_eq, show n - k - 1 = n - k - 2 + 1 by omega,
      Int.natCast_add, Int.add_mul]

/-- So many negative values from its place on are enough for a rank. -/
theorem IsFloor.turned_le_iff (hj : j ≤ 2 ^ (53 : Nat)) :
    turned n r ≤ Float.ofNat j ↔ n - placeOf n r k ≤ j := by
  obtain ⟨hupper, hlower⟩ := h.turned_bounds hk hn
  have hlt : r < Float.ofNat n := (h.lt_iff hn).mpr hk
  have hplace : placeOf n r k = if turned n r ≤ Float.ofNat (n - k - 1) then k + 1 else k := by
    unfold placeOf
    simp only [hlt, true_and]
  rw [hplace]
  rcases Nat.lt_trichotomy j (n - k - 1) with hless | rfl | hmore
  · have hnot : ¬ turned n r ≤ Float.ofNat j := fun hle =>
      Nat.not_le.mpr hless ((ofNat_le_iff (by omega) hj).mp (Number.le_trans (hlower (by omega)) hle))
    refine iff_of_false hnot ?_
    split <;> omega
  · split
    · rename_i hle
      exact iff_of_true hle (by omega)
    · rename_i hnot
      exact iff_of_false hnot (by omega)
  · refine iff_of_true (Number.le_trans hupper ((ofNat_le_iff (by omega) hj).mpr (by omega))) ?_
    split <;> omega

end

/-- The value with a larger rank does not come earlier. -/
theorem IsFloor.placeOf_le (h : IsFloor r k) (h' : IsFloor r' k') (hn : n ≤ 2 ^ (53 : Nat))
    (hle : r ≤ r') : placeOf n r k ≤ placeOf n r' k' := by
  have hfloor := h.floor_le h' hle
  have hself : k' ≤ placeOf n r' k' := by
    unfold placeOf
    split <;> omega
  rcases Nat.lt_or_eq_of_le hfloor with hlt | rfl
  · refine Nat.le_trans ?_ hself
    unfold placeOf
    split <;> omega
  · by_cases hnext : r < Float.ofNat n ∧ turned n r ≤ Float.ofNat (n - k - 1)
    · have hk := (h.lt_iff hn).mp hnext.1
      obtain ⟨_, hfinite, _⟩ := h.sub_one_bounds hk hn
      obtain ⟨_, hfinite', _⟩ := h'.sub_one_bounds hk hn
      have hwhole := (ofNat_exact hn).1
      have hturned : turned n r' ≤ turned n r := by
        refine add_le_add hfinite' hfinite finite_one finite_one ?_ (le_self finite_one.isNumber)
        refine sub_le_sub (h'.sub_bounds hk hn).2.2 (h.sub_bounds hk hn).2.2 finite_one finite_one ?_
          (le_self finite_one.isNumber)
        exact sub_le_sub hwhole hwhole h'.isNatural.isFinite h.isNatural.isFinite
          (le_self hwhole.isNumber) hle
      have hnext' : r' < Float.ofNat n ∧ turned n r' ≤ Float.ofNat (n - k - 1) :=
        ⟨(h'.lt_iff hn).mpr hk, Number.le_trans hturned hnext.2⟩
      refine Nat.le_of_eq ?_
      unfold placeOf
      rw [if_pos hnext, if_pos hnext']
    · unfold placeOf
      rw [if_neg hnext]
      split <;> omega

end MetricCapture.Sketch
