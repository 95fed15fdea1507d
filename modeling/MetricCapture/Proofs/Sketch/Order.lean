import MetricCapture.Proofs.Sketch.Bins
import MetricCapture.Proofs.Sketch.Floor
import MetricCapture.Proofs.Sketch.Quantile
/-! The bins of a sketch in ascending order, and the value that a rank leads to: the representative of a rank
is that of the bin which holds the value at its place among all values in ascending order. -/
namespace MetricCapture.Sketch

open MetricCapture.Number

/-- A bin of a sketch: one of either sign, by its key, or the one of the values that count as zero. -/
inductive Bin where
  | negative (key : Int)
  | zero
  | positive (key : Int)
  deriving Repr, DecidableEq

namespace Bin

/-- Whether a bin lies no higher than another one. The keys of negative values descend. -/
def le : Bin → Bin → Bool
  | negative j, negative k => k ≤ j
  | negative _, _ => true
  | zero, negative _ => false
  | zero, _ => true
  | positive j, positive k => j ≤ k
  | positive _, _ => false

def key? : Bin → Option Int
  | negative k => some k
  | zero => none
  | positive k => some k

theorem le_refl (a : Bin) : a.le a = true := by
  cases a <;> simp [le]

theorem le_trans (a b c : Bin) (hab : a.le b = true) (hbc : b.le c = true) : a.le c = true := by
  cases a <;> cases b <;> cases c <;> simp_all [le] <;> omega

theorem le_total (a b : Bin) : (a.le b || b.le a) = true := by
  cases a <;> cases b <;> simp [le] <;> omega

end Bin

namespace Mapping

def bin (m : Mapping) (x : Float) : Bin :=
  match m.positiveKey? x, m.negativeKey? x with
  | some k, _ => .positive k
  | none, some k => .negative k
  | none, none => .zero

/-- What has become of a bin after all keys too far below the highest one of their sign have been put into
the lowest bin. -/
def collapse (m : Mapping) (limit : Nat) (xs : List Float) : Bin → Bin
  | .negative k => .negative (max k (lowest limit (xs.filterMap m.negativeKey?)))
  | .zero => .zero
  | .positive k => .positive (max k (lowest limit (xs.filterMap m.positiveKey?)))

def represent (m : Mapping) : Bin → Except Failure Float
  | .negative k => (m.value k).map (-·)
  | .zero => .ok 0.0
  | .positive k => m.value k

/-- Values in ascending order of their bins: negative ones, then those that count as zero, then positive
ones. -/
structure Ascending (m : Mapping) (xs ys : List Float) : Prop where
  perm : ys.Perm xs
  pairwise : ys.Pairwise fun x y => (m.bin x).le (m.bin y) = true

variable {m : Mapping} {limit : Nat} {xs ys : List Float}

theorem exists_ascending (m : Mapping) (xs : List Float) : ∃ ys, m.Ascending xs ys :=
  ⟨xs.mergeSort fun x y => (m.bin x).le (m.bin y), List.mergeSort_perm _ _,
    List.pairwise_mergeSort (fun x y z => Bin.le_trans (m.bin x) (m.bin y) (m.bin z))
      (fun x y => Bin.le_total (m.bin x) (m.bin y)) xs⟩

/-- The value at a later place is in no lower bin. -/
theorem Ascending.le_of_le (h : m.Ascending xs ys) {i j : Nat} (hij : i ≤ j) {x y : Float}
    (hx : ys[i]? = some x) (hy : ys[j]? = some y) : (m.bin x).le (m.bin y) = true := by
  obtain ⟨hi, rfl⟩ := List.getElem?_eq_some_iff.mp hx
  obtain ⟨hj, rfl⟩ := List.getElem?_eq_some_iff.mp hy
  rcases Nat.lt_or_eq_of_le hij with hlt | rfl
  · exact List.pairwise_iff_getElem.mp h.pairwise i j hi hj hlt
  · exact Bin.le_refl _

/-- What has become of bins is in the order of the bins. -/
theorem le_collapse {a b : Bin} (h : a.le b = true) :
    (m.collapse limit xs a).le (m.collapse limit xs b) = true := by
  cases a <;> cases b <;> simp_all [collapse, Bin.le] <;> omega

/-- Values are counted once, by their bins. -/
theorem countP_bin (h : ∀ x ∈ xs, m.Accepts x) (p : Bin → Bool) :
    xs.countP (fun x => p (m.bin x)) =
      (xs.filterMap m.negativeKey?).countP (fun k => p (.negative k)) +
        (if p .zero then xs.countP m.isZero else 0) +
        (xs.filterMap m.positiveKey?).countP (fun k => p (.positive k)) := by
  induction xs with
  | nil => simp
  | cons x xs ih =>
    obtain ⟨hx, hxs⟩ := List.forall_mem_cons.mp h
    rw [List.countP_cons, ih hxs]
    rcases hx.cases with ⟨k, hp, hn, hz⟩ | ⟨k, hp, hn, hz⟩ | ⟨hp, hn, hz⟩
    · simp only [bin, hp, hn, hz, List.filterMap_cons, List.countP_cons]
      simp
      omega
    · simp only [bin, hp, hn, hz, List.filterMap_cons, List.countP_cons]
      simp
      omega
    · simp only [bin, hp, hn, hz, List.filterMap_cons, List.countP_cons]
      split
      · simp
        omega
      · simp

/-- What holds of a value in a list holds of all before it: so it holds of as many as are counted. -/
private theorem iff_lt_countP {α : Type} {p : α → Bool} {zs : List α}
    (h : zs.Pairwise fun x y => p y = true → p x = true) {i : Nat} {x : α} (hx : zs[i]? = some x) :
    p x = true ↔ i < zs.countP p := by
  induction zs generalizing i with
  | nil => simp at hx
  | cons z zs ih =>
    obtain ⟨hz, hzs⟩ := List.pairwise_cons.mp h
    by_cases hpz : p z = true
    · rw [List.countP_cons_of_pos hpz]
      cases i with
      | zero => simp_all
      | succ i =>
        rw [ih hzs (by simpa using hx)]
        omega
    · have hnone : zs.countP p = 0 := List.countP_eq_zero.mpr fun y hy hpy => hpz (hz y hy hpy)
      rw [List.countP_cons_of_neg hpz, hnone]
      have hmem : x ∈ z :: zs := List.mem_of_getElem? hx
      rcases List.mem_cons.mp hmem with rfl | hmem
      · simpa using hpz
      · simpa using List.countP_eq_zero.mp hnone x hmem

/-- What holds of all bins up to one holds of the value at a place if enough values are in such bins. -/
theorem Ascending.iff_lt (h : m.Ascending xs ys) (hx : ∀ x ∈ xs, m.Accepts x) {p : Bin → Bool}
    (hp : ∀ a b : Bin, a.le b = true → p b = true → p a = true) {i : Nat} {x : Float}
    (hi : ys[i]? = some x) :
    p (m.bin x) = true ↔ i < (xs.filterMap m.negativeKey?).countP (fun k => p (.negative k)) +
      (if p .zero then xs.countP m.isZero else 0) +
      (xs.filterMap m.positiveKey?).countP (fun k => p (.positive k)) := by
  rw [← countP_bin hx, ← h.perm.countP_eq]
  exact iff_lt_countP (h.pairwise.imp fun hle => hp _ _ hle) hi

theorem mem_of_bin_eq_negative {x : Float} {k : Int} (hx : x ∈ xs) (h : m.bin x = .negative k) :
    k ∈ xs.filterMap m.negativeKey? := by
  unfold bin at h
  split at h
  · cases h
  · rename_i hk
    cases h
    exact List.mem_filterMap.mpr ⟨x, hx, hk⟩
  · cases h

theorem mem_of_bin_eq_positive {x : Float} {k : Int} (hx : x ∈ xs) (h : m.bin x = .positive k) :
    k ∈ xs.filterMap m.positiveKey? := by
  unfold bin at h
  split at h
  · rename_i hk
    cases h
    exact List.mem_filterMap.mpr ⟨x, hx, hk⟩
  · cases h
  · cases h

section

variable (h : m.Ascending xs ys) (hx : ∀ x ∈ xs, m.Accepts x) {i : Nat} {x : Float} (hi : ys[i]? = some x)

include h hx hi

/-- The values at the first places are negative, and after those that count as zero come the positive ones. -/
theorem Ascending.cases :
    (i < (xs.filterMap m.negativeKey?).length ∧
      ∃ k ∈ xs.filterMap m.negativeKey?, m.bin x = .negative k) ∨
    ((xs.filterMap m.negativeKey?).length ≤ i ∧
      i < xs.countP m.isZero + (xs.filterMap m.negativeKey?).length ∧ m.bin x = .zero) ∨
    (xs.countP m.isZero + (xs.filterMap m.negativeKey?).length ≤ i ∧
      ∃ k ∈ xs.filterMap m.positiveKey?, m.bin x = .positive k) := by
  have hmem : x ∈ xs := h.perm.mem_iff.mp (List.mem_of_getElem? hi)
  have hnegative := h.iff_lt hx
    (p := fun | .negative _ => true | _ => false) (by rintro (_ | _ | _) (_ | _ | _) <;> simp [Bin.le]) hi
  have hpositive := h.iff_lt hx
    (p := fun | .positive _ => false | _ => true) (by rintro (_ | _ | _) (_ | _ | _) <;> simp [Bin.le]) hi
  simp only [List.countP_true, List.countP_false, Function.const_apply, if_true, Bool.false_eq_true,
    if_false, Nat.add_zero] at hnegative hpositive
  cases hb : m.bin x with
  | negative k =>
    rw [hb] at hnegative
    exact .inl ⟨by simpa using hnegative, k, mem_of_bin_eq_negative hmem hb, rfl⟩
  | zero =>
    rw [hb] at hnegative hpositive
    simp only [Bool.false_eq_true, false_iff, true_iff] at hnegative hpositive
    exact .inr (.inl ⟨by omega, by omega, rfl⟩)
  | positive k =>
    rw [hb] at hpositive
    simp only [Bool.false_eq_true, false_iff] at hpositive
    exact .inr (.inr ⟨by omega, k, mem_of_bin_eq_positive hmem hb, rfl⟩)

/-- From the place of a negative value on there are as many as in the bins up to its own. -/
theorem Ascending.negative_iff {k low : Int} (hk : m.bin x = .negative k) (c : Int) :
    (xs.filterMap m.negativeKey?).length - i ≤
      (xs.filterMap m.negativeKey?).countP (fun j => max j low ≤ c) ↔ max k low ≤ c := by
  have hbeyond := h.iff_lt hx (p := fun | .negative j => decide (c < max j low) | _ => false)
    (by rintro (_ | _ | _) (_ | _ | _) <;> simp [Bin.le]; omega) hi
  have hsplit := List.length_eq_countP_add_countP (fun j : Int => decide (max j low ≤ c))
    (l := xs.filterMap m.negativeKey?)
  have hnot : (xs.filterMap m.negativeKey?).countP (fun j => decide (c < max j low)) =
      (xs.filterMap m.negativeKey?).countP (fun j => decide ¬ decide (max j low ≤ c) = true) :=
    Window.countP_iff fun j _ => by
      simp only [decide_eq_true_eq]
      omega
  simp only [hk, decide_eq_true_eq, List.countP_false, Function.const_apply, Bool.false_eq_true, if_false,
    Nat.add_zero] at hbeyond
  omega

/-- Before and at the place of a positive value there are as many as in the bins up to its own. -/
theorem Ascending.positive_iff {k low : Int} (hk : m.bin x = .positive k) (c : Int) :
    i < xs.countP m.isZero + (xs.filterMap m.negativeKey?).length +
      (xs.filterMap m.positiveKey?).countP (fun j => max j low ≤ c) ↔ max k low ≤ c := by
  have hupTo := h.iff_lt hx (p := fun | .positive j => decide (max j low ≤ c) | _ => true)
    (by rintro (_ | _ | _) (_ | _ | _) <;> simp [Bin.le]; omega) hi
  simp only [hk, decide_eq_true_eq, List.countP_true, if_true] at hupTo
  rw [hupTo]
  omega

end

end Mapping

variable {accuracy : Float} {limit : Nat} {s : Sketch} {xs ys : List Float}

/-- The representative of a rank is that of the bin which holds the value at its place. -/
theorem Represents.representative_eq (hs : s.Represents accuracy limit xs)
    (hc : xs.length ≤ 2 ^ (53 : Nat)) {r : Float} {k : Nat} (hr : IsFloor r k) (hk : k < xs.length)
    (hys : (Mapping.ofAccuracy accuracy).Ascending xs ys) :
    ∃ x, ys[placeOf s.negative.count r k]? = some x ∧ s.representative r =
      ((Mapping.ofAccuracy accuracy).represent
        ((Mapping.ofAccuracy accuracy).collapse limit xs ((Mapping.ofAccuracy accuracy).bin x))).map
          some := by
  have hlength := hys.perm.length_eq
  have htotal := Mapping.length_keys hs.accepts
  have hexists : ∀ i < xs.length, ∃ x, ys[i]? = some x := fun i hi =>
    ⟨ys.get ⟨i, by omega⟩, by simp⟩
  unfold Sketch.representative
  rw [hs.negative.count_eq, hs.zeros, hs.mapping_eq]
  dsimp only
  by_cases hneg : k < (xs.filterMap (Mapping.ofAccuracy accuracy).negativeKey?).length
  · have hplace := placeOf_lt (r := r) hneg (by omega)
    obtain ⟨x, hx⟩ := hexists _ (Nat.lt_of_lt_of_le hplace (by omega))
    obtain ⟨_, key, hkey, hbin⟩ | ⟨hge, _⟩ | ⟨hge, _⟩ := hys.cases hs.accepts hx
    · refine ⟨x, hx, ?_⟩
      rw [if_pos ((hr.lt_iff (by omega)).mpr hneg), hbin, hs.negative.firstKey_eq hkey]
      · simp only [Mapping.collapse, Mapping.represent]
        generalize (Mapping.ofAccuracy accuracy).value _ = v
        cases v <;> rfl
      · intro c
        have hcount := List.countP_le_length (p := fun j => decide
          (max j (lowest limit (xs.filterMap (Mapping.ofAccuracy accuracy).negativeKey?)) ≤ c))
          (l := xs.filterMap (Mapping.ofAccuracy accuracy).negativeKey?)
        rw [decide_eq_true_eq]
        exact (hr.turned_le_iff hneg (by omega) (by omega)).trans
          (hys.negative_iff hs.accepts hx hbin c)
    · omega
    · omega
  · obtain ⟨x, hx⟩ := hexists k hk
    rw [hr.placeOf_eq (Nat.not_lt.mp hneg)]
    refine ⟨x, hx, ?_⟩
    rw [if_neg fun hlt => hneg ((hr.lt_iff (by omega)).mp hlt)]
    obtain ⟨hlt, _⟩ | ⟨_, hlt, hbin⟩ | ⟨hge, key, hkey, hbin⟩ := hys.cases hs.accepts hx
    · exact absurd hlt hneg
    · rw [if_pos ((hr.lt_iff (by omega)).mpr hlt), hbin]
      rfl
    · rw [if_neg fun hlt => Nat.not_lt.mpr hge ((hr.lt_iff (by omega)).mp hlt), hbin,
        hs.positive.firstKey_eq hkey]
      · simp only [Mapping.collapse, Mapping.represent]
      · intro c
        have hcount := List.countP_le_length (p := fun j => decide
          (max j (lowest limit (xs.filterMap (Mapping.ofAccuracy accuracy).positiveKey?)) ≤ c))
          (l := xs.filterMap (Mapping.ofAccuracy accuracy).positiveKey?)
        rw [decide_eq_true_eq]
        exact (hr.rest_lt_iff hge (by omega)).trans (hys.positive_iff hs.accepts hx hbin c)

end MetricCapture.Sketch
