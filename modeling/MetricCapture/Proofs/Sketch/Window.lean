import MetricCapture.Sketch.Store
/-! Windows, seen through the counts of their keys: what moving a window and counting in it do to
the count of each key. -/
namespace MetricCapture.Sketch

namespace Window

def Covers (w : Window) (key : Int) : Prop :=
  w.offset ≤ key ∧ key < w.offset + w.bins.size

@[simp] theorem get_empty (key : Int) : get {} key = 0 := by
  unfold get
  split <;> rfl

theorem get_of_not_covers {w : Window} {key : Int} (h : ¬ w.Covers key) : w.get key = 0 := by
  unfold Covers at h
  unfold get
  split
  · rfl
  · rw [Array.getD_eq_getD_getElem?, Array.getElem?_eq_none (by omega)]
    rfl

@[simp] theorem size_move (w : Window) (offset : Int) (length : Nat) :
    (w.move offset length).bins.size = length := Array.size_ofFn

/-- What has a bin after a move keeps its count. -/
theorem get_move (w : Window) (offset : Int) (length : Nat) (key : Int) :
    (w.move offset length).get key =
      if offset ≤ key ∧ key < offset + length then w.get key else 0 := by
  split
  · rename_i h
    have hk : offset + ((key - offset).toNat : Int) = key := by omega
    unfold get move
    dsimp only
    rw [if_neg (by omega), Array.getD_eq_getD_getElem?, Array.getElem?_ofFn,
      dif_pos (by omega), Option.getD_some, hk]
    rfl
  · rename_i h
    apply get_of_not_covers
    unfold Covers
    rw [size_move]
    exact h

@[simp] theorem offset_addAt (w : Window) (position n : Nat) : (w.addAt position n).offset = w.offset :=
  rfl

@[simp] theorem size_addAt (w : Window) (position n : Nat) :
    (w.addAt position n).bins.size = w.bins.size := Array.size_modify

/-- Counting in a bin changes the count of its key alone. -/
theorem get_addAt (w : Window) {position n : Nat} (h : position < w.bins.size) (key : Int) :
    (w.addAt position n).get key = w.get key + if key = w.offset + position then n else 0 := by
  unfold get addAt
  dsimp only
  by_cases hlt : key < w.offset
  · rw [if_pos hlt, if_pos hlt, if_neg (by omega)]
  · rw [if_neg hlt, if_neg hlt, Array.getD_eq_getD_getElem?, Array.getElem?_modify,
      Array.getD_eq_getD_getElem?]
    by_cases hk : key = w.offset + position
    · have hp : position = (key - w.offset).toNat := by omega
      rw [if_pos hp, if_pos hk, ← hp, Array.getElem?_eq_getElem h]
      rfl
    · rw [if_neg (by omega), if_neg hk, Nat.add_zero]

/-- Two kinds that make up a third without overlap are counted one by one. -/
theorem countP_or {α : Type} {p q r : α → Prop} [DecidablePred p] [DecidablePred q]
    [DecidablePred r] {xs : List α} (h : ∀ x ∈ xs, (r x ↔ p x ∨ q x) ∧ ¬ (p x ∧ q x)) :
    (xs.countP fun x => r x) = (xs.countP fun x => p x) + xs.countP fun x => q x := by
  induction xs with
  | nil => rfl
  | cons x xs ih =>
    obtain ⟨hr, hpq⟩ := h x List.mem_cons_self
    rw [List.countP_cons, List.countP_cons, List.countP_cons,
      ih fun y hy => h y (List.mem_cons_of_mem x hy)]
    simp only [decide_eq_true_eq]
    by_cases hp : p x
    · rw [if_pos (hr.mpr (.inl hp)), if_pos hp, if_neg fun hq => hpq ⟨hp, hq⟩]
      omega
    · by_cases hq : q x
      · rw [if_pos (hr.mpr (.inr hq)), if_neg hp, if_pos hq]
        omega
      · rw [if_neg fun hx => (hr.mp hx).elim hp hq, if_neg hp, if_neg hq]
        omega

theorem ite_countP {α : Type} (c : Prop) [Decidable c] (p : α → Prop) [DecidablePred p]
    (xs : List α) : (if c then xs.countP fun x => p x else 0) = xs.countP fun x => c ∧ p x := by
  split
  · rename_i h
    apply List.countP_congr
    intro x _
    rw [decide_eq_true_eq, decide_eq_true_eq, and_iff_right h]
  · rename_i h
    symm
    rw [List.countP_eq_zero]
    intro x _
    rw [decide_eq_true_eq]
    exact fun hx => h hx.1

/-- Kinds that the elements do not tell apart are counted the same. -/
theorem countP_iff {α : Type} {p q : α → Prop} [DecidablePred p] [DecidablePred q] {xs : List α}
    (h : ∀ x ∈ xs, p x ↔ q x) : (xs.countP fun x => p x) = xs.countP fun x => q x := by
  apply List.countP_congr
  intro x hx
  rw [decide_eq_true_eq, decide_eq_true_eq]
  exact h x hx

/-- The total of a range counts what falls into it. -/
theorem total_eq_countP {w : Window} {xs : List Int} {place : Int → Int}
    (h : ∀ key, w.get key = xs.countP fun x => place x = key) (first stop : Int) :
    w.total first stop = xs.countP fun x => first ≤ place x ∧ place x < stop := by
  have hsum : ∀ n : Nat, ((List.range n).map fun (i : Nat) => w.get (first + i)).sum =
      xs.countP fun x => first ≤ place x ∧ place x < first + n := by
    intro n
    induction n with
    | zero =>
      rw [List.countP_eq_zero.mpr fun x _ => by rw [decide_eq_true_eq]; omega]
      rfl
    | succ n ih =>
      rw [List.range_succ, List.map_append, List.sum_append, ih, List.map_singleton,
        List.sum_singleton, h]
      symm
      apply countP_or
      intro x _
      omega
  unfold total
  rw [hsum]
  apply countP_iff
  intro x _
  omega

/-- Counting for each of some neighbouring keys, all of which have bins. -/
theorem get_foldl_addAt (count : Int → Nat) (w : Window) (first : Int) (n : Nat)
    (h : ∀ i : Nat, i < n → w.Covers (first + i)) :
    let filled := ((List.range n).map fun (i : Nat) => first + i).foldl
      (fun v key => v.addAt (key - w.offset).toNat (count key)) w
    filled.offset = w.offset ∧ filled.bins.size = w.bins.size ∧
      ∀ key, filled.get key =
        w.get key + if first ≤ key ∧ key < first + n then count key else 0 := by
  induction n with
  | zero =>
    refine ⟨rfl, rfl, fun key => ?_⟩
    rw [if_neg (by omega)]
    rfl
  | succ n ih =>
    obtain ⟨hoffset, hsize, hget⟩ := ih fun i hi => h i (Nat.lt_succ_of_lt hi)
    obtain ⟨hlow, hhigh⟩ := h n (Nat.lt_succ_self n)
    dsimp only
    rw [List.range_succ, List.map_append, List.foldl_append, List.map_singleton, List.foldl_cons,
      List.foldl_nil]
    refine ⟨hoffset, (size_addAt ..).trans hsize, fun key => ?_⟩
    rw [get_addAt _ (by rw [hsize]; omega), hget, hoffset, Nat.add_assoc]
    congr 1
    by_cases hk : key = first + n
    · rw [if_neg (by omega), if_pos (by omega), if_pos (by omega), hk, Nat.zero_add]
    · rw [if_neg (show ¬ key = w.offset + ((first + n - w.offset).toNat : Int) by omega),
        Nat.add_zero]
      congr 1
      rw [eq_iff_iff]
      omega

end Window

end MetricCapture.Sketch
