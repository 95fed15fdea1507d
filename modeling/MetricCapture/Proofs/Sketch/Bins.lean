import MetricCapture.Proofs.Sketch.Merge
/-! Bins: what they hold of the values of a sketch, key by key. -/
namespace MetricCapture.Sketch

open MetricCapture.Number

namespace Window

def sum (w : Window) : Nat :=
  w.bins.toList.sum

/-- The bins together are the total over the run of their keys. -/
theorem sum_eq_total (w : Window) : w.sum = w.total w.offset (w.offset + w.bins.size) := by
  have hget : ∀ i : Nat, w.get (w.offset + i) = w.bins.getD i 0 := by
    intro i
    unfold get
    rw [if_neg (by omega), show (w.offset + i - w.offset).toNat = i by omega]
  have hlen : (w.offset + w.bins.size - w.offset).toNat = w.bins.size := by omega
  unfold total sum
  rw [hlen]
  congr 1
  apply List.ext_getElem
  · simp
  · intro i hi _
    simp [hget] at hi ⊢
    simp [hi]

end Window

namespace Store

variable {limit : Nat} {s : Store} {keys : List Int} {r : KeyRange}

/-- The bins hold every key once. -/
theorem Holds.sum (h : s.Holds limit keys r) : s.window.sum = keys.length := by
  have hlow := h.low_le
  have hoff := h.offset_le
  have hhigh := h.high_lt
  rw [Window.sum_eq_total, Window.total_eq_countP h.get, List.countP_eq_length]
  intro x hx
  have hle := h.le_high x hx
  rw [decide_eq_true_eq]
  omega

end Store

/-- A value that is taken in is counted once: as positive, as negative or as zero. -/
theorem Mapping.Accepts.cases {m : Mapping} {x : Float} (h : m.Accepts x) :
    (∃ k, m.positiveKey? x = some k ∧ m.negativeKey? x = none ∧ m.isZero x = false) ∨
    (∃ k, m.positiveKey? x = none ∧ m.negativeKey? x = some k ∧ m.isZero x = false) ∨
    (m.positiveKey? x = none ∧ m.negativeKey? x = none ∧ m.isZero x = true) := by
  obtain ⟨_, h⟩ := h
  unfold Mapping.positiveKey? Mapping.negativeKey? Mapping.isZero at h ⊢
  by_cases hp : m.smallest < x
  · simpa [hp] using h
  · by_cases hn : x < -m.smallest
    · simpa [hp, hn] using h
    · simp [hp, hn]

theorem Mapping.length_keys {m : Mapping} {xs : List Float} (h : ∀ x ∈ xs, m.Accepts x) :
    (xs.filterMap m.positiveKey?).length + (xs.filterMap m.negativeKey?).length +
      xs.countP m.isZero = xs.length := by
  induction xs with
  | nil => rfl
  | cons x xs ih =>
    obtain ⟨hx, hxs⟩ := List.forall_mem_cons.mp h
    have hrest := ih hxs
    rcases hx.cases with ⟨k, hp, hn, hz⟩ | ⟨k, hp, hn, hz⟩ | ⟨hp, hn, hz⟩
    · simp [hp, hn, hz]
      omega
    · simp [hp, hn, hz]
      omega
    · simp [hp, hn, hz]
      omega

variable {accuracy : Float} {limit : Nat} {s : Sketch} {xs : List Float}

end MetricCapture.Sketch
