import MetricCapture.Proofs.Number.Whole
import MetricCapture.Proofs.Sketch.Make
/-! The count and the sum of a sketch: whatever becomes of its bins, it counts every sample that it takes
in, and a sum of whole numbers is exact as long as a double can hold it. -/
namespace MetricCapture.Sketch

open MetricCapture.Number

/-- A double that is the sum of some samples, if they are whole numbers and a double can hold their sum. -/
def SumsTo (xs : List Float) (x : Float) : Prop :=
  ∀ ns : List Nat, xs = ns.map Float.ofNat → ns.sum ≤ 2 ^ (53 : Nat) → IsWhole x ns.sum

theorem sumsTo_nil : SumsTo [] 0.0 := by
  intro ns hns _
  obtain rfl := List.map_eq_nil_iff.mp hns.symm
  exact isWhole_zero

theorem sumsTo_singleton (x : Float) : SumsTo [x] x := by
  intro ns hns hsum
  obtain ⟨n, rfl, rfl⟩ := List.map_eq_singleton_iff.mp hns.symm
  rw [List.sum_singleton] at hsum ⊢
  exact isWhole_ofNat hsum

theorem SumsTo.append {xs ys : List Float} {x y : Float} (hx : SumsTo xs x) (hy : SumsTo ys y) :
    SumsTo (xs ++ ys) (x + y) := by
  intro ns hns hsum
  obtain ⟨ms, ks, rfl, rfl, rfl⟩ := List.map_eq_append_iff.mp hns.symm
  rw [List.sum_append] at hsum ⊢
  exact (hx ms rfl (by omega)).add (hy ks rfl (by omega)) hsum

structure Counts (xs : List Float) (s : Sketch) : Prop where
  count : s.count = xs.length
  sum : SumsTo xs s.sum

variable {xs ys : List Float} {s t : Sketch}

/-- Finding the bin of a value changes neither the count nor the sum. -/
theorem place_keeps {x : Float} (h : s.place x = .ok t) : t.count = s.count ∧ t.sum = s.sum := by
  unfold place at h
  split at h
  · obtain ⟨key, _, h⟩ := bind_eq_ok_iff.mp h
    cases h
    exact ⟨rfl, rfl⟩
  · split at h
    · obtain ⟨key, _, h⟩ := bind_eq_ok_iff.mp h
      cases h
      exact ⟨rfl, rfl⟩
    · cases h
      exact ⟨rfl, rfl⟩

theorem Counts.add (h : s.Counts xs) {x : Float} (hok : s.add x = .ok t) : t.Counts (xs ++ [x]) := by
  unfold Sketch.add at hok
  split at hok
  · cases hok
  · obtain ⟨placed, hplaced, hok⟩ := bind_eq_ok_iff.mp hok
    obtain ⟨hcount, hsum⟩ := place_keeps hplaced
    cases hok
    refine ⟨?_, ?_⟩
    · rw [List.length_append, ← h.count, ← hcount]
      rfl
    · dsimp only
      rw [hsum]
      exact h.sum.append (sumsTo_singleton x)

theorem Counts.merge (h : s.Counts xs) (h' : t.Counts ys) {m : Sketch} (hok : s.merge t = .ok m) :
    m.Counts (xs ++ ys) := by
  unfold Sketch.merge at hok
  split at hok
  · cases hok
  split at hok
  · rename_i hnone
    cases hok
    rw [h'.count] at hnone
    rw [List.length_eq_zero_iff.mp hnone, List.append_nil]
    exact h
  split at hok
  · cases hok
  · cases hok
    refine ⟨?_, h.sum.append h'.sum⟩
    rw [List.length_append, ← h.count, ← h'.count]

end MetricCapture.Sketch
