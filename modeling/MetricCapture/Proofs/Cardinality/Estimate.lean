import MetricCapture.Proofs.Cardinality.Registers
import MetricCapture.Proofs.Number.Quotient
import Mathlib.Data.Finset.Card
/-! When registers have an estimate. A small one divides by the number of empty registers, and a large
one has no logarithm from the number of all hashes on. Neither happens while a register is empty that
some byte string could still choose, so as long as there are fewer byte strings than registers. -/
namespace MetricCapture.Registers

open MetricCapture.Number

def Chosen (precision : Nat) (items : List Bytes) (i : Nat) : Prop :=
  ∃ bs ∈ items, hash bs % 2 ^ precision = i

/-- Registers of which none is empty, while their ranks are so low that the empty ones have to tell the
estimate. -/
structure Crowded (precision : Nat) (items : List Bytes) (r : Registers) : Prop where
  small : r.isSmall = true
  chosen : ∀ i < 2 ^ precision, Chosen precision items i

def Exhausted (r : Registers) : Prop := ¬ r.raw < Float.ofNat 0x100000000

variable {precision : Nat} {r : Registers} {items : List Bytes}

theorem rank_bounds (precision hash : Nat) : 1 ≤ rank precision hash ∧ rank precision hash ≤ 33 := by
  unfold rank
  omega

theorem Represents.rank_le (h : r.Represents precision items) {i : Nat} (hi : i < r.ranks.size) :
    r.ranks[i] ≤ 33 :=
  (h.le_iff i hi 33).mpr fun bs _ _ => (rank_bounds precision (hash bs)).2

/-- A register is empty unless some byte string chooses it. -/
theorem Represents.rank_eq_zero_iff (h : r.Represents precision items) {i : Nat}
    (hi : i < r.ranks.size) : r.ranks[i] = 0 ↔ ¬ Chosen precision items i := by
  rw [← Nat.le_zero, h.le_iff i hi 0]
  constructor
  · rintro hle ⟨bs, hbs, hi⟩
    have hpos := (rank_bounds precision (hash bs)).1
    have hzero := hle bs hbs hi
    omega
  · exact fun hvacant bs hbs hi => absurd ⟨bs, hbs, hi⟩ hvacant

theorem Represents.count_zero_iff (h : r.Represents precision items) :
    r.ranks.count 0 = 0 ↔ ∀ i < 2 ^ precision, Chosen precision items i := by
  rw [Array.count_eq_zero, ← h.size]
  constructor
  · intro hnone i hi
    by_contra hvacant
    exact hnone (Array.mem_iff_getElem.mpr ⟨i, hi, (h.rank_eq_zero_iff hi).mpr hvacant⟩)
  · intro hall hmem
    obtain ⟨i, hi, hzero⟩ := Array.mem_iff_getElem.mp hmem
    exact (h.rank_eq_zero_iff hi).mp hzero (hall i hi)

/-- There is an estimate unless the registers are crowded or exhausted. -/
theorem Represents.estimate_eq_none_iff (h : r.Represents precision items) (hp : precision ≤ 16) :
    r.estimate = none ↔ Crowded precision items r ∨ Exhausted r := by
  have hbound : ∀ p < 17, 5.0 / 2.0 * Float.ofNat (2 ^ p) < Float.ofNat 0x100000000 := by
    decide +kernel
  have hlow : 1.0 / 30.0 * Float.ofNat 0x100000000 < Float.ofNat 0x100000000 := by
    decide +kernel
  unfold estimate
  dsimp only
  by_cases hsmall : r.isSmall = true
  · rw [if_pos hsmall]
    have hroom : ¬ Exhausted r := by
      refine not_not.mpr (lt_of_le (of_decide_eq_true hsmall) ?_)
      rw [h.precision_eq]
      exact hbound precision (by omega)
    rw [or_iff_left hroom]
    by_cases hempty : r.ranks.count 0 = 0
    · rw [if_pos hempty]
      exact iff_of_true rfl ⟨hsmall, h.count_zero_iff.mp hempty⟩
    · rw [if_neg hempty]
      exact iff_of_false nofun fun hc => hempty (h.count_zero_iff.mpr hc.chosen)
  · rw [if_neg hsmall, or_iff_right fun hc => hsmall hc.small]
    by_cases hle : r.raw ≤ 1.0 / 30.0 * Float.ofNat 0x100000000
    · rw [if_pos hle]
      exact iff_of_false nofun (not_not.mpr (lt_of_le hle hlow))
    · rw [if_neg hle]
      by_cases hlt : r.raw < Float.ofNat 0x100000000
      · rw [if_pos hlt]
        exact iff_of_false nofun (not_not.mpr hlt)
      · rw [if_neg hlt]
        exact iff_of_true rfl hlt

/-- The harmonic parts of some ranks add up to one or more if one of them is of an empty register. -/
theorem one_le_harmonic {ks : List Nat} (hks : ∀ k ∈ ks, k ≤ 33) {total : Float}
    (h : 1.0 ≤ total ∨ (0.0 ≤ total ∧ 0 ∈ ks)) :
    1.0 ≤ ks.foldl (fun total k => total + 1.0 / Float.ofNat (2 ^ k)) total := by
  have hparts : ∀ k < 34, magnitude (1.0 / Float.ofNat (2 ^ k)) < endless ∧
      0 ≤ value (1.0 / Float.ofNat (2 ^ k)) ∧
      (k = 0 → value 1.0 ≤ value (1.0 / Float.ofNat (2 ^ k))) := by
    decide +kernel
  have hzero : IsFinite 0.0 := by
    unfold IsFinite
    decide
  have hvalue : value 0.0 = 0 := by decide
  induction ks generalizing total with
  | nil =>
    rcases h with h | ⟨_, h⟩
    · exact h
    · exact absurd h List.not_mem_nil
  | cons k ks ih =>
    obtain ⟨hfin, hge, hone⟩ := hparts k (Nat.lt_succ_of_le (hks k List.mem_cons_self))
    rw [List.foldl_cons]
    refine ih (fun j hj => hks j (List.mem_cons_of_mem k hj)) ?_
    rcases h with h | ⟨h, hmem⟩
    · exact .inl (le_add finite_one finite_one hfin h (by omega))
    · rcases List.mem_cons.mp hmem with rfl | hmem
      · have hone := hone rfl
        exact .inl (le_add hzero finite_one hfin h (by omega))
      · exact .inr ⟨le_add hzero hzero hfin h (by omega), hmem⟩

/-- With an empty register the ranks never give an estimate of as many as there are hashes. -/
theorem Represents.not_exhausted (h : r.Represents precision items)
    (hp : 4 ≤ precision ∧ precision ≤ 16) {i : Nat} (hi : i < 2 ^ precision)
    (hvacant : ¬ Chosen precision items i) : ¬ Exhausted r := by
  have hscale : ∀ p < 17, 4 ≤ p →
      (0.0 < correction p * Float.ofNat (2 ^ p * 2 ^ p) ∧
        magnitude (correction p * Float.ofNat (2 ^ p * 2 ^ p)) < endless) ∧
      correction p * Float.ofNat (2 ^ p * 2 ^ p) < Float.ofNat 0x100000000 := by
    decide +kernel
  obtain ⟨⟨hpos, hfin⟩, hlt⟩ := hscale precision (by omega) hp.1
  rw [← h.size] at hi
  have hmem : 0 ∈ r.ranks.toList := by
    rw [← (h.rank_eq_zero_iff hi).mpr hvacant, Array.mem_toList_iff]
    exact Array.getElem_mem hi
  have hbound : ∀ k ∈ r.ranks.toList, k ≤ 33 := by
    intro k hk
    obtain ⟨j, hj, rfl⟩ := Array.mem_iff_getElem.mp (Array.mem_toList_iff.mp hk)
    exact h.rank_le hj
  have hsum := one_le_harmonic hbound (.inr ⟨show 0.0 ≤ 0.0 by decide, hmem⟩)
  rw [Array.foldl_toList] at hsum
  refine not_not.mpr ?_
  unfold raw
  dsimp only
  rw [h.precision_eq]
  exact lt_of_le (div_le hfin hpos hsum) hlt

/-- Fewer different byte strings than registers leave one of them empty. -/
theorem exists_not_chosen (h : items.toFinset.card < 2 ^ precision) :
    ∃ i < 2 ^ precision, ¬ Chosen precision items i := by
  by_contra hall
  push Not at hall
  have hsub : Finset.range (2 ^ precision) ⊆ items.toFinset.image fun bs => hash bs % 2 ^ precision := by
    intro i hi
    obtain ⟨bs, hbs, hchosen⟩ := hall i (Finset.mem_range.mp hi)
    exact Finset.mem_image.mpr ⟨bs, List.mem_toFinset.mpr hbs, hchosen⟩
  have hle := (Finset.card_le_card hsub).trans Finset.card_image_le
  rw [Finset.card_range] at hle
  omega

/-- Registers that have seen fewer different byte strings than they are themselves have an estimate. -/
theorem Represents.estimate_ne_none (h : r.Represents precision items)
    (hp : 4 ≤ precision ∧ precision ≤ 16) (hfew : items.toFinset.card < 2 ^ precision) :
    r.estimate ≠ none := by
  obtain ⟨i, hi, hvacant⟩ := exists_not_chosen hfew
  rw [Ne, h.estimate_eq_none_iff hp.2]
  rintro (hcrowded | hexhausted)
  · exact hvacant (hcrowded.chosen i hi)
  · exact h.not_exhausted hp hi hvacant hexhausted

end MetricCapture.Registers
