import MetricCapture.Cardinality.Registers
import MetricCapture.Proofs.Bytes.LittleEndian
/-! Registers depend on the set of byte strings that they have seen: not on the order, on how often
each was seen, or on which registers saw it first. -/
namespace MetricCapture.Registers

/-- What registers are after they have seen some byte strings: each holds the highest of the ranks
that fall to it. -/
structure Represents (precision : Nat) (items : List Bytes) (r : Registers) : Prop where
  precision_eq : r.precision = precision
  size : r.ranks.size = 2 ^ precision
  le_iff : ∀ (i : Nat) (h : i < r.ranks.size) (n : Nat), r.ranks[i] ≤ n ↔
    ∀ bs ∈ items, hash bs % 2 ^ precision = i → rank precision (hash bs) ≤ n

variable {precision : Nat} {r r' : Registers} {items items' : List Bytes}

theorem represents_create (precision : Nat) : (create precision).Represents precision [] := by
  refine ⟨rfl, Array.size_replicate, fun i h n => ?_⟩
  have hzero : (create precision).ranks[i] = 0 := Array.getElem_replicate h
  rw [hzero]
  exact ⟨fun _ bs hbs => absurd hbs List.not_mem_nil, fun _ => Nat.zero_le n⟩

theorem Represents.observe (h : r.Represents precision items) (bs : Bytes) :
    (r.observe bs).Represents precision (bs :: items) := by
  obtain ⟨hp, hsize, hle⟩ := h
  have hranks : (r.observe bs).ranks =
      r.ranks.modify (hash bs % 2 ^ precision) (max · (rank precision (hash bs))) := by
    unfold Registers.observe
    rw [hp]
  refine ⟨hp, ?_, fun i hi n => ?_⟩
  · rw [hranks, Array.size_modify, hsize]
  · have hi' : i < r.ranks.size := by
      rw [hranks, Array.size_modify] at hi
      exact hi
    have hget : (r.observe bs).ranks[i] =
        if hash bs % 2 ^ precision = i then max r.ranks[i] (rank precision (hash bs))
        else r.ranks[i] := by
      simp only [hranks]
      exact Array.getElem_modify _
    rw [hget, List.forall_mem_cons]
    by_cases hindex : hash bs % 2 ^ precision = i
    · rw [if_pos hindex, Nat.max_le, hle i hi', and_comm]
      exact and_congr_left fun _ => ⟨fun hn _ => hn, fun hn => hn hindex⟩
    · rw [if_neg hindex, hle i hi']
      exact (and_iff_right fun he => absurd he hindex).symm

theorem Represents.foldl_observe (h : r.Represents precision items) (seen : List Bytes) :
    (seen.foldl Registers.observe r).Represents precision (seen.reverse ++ items) := by
  induction seen generalizing r items with
  | nil => exact h
  | cons bs seen ih =>
    rw [List.foldl_cons, List.reverse_cons, List.append_assoc]
    exact ih (h.observe bs)

/-- Registers of one precision are merged into those of all byte strings. -/
theorem Represents.merge (h : r.Represents precision items) (h' : r'.Represents precision items') :
    ∃ m, r.merge r' = some m ∧ m.Represents precision (items ++ items') := by
  obtain ⟨hp, hsize, hle⟩ := h
  obtain ⟨hp', hsize', hle'⟩ := h'
  refine ⟨{ r with ranks := r.ranks.zipWith max r'.ranks }, if_pos (hp.trans hp'.symm), hp, ?_,
    fun i hi n => ?_⟩
  · rw [Array.size_zipWith, hsize, hsize', Nat.min_self]
  · have hi' : i < r.ranks.size ∧ i < r'.ranks.size := by
      rw [Array.size_zipWith] at hi
      omega
    rw [Array.getElem_zipWith, Nat.max_le, hle i hi'.1, hle' i hi'.2, List.forall_mem_append]

theorem Represents.congr (h : r.Represents precision items)
    (hmem : ∀ bs, bs ∈ items ↔ bs ∈ items') : r.Represents precision items' := by
  obtain ⟨hp, hsize, hle⟩ := h
  refine ⟨hp, hsize, fun i hi n => ?_⟩
  rw [hle i hi]
  exact forall_congr' fun bs => by rw [hmem bs]

theorem Represents.append_nil (h : r.Represents precision items) : r.Represents precision (items ++ []) := by
  rwa [List.append_nil]

theorem Represents.observe_append (h : r.Represents precision items) (bs : Bytes) :
    (r.observe bs).Represents precision (items ++ [bs]) := by
  refine (h.observe bs).congr fun x => ?_
  rw [List.mem_append, List.mem_singleton, List.mem_cons, or_comm]

theorem Represents.foldl_append {α : Type} (h : r.Represents precision items) (f : α → Bytes)
    (seen : List α) :
    (seen.foldl (fun r a => r.observe (f a)) r).Represents precision (items ++ seen.map f) := by
  have hseen := h.foldl_observe (seen.map f)
  rw [List.foldl_map] at hseen
  refine hseen.congr fun bs => ?_
  rw [List.mem_append, List.mem_append, List.mem_reverse, or_comm]

/-- Registers of the same byte strings are the same. -/
theorem Represents.eq (h : r.Represents precision items) (h' : r'.Represents precision items) :
    r = r' := by
  obtain ⟨p, ranks⟩ := r
  obtain ⟨p', ranks'⟩ := r'
  obtain ⟨hp, hsize, hle⟩ := h
  obtain ⟨hp', hsize', hle'⟩ := h'
  dsimp only at hp hp' hsize hsize'
  rw [hp, hp']
  congr 1
  apply Array.ext (hsize.trans hsize'.symm)
  intro i hi hi'
  have hiff : ∀ n, ranks[i] ≤ n ↔ ranks'[i] ≤ n := fun n => (hle i hi n).trans (hle' i hi' n).symm
  exact Nat.le_antisymm ((hiff _).mpr (Nat.le_refl _)) ((hiff _).mp (Nat.le_refl _))

/-- A byte string chooses a register, and the other bits of its hash leave it a rank above zero. -/
structure HasRoom (bs : Bytes) (r : Registers) : Prop where
  index : hash bs % 2 ^ r.precision < r.ranks.size
  bits : bitLength (hash bs / 2 ^ r.precision) ≤ 32 - r.precision

theorem hash_lt (bs : Bytes) : hash bs < 2 ^ (32 : Nat) := by
  have hlength : ((Sha1.digest bs).take 4).length ≤ 4 := List.length_take_le _ _
  exact Nat.lt_of_lt_of_le (Bytes.ofLittle_lt rfl) (Nat.pow_le_pow_right (by decide) hlength)

theorem Represents.hasRoom (h : r.Represents precision items) (hp : precision ≤ 32) (bs : Bytes) :
    r.HasRoom bs := by
  rw [← h.precision_eq] at hp
  refine ⟨?_, ?_⟩
  · rw [h.size, ← h.precision_eq]
    exact Nat.mod_lt _ (Nat.two_pow_pos _)
  · have hlt : hash bs / 2 ^ r.precision < 2 ^ (32 - r.precision) := by
      rw [Nat.div_lt_iff_lt_mul (Nat.two_pow_pos _), ← Nat.pow_add, Nat.sub_add_cancel hp]
      exact hash_lt bs
    unfold bitLength
    split
    · exact Nat.zero_le _
    · rename_i hne
      exact (Nat.log2_lt hne).mpr hlt

end MetricCapture.Registers
