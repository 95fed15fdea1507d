import MetricCapture.Proofs.Number.First
import MetricCapture.Proofs.Sketch.Contents
import MetricCapture.Proofs.Sketch.Make
import MetricCapture.Proofs.Sketch.Mapping
/-! What a sketch keeps of the values it has taken in: the keys of either sign, the number of the
values and of those that count as zero, and the outermost ones. -/
namespace MetricCapture

open MetricCapture.Number MetricCapture.Sketch

namespace Sketch.Mapping

def positiveKey? (m : Mapping) (x : Float) : Option Int :=
  if m.smallest < x then (m.key x).toOption else none

def negativeKey? (m : Mapping) (x : Float) : Option Int :=
  if m.smallest < x then none
  else if x < -m.smallest then (m.key (-x)).toOption
  else none

def isZero (m : Mapping) (x : Float) : Bool :=
  !(decide (m.smallest < x)) && !(decide (x < -m.smallest))

/-- What a sketch takes in: finite values that have a key or are close to zero. -/
def Accepts (m : Mapping) (x : Float) : Prop :=
  isFinite x = true ∧
    (m.isZero x = true ∨ (∃ k, m.positiveKey? x = some k) ∨ ∃ k, m.negativeKey? x = some k)

end Sketch.Mapping

/-- What a sketch of some accuracy and number of bins is after it has taken in some values. -/
structure Sketch.Represents (accuracy : Float) (limit : Nat) (xs : List Float) (s : Sketch) :
    Prop where
  accuracy_eq : s.accuracy = accuracy
  mapping_eq : s.mapping = Mapping.ofAccuracy accuracy
  accepts : ∀ x ∈ xs, (Mapping.ofAccuracy accuracy).Accepts x
  positive : s.positive.Represents limit (xs.filterMap (Mapping.ofAccuracy accuracy).positiveKey?)
  negative : s.negative.Represents limit (xs.filterMap (Mapping.ofAccuracy accuracy).negativeKey?)
  zeros : s.zeros = xs.countP (Mapping.ofAccuracy accuracy).isZero
  count : s.count = xs.length
  least : IsFirst (· < ·) (1.0 / 0.0) xs s.least
  greatest : IsFirst (fun a b => b < a) (-1.0 / 0.0) xs s.greatest

namespace Sketch

variable {accuracy : Float} {limit : Nat} {s t : Sketch} {xs ys : List Float}

theorem Represents.finite (h : s.Represents accuracy limit xs) : ∀ x ∈ xs, IsFinite x :=
  fun x hx => (isFinite_iff x).mp (h.accepts x hx).1

theorem represents_empty (accuracy : Float) (limit : Nat) :
    (empty accuracy limit).Represents accuracy limit [] := by
  refine ⟨rfl, rfl, ?_, ?_, ?_, rfl, rfl, .inl ⟨rfl, rfl⟩, .inl ⟨rfl, rfl⟩⟩
  · exact fun x hx => absurd hx List.not_mem_nil
  · exact Store.represents_fresh limit
  · exact Store.represents_fresh limit

/-- A sketch that could be made has settings that make sense, and no values. -/
theorem represents_of_create {binLimit : Int} (h : create accuracy binLimit = .ok s) :
    (0.0 < accuracy ∧ accuracy < 1.0) ∧ 0 < binLimit.toNat ∧
      s.Represents accuracy binLimit.toNat [] := by
  obtain ⟨ha, hl, rfl⟩ := create_eq_ok_iff.mp h
  exact ⟨ha, by omega, represents_empty accuracy binLimit.toNat⟩

theorem Represents.perm (h : s.Represents accuracy limit xs) (hp : xs.Perm ys) :
    s.Represents accuracy limit ys := by
  obtain ⟨hacc, hmap, haccepts, hpos, hneg, hzero, hcount, hleast, hgreatest⟩ := h
  refine ⟨hacc, hmap, ?_, ?_, ?_, ?_, ?_, hleast.perm hp, hgreatest.perm hp⟩
  · exact fun x hx => haccepts x (hp.mem_iff.mpr hx)
  · exact hpos.perm (hp.filterMap _)
  · exact hneg.perm (hp.filterMap _)
  · rw [hzero, hp.countP_eq]
  · rw [hcount, hp.length_eq]

/-- A value is counted with one sign or as zero, or it has no key. -/
theorem place_cases (s : Sketch) (x : Float) :
    (∃ k, s.mapping.positiveKey? x = some k ∧ s.mapping.negativeKey? x = none ∧
      s.mapping.isZero x = false ∧ s.place x = .ok { s with positive := s.positive.add k }) ∨
    (∃ k, s.mapping.positiveKey? x = none ∧ s.mapping.negativeKey? x = some k ∧
      s.mapping.isZero x = false ∧ s.place x = .ok { s with negative := s.negative.add k }) ∨
    (s.mapping.positiveKey? x = none ∧ s.mapping.negativeKey? x = none ∧
      s.mapping.isZero x = true ∧ s.place x = .ok { s with zeros := s.zeros + 1 }) ∨
    (s.mapping.positiveKey? x = none ∧ s.mapping.negativeKey? x = none ∧
      s.mapping.isZero x = false ∧ ∃ e, s.place x = .error e) := by
  unfold Mapping.positiveKey? Mapping.negativeKey? Mapping.isZero place
  by_cases hp : s.mapping.smallest < x
  · rw [if_pos hp, if_pos hp, if_pos hp, decide_eq_true hp]
    cases s.mapping.key x with
    | ok k => exact .inl ⟨k, rfl, rfl, rfl, rfl⟩
    | error e => exact .inr (.inr (.inr ⟨rfl, rfl, rfl, e, rfl⟩))
  · rw [if_neg hp, if_neg hp, if_neg hp, decide_eq_false hp]
    by_cases hn : x < -s.mapping.smallest
    · rw [if_pos hn, if_pos hn, decide_eq_true hn]
      cases s.mapping.key (-x) with
      | ok k => exact .inr (.inl ⟨k, rfl, rfl, rfl, rfl⟩)
      | error e => exact .inr (.inr (.inr ⟨rfl, rfl, rfl, e, rfl⟩))
    · rw [if_neg hn, if_neg hn, decide_eq_false hn]
      exact .inr (.inr (.inl ⟨rfl, rfl, rfl, rfl⟩))

structure Both (P : Store → Prop) (s : Sketch) : Prop where
  positive : P s.positive
  negative : P s.negative

section

variable {P : Store → Prop}

/-- What a store keeps when a key is added, both stores keep when a value is. -/
theorem Both.add (hadd : ∀ (u : Store) (key : Int), P u → P (u.add key)) (h : s.Both P) {x : Float}
    (hok : s.add x = .ok t) : t.Both P := by
  unfold Sketch.add at hok
  split at hok
  · cases hok
  obtain ⟨placed, hplaced, hok⟩ := bind_eq_ok_iff.mp hok
  cases hok
  rcases place_cases s x with ⟨k, _, _, _, he⟩ | ⟨k, _, _, _, he⟩ | ⟨_, _, _, he⟩ | ⟨_, _, _, e, he⟩
  · cases he.symm.trans hplaced
    exact ⟨hadd _ k h.positive, h.negative⟩
  · cases he.symm.trans hplaced
    exact ⟨h.positive, hadd _ k h.negative⟩
  · cases he.symm.trans hplaced
    exact ⟨h.positive, h.negative⟩
  · cases he.symm.trans hplaced

/-- What a store keeps in a merge with another such store, both stores keep in a merge. -/
theorem Both.merge (hmerge : ∀ u v : Store, P u → P v → P (u.merge v)) (h : s.Both P)
    (h' : t.Both P) {m : Sketch} (hok : s.merge t = .ok m) : m.Both P := by
  have hbins : (s.mergeBins t).Both P := by
    unfold Sketch.mergeBins
    split
    · exact ⟨h'.positive, h'.negative⟩
    · exact ⟨hmerge _ _ h.positive h'.positive, hmerge _ _ h.negative h'.negative⟩
  unfold Sketch.merge at hok
  split at hok
  · cases hok
  split at hok
  · cases hok
    exact h
  split at hok
  · cases hok
  · cases hok
    exact ⟨hbins.positive, hbins.negative⟩

end

/-- A value is taken in exactly if it is accepted. -/
theorem exists_add_iff (s : Sketch) (x : Float) :
    (∃ t, s.add x = .ok t) ↔ s.mapping.Accepts x := by
  unfold Sketch.add Mapping.Accepts
  by_cases hfin : isFinite x = true
  · rw [hfin]
    rcases place_cases s x with ⟨k, hp, hn, hz, he⟩ | ⟨k, hp, hn, hz, he⟩ | ⟨hp, hn, hz, he⟩ |
      ⟨hp, hn, hz, e, he⟩
    all_goals rw [he, hp, hn, hz]
    · exact iff_of_true ⟨_, rfl⟩ ⟨rfl, .inr (.inl ⟨k, rfl⟩)⟩
    · exact iff_of_true ⟨_, rfl⟩ ⟨rfl, .inr (.inr ⟨k, rfl⟩)⟩
    · exact iff_of_true ⟨_, rfl⟩ ⟨rfl, .inl rfl⟩
    · refine iff_of_false (fun ⟨t, ht⟩ => nomatch ht) ?_
      rintro ⟨_, h | ⟨k, h⟩ | ⟨k, h⟩⟩ <;> cases h
  · refine iff_of_false ?_ fun h => hfin h.1
    rw [Bool.not_eq_true] at hfin
    rw [hfin]
    exact fun ⟨t, ht⟩ => nomatch ht

/-- What a sketch is once it has taken in one value more, of which the stores know already. -/
private theorem Represents.update (h : s.Represents accuracy limit xs) {x : Float}
    (hx : s.mapping.Accepts x)
    {p n : Store} {z : Nat}
    (hp : p.Represents limit ((x :: xs).filterMap s.mapping.positiveKey?))
    (hn : n.Represents limit ((x :: xs).filterMap s.mapping.negativeKey?))
    (hz : z = (x :: xs).countP s.mapping.isZero) :
    Represents accuracy limit (x :: xs)
      { s with
        positive := p, negative := n, zeros := z
        count := s.count + 1
        sum := s.sum + x
        least := if x < s.least then x else s.least
        greatest := if s.greatest < x then x else s.greatest } := by
  have hfin := h.finite
  obtain ⟨hacc, hmap, haccepts, _, _, _, hcount, hleast, hgreatest⟩ := h
  have hone : ∀ y ∈ [x], IsFinite y := by
    intro y hy
    rw [List.mem_singleton.mp hy]
    exact (isFinite_iff x).mp hx.1
  have hperm : (xs ++ [x]).Perm (x :: xs) := List.perm_append_singleton x xs
  rw [hmap] at hx hp hn hz
  refine ⟨hacc, hmap, ?_, hp, hn, hz, ?_, ?_, ?_⟩
  · intro y hy
    rcases List.mem_cons.mp hy with rfl | hy
    · exact hx
    · exact haccepts y hy
  · rw [hcount, List.length_cons]
  · exact (hleast.append upward hfin hone (.singleton upward x)).perm hperm
  · exact (hgreatest.append downward hfin hone (.singleton downward x)).perm hperm

/-- A sketch that has taken in one value more represents it too. -/
private theorem Represents.of_add (hl : 0 < limit) (h : s.Represents accuracy limit xs) {x : Float}
    (hok : s.add x = .ok t) : t.Represents accuracy limit (x :: xs) := by
  have hx : s.mapping.Accepts x := (exists_add_iff s x).mp ⟨t, hok⟩
  have hpos := h.positive
  have hneg := h.negative
  have hzero := h.zeros
  rw [← h.mapping_eq] at hpos hneg hzero
  unfold Sketch.add at hok
  split at hok
  · cases hok
  obtain ⟨placed, hplaced, hok⟩ := bind_eq_ok_iff.mp hok
  cases hok
  rcases place_cases s x with ⟨k, hp, hn, hz, he⟩ | ⟨k, hp, hn, hz, he⟩ | ⟨hp, hn, hz, he⟩ |
    ⟨_, _, _, e, he⟩
  · cases he.symm.trans hplaced
    refine h.update hx ?_ ?_ ?_
    · rw [List.filterMap_cons_some hp]
      exact hpos.add hl k
    · rw [List.filterMap_cons_none hn]
      exact hneg
    · rw [List.countP_cons_of_neg (by rw [hz]; decide)]
      exact hzero
  · cases he.symm.trans hplaced
    refine h.update hx ?_ ?_ ?_
    · rw [List.filterMap_cons_none hp]
      exact hpos
    · rw [List.filterMap_cons_some hn]
      exact hneg.add hl k
    · rw [List.countP_cons_of_neg (by rw [hz]; decide)]
      exact hzero
  · cases he.symm.trans hplaced
    refine h.update hx ?_ ?_ ?_
    · rw [List.filterMap_cons_none hp]
      exact hpos
    · rw [List.filterMap_cons_none hn]
      exact hneg
    · rw [List.countP_cons_of_pos hz, hzero]
  · cases he.symm.trans hplaced

/-- A sketch takes in what it accepts, and nothing else. -/
theorem Represents.add (hl : 0 < limit) (h : s.Represents accuracy limit xs) (x : Float) :
    ((Mapping.ofAccuracy accuracy).Accepts x ∧
      ∃ s', s.add x = .ok s' ∧ s'.Represents accuracy limit (x :: xs)) ∨
    (¬ (Mapping.ofAccuracy accuracy).Accepts x ∧ ∃ e, s.add x = .error e) := by
  rw [← h.mapping_eq, ← exists_add_iff]
  cases hadd : s.add x with
  | ok t => exact .inl ⟨⟨t, rfl⟩, t, rfl, h.of_add hl hadd⟩
  | error e => exact .inr ⟨(fun ⟨_, ht⟩ => nomatch ht), e, rfl⟩

end Sketch

end MetricCapture
