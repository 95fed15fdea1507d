import MetricCapture.Proofs.Sketch.Make
import MetricCapture.Proofs.Sketch.Run
/-! Room: how many bins a sketch keeps. A store never has more than its own limit, but a sketch without
values takes over the stores of another one with their limits. So a sketch has at most as many bins as
some sketch that has got into it, and no more than its own limit if none of these has a higher one. -/
namespace MetricCapture.Sketch

open MetricCapture.Number

namespace Store

structure Within (limits : List Nat) (s : Store) : Prop where
  size_le : s.window.bins.size ≤ s.binLimit
  mem : s.binLimit ∈ limits

variable {limits others : List Nat} {s t : Store}

theorem Within.mono (h : s.Within limits) (hsub : limits ⊆ others) : s.Within others :=
  ⟨h.size_le, hsub h.mem⟩

theorem within_fresh (limit : Nat) : ({ binLimit := limit } : Store).Within [limit] :=
  ⟨Nat.zero_le _, List.mem_singleton_self _⟩

theorem size_adjust (s : Store) (length : Nat) (r : KeyRange) :
    (s.adjust length r).window.bins.size = length := by
  unfold adjust
  split
  · exact size_collapse ..
  · exact Window.size_move ..

theorem binLimit_adjust (s : Store) (length : Nat) (r : KeyRange) :
    (s.adjust length r).binLimit = s.binLimit := by
  unfold adjust
  split <;> rfl

/-- Bins that are moved are as many as they are told to be. -/
theorem Within.adjust (h : s.Within limits) {length : Nat} (hl : length ≤ s.binLimit) (r : KeyRange) :
    (s.adjust length r).Within limits := by
  refine ⟨?_, ?_⟩
  · rw [size_adjust, binLimit_adjust]
    exact hl
  · rw [binLimit_adjust]
    exact h.mem

theorem Within.widen (h : s.Within limits) (first second : Int) :
    (s.widen first second).Within limits := by
  have hlength : ∀ r, max s.window.bins.size (s.lengthFor r) ≤ s.binLimit := fun r =>
    Nat.max_le.mpr ⟨h.size_le, Nat.min_le_right _ _⟩
  unfold Store.widen
  exact iteInduction (fun _ => ⟨h.size_le, h.mem⟩) fun _ => h.adjust (hlength _) _

theorem Within.add (h : s.Within limits) (key : Int) : (s.add key).Within limits := by
  unfold Store.add
  dsimp only
  split
  · obtain ⟨hsize, hmem⟩ := h.widen key key
    exact ⟨by simpa using hsize, hmem⟩
  · exact ⟨by simpa using h.size_le, h.mem⟩

theorem Within.widenFor (h : s.Within limits) (r : KeyRange) : (s.widenFor r).Within limits := by
  unfold Store.widenFor
  split
  · exact h.widen r.low r.high
  · exact h

/-- Counting for some keys makes no bins. -/
theorem size_foldl_addAt (position : Int → Nat) (count : Int → Nat) (keys : List Int) (w : Window) :
    (keys.foldl (fun w key => w.addAt (position key) (count key)) w).bins.size = w.bins.size := by
  induction keys generalizing w with
  | nil => rfl
  | cons key keys ih => rw [List.foldl_cons, ih, Window.size_addAt]

/-- A merge keeps the limit of the store or takes over that of the other one. -/
theorem Within.merge (h : s.Within limits) (h' : t.Within limits) : (s.merge t).Within limits := by
  unfold Store.merge
  split
  · exact h
  · rename_i r _
    split
    · exact h'
    · obtain ⟨hsize, hmem⟩ := h.widenFor r
      exact ⟨by simpa [size_foldl_addAt] using hsize, hmem⟩

end Store

structure Within (limits : List Nat) (s : Sketch) : Prop where
  positive : s.positive.Within limits
  negative : s.negative.Within limits

variable {limits others : List Nat} {s t : Sketch}

theorem within_iff_both : s.Within limits ↔ s.Both (Store.Within limits) :=
  ⟨fun h => ⟨h.positive, h.negative⟩, fun h => ⟨h.positive, h.negative⟩⟩

theorem Within.add (h : s.Within limits) {x : Float} (hok : s.add x = .ok t) : t.Within limits :=
  within_iff_both.mpr ((within_iff_both.mp h).add (fun _ key hu => hu.add key) hok)

theorem Within.extend (h : s.Within limits) (xs : List Float) : (s.extend xs).value.Within limits := by
  unfold Sketch.extend
  induction xs generalizing s with
  | nil => exact h
  | cons x xs ih =>
    rw [Outcome.each_cons]
    cases he : s.add x with
    | ok t => exact ih (h.add he)
    | error e => exact h

theorem Within.mono (h : s.Within limits) (hsub : limits ⊆ others) : s.Within others :=
  ⟨h.positive.mono hsub, h.negative.mono hsub⟩

theorem Within.merge (h : s.Within limits) (h' : t.Within limits) {m : Sketch}
    (hok : s.merge t = .ok m) : m.Within limits :=
  within_iff_both.mpr
    ((within_iff_both.mp h).merge (fun _ _ hu hv => hu.merge hv) (within_iff_both.mp h') hok)

variable {ι : Type} [DecidableEq ι] {fresh : ι → Sketch} {moves : List (Move ι)}

def blend (sources : ι → List ι) : Move ι → ι → List ι
  | .add _ _ => sources
  | .extend _ _ => sources
  | .merge i j => Function.update sources i (sources i ++ sources j)
  | .copy i j => Function.update sources i (sources j)

/-- The sketches that may have got into each one: the sketch itself, and those merged into it or copied to
it, as they are or with what has got into them. -/
def sources (moves : List (Move ι)) : ι → List ι :=
  moves.foldl blend fun i => [i]

theorem sources_append (moves : List (Move ι)) (m : Move ι) :
    sources (moves ++ [m]) = blend (sources moves) m := by
  simp [sources]

def limitsOf (fresh : ι → Sketch) (is : List ι) : List Nat :=
  is.map fun i => (fresh i).binLimit

theorem within_update {sketches : ι → Sketch} {held : ι → List ι}
    (h : ∀ i, (sketches i).Within (limitsOf fresh (held i))) (i : ι) {is : List ι}
    (hs : s.Within (limitsOf fresh is)) (j : ι) :
    (Function.update sketches i s j).Within (limitsOf fresh (Function.update held i is j)) := by
  by_cases hj : j = i
  · subst hj
    simpa using hs
  · simpa [hj] using h j

/-- A move leaves in each sketch no more bins than there may be. -/
theorem within_move {sketches : ι → Sketch} {held : ι → List ι}
    (h : ∀ i, (sketches i).Within (limitsOf fresh (held i))) (m : Move ι) (i : ι) :
    ((move sketches m).value i).Within (limitsOf fresh (blend held m i)) := by
  cases m with
  | add j x =>
    have hmore := within_update h j ((h j).extend [x]) i
    rw [Function.update_eq_self] at hmore
    exact hmore
  | extend j xs =>
    have hmore := within_update h j ((h j).extend xs) i
    rw [Function.update_eq_self] at hmore
    exact hmore
  | merge j k =>
    have hj : (sketches j).Within (limitsOf fresh (held j ++ held k)) :=
      (h j).mono (by simp [limitsOf])
    have hk : (sketches k).Within (limitsOf fresh (held j ++ held k)) :=
      (h k).mono (by simp [limitsOf])
    exact within_update h j (Outcome.ofExcept_induction hj fun m hm => hj.merge hk hm) i
  | copy j k => exact within_update h j (h k) i

/-- Whatever is done to sketches, no store has more bins than the limit of a sketch that has got into its
sketch. -/
theorem within_run (hfresh : ∀ i, (fresh i).Within [(fresh i).binLimit]) (moves : List (Move ι)) (i : ι) :
    (run fresh moves i).Within (limitsOf fresh (sources moves i)) := by
  induction moves using List.reverseRecOn generalizing i with
  | nil => exact hfresh i
  | append_singleton moves m ih =>
    rw [run_append, sources_append]
    exact within_move ih m i

theorem within_create {accuracy : Float} {binLimit : Int} (h : create accuracy binLimit = .ok s) :
    s.Within [s.binLimit] := by
  obtain ⟨_, _, rfl⟩ := create_eq_ok_iff.mp h
  exact ⟨Store.within_fresh _, Store.within_fresh _⟩

/-- The first key of a store has a chunk of bins, or as many as the limit allows. -/
theorem Store.size_add_fresh (limit : Nat) (key : Int) :
    (({ binLimit := limit } : Store).add key).window.bins.size = min 128 limit := by
  have hadd : (({ binLimit := limit } : Store).add key).window.bins.size =
      (({ binLimit := limit } : Store).widen key key).window.bins.size := Window.size_addAt ..
  have hone : (KeyRange.around key key none).width = 1 := by
    simp [KeyRange.around, KeyRange.width]
  rw [hadd]
  unfold Store.widen
  rw [if_neg Bool.false_ne_true, size_adjust, lengthFor, hone]
  exact Nat.max_eq_right (Nat.zero_le _)

/-- A value with a positive key is counted in the positive store. -/
theorem exists_add_positive {x : Float} {key : Int} (hx : isFinite x = true)
    (hkey : s.mapping.positiveKey? x = some key) :
    ∃ t, s.add x = .ok t ∧ t.positive = s.positive.add key := by
  unfold Sketch.add
  rcases place_cases s x with ⟨k, hk, _, _, he⟩ | ⟨k, hk, _⟩ | ⟨hk, _⟩ | ⟨hk, _⟩
  · cases hk.symm.trans hkey
    rw [hx, he]
    exact ⟨_, rfl, rfl⟩
  · cases hk.symm.trans hkey
  · cases hk.symm.trans hkey
  · cases hk.symm.trans hkey

/-- A sketch without values takes over a store with all its bins, however few it may have itself. -/
theorem size_takenOver {accuracy : Float} {limit limit' : Nat} {x : Float} {key : Int}
    (ha : 0.0 < accuracy ∧ accuracy < 1.0) (hl : 0 < limit')
    (hs : s.Represents accuracy limit []) (ht : t.Represents accuracy limit' [])
    (hx : isFinite x = true) (hkey : (Mapping.ofAccuracy accuracy).positiveKey? x = some key) :
    ∃ m, s.merge (t.extend [x]).value = .ok m ∧ m.make = s.make ∧
      m.positive.window.bins.size = min 128 limit' := by
  have hstore : t.positive = { binLimit := limit' } := by
    rcases ht.positive with ⟨_, he⟩ | ⟨r, hspan, _⟩
    · exact he
    · exact absurd hspan.high_mem List.not_mem_nil
  obtain ⟨u, hu, hpos⟩ := exists_add_positive (s := t) hx (by rw [ht.mapping_eq]; exact hkey)
  have hext : t.extend [x] = ⟨u, none⟩ := by
    change Outcome.ofExcept t (t.add x) = _
    rw [hu]
    rfl
  have hrep := ht.extend hl [x]
  have htaken : t.taken [x] = [x] := by
    simp [taken, hu]
  rw [hext, htaken] at hrep
  have hmerge := hs.merge_eq ha hrep
  rw [if_neg (by simp)] at hmerge
  rw [hext]
  refine ⟨_, hmerge, make_merge hmerge, ?_⟩
  unfold Sketch.mergeBins
  rw [if_pos (hs.count_eq_zero.mpr rfl)]
  simp [hpos, hstore, Store.size_add_fresh]

/-- Begin with sketches of any accuracies and limits, and let values be added to them, and let them be
merged and copied, in any order. No store has more bins than the limit of some sketch that has got into its
sketch. So a sketch has at most as many bins for each sign as its own limit if none of the others has a
higher one. But if one has, its bins are taken over: even a single value may bring more than allowed. -/
theorem size_run_le (fresh : ι → Sketch)
    (hfresh : ∀ i, ∃ accuracy binLimit, create accuracy binLimit = .ok (fresh i)) :
    (∀ moves i,
      (∃ k ∈ sources moves i,
        (run fresh moves i).positive.window.bins.size ≤ (fresh k).binLimit) ∧
      (∃ k ∈ sources moves i,
        (run fresh moves i).negative.window.bins.size ≤ (fresh k).binLimit) ∧
      ((∀ k ∈ sources moves i, (fresh k).binLimit ≤ (run fresh moves i).binLimit) →
        (run fresh moves i).positive.window.bins.size ≤ (run fresh moves i).binLimit ∧
        (run fresh moves i).negative.window.bins.size ≤ (run fresh moves i).binLimit)) ∧
    ∀ i j, i ≠ j → (fresh i).accuracy = (fresh j).accuracy → ∀ x key, isFinite x = true →
      (fresh j).mapping.positiveKey? x = some key →
      (run fresh [.add j x, .merge i j] i).binLimit = (fresh i).binLimit ∧
      (run fresh [.add j x, .merge i j] i).positive.window.bins.size =
        min 128 (fresh j).binLimit := by
  refine ⟨fun moves i => ?_, fun i j hij hacc x key hx hkey => ?_⟩
  · have hwithin := within_run (fun i => by
      obtain ⟨_, _, h⟩ := hfresh i
      exact within_create h) moves i
    have hsome : ∀ {u : Store}, u.Within (limitsOf fresh (sources moves i)) →
        ∃ k ∈ sources moves i, u.window.bins.size ≤ (fresh k).binLimit := by
      intro u hu
      obtain ⟨k, hk, he⟩ := List.mem_map.mp hu.mem
      exact ⟨k, hk, he ▸ hu.size_le⟩
    obtain ⟨k, hk, hpos⟩ := hsome hwithin.positive
    obtain ⟨k', hk', hneg⟩ := hsome hwithin.negative
    exact ⟨⟨k, hk, hpos⟩, ⟨k', hk', hneg⟩, fun hall =>
      ⟨Nat.le_trans hpos (hall k hk), Nat.le_trans hneg (hall k' hk')⟩⟩
  · obtain ⟨a, b, hi⟩ := hfresh i
    obtain ⟨a', b', hj⟩ := hfresh j
    obtain ⟨ha, _, hs⟩ := represents_of_create hi
    obtain ⟨_, hl, ht⟩ := represents_of_create hj
    rw [hs.accuracy_eq, ht.accuracy_eq] at hacc
    subst hacc
    rw [ht.mapping_eq] at hkey
    have hlimit : (fresh j).binLimit = b'.toNat := congrArg (·.2.1) (make_create hj)
    obtain ⟨m, hm, hmake, hsize⟩ := size_takenOver ha hl hs ht hx hkey
    have hadd : run fresh [.add j x] = Function.update fresh j ((fresh j).extend [x]).value := rfl
    have hrun : run fresh [.add j x, .merge i j] i = m := by
      change (move (run fresh [.add j x]) (.merge i j)).value i = _
      rw [hadd]
      simp [move, Outcome.within, Outcome.ofExcept, hij, hm]
    rw [hrun, hlimit]
    exact ⟨congrArg (·.2.1) hmake, hsize⟩

def unequalSketches (i : Bool) : Sketch :=
  empty 0.01 (if i then 2048 else 16)

/-- Values far apart go to the sketch that keeps many bins. It is merged into the other one, and that into
itself. -/
def unequalMoves : List (Move Bool) :=
  [.extend true [1.0, 2.0, -2.0], .merge false true, .merge false false]

/-- The sketch of few bins has taken over many, as it does for a single value. -/
theorem size_run_le_unequal :
    (run unequalSketches unequalMoves false).binLimit = 16 ∧
      (run unequalSketches unequalMoves false).positive.window.bins.size = 128 ∧
      (∃ k ∈ [false, true, false, true],
        (run unequalSketches unequalMoves false).positive.window.bins.size ≤
          (unequalSketches k).binLimit) ∧
      (run unequalSketches [.add true 1.0, .merge false true] false).binLimit = 16 ∧
      (run unequalSketches [.add true 1.0, .merge false true] false).positive.window.bins.size = 128 := by
  have hfresh : ∀ i, ∃ accuracy binLimit, create accuracy binLimit = .ok (unequalSketches i) := by
    intro i
    cases i
    · exact ⟨0.01, 16, rfl⟩
    · exact ⟨0.01, 2048, rfl⟩
  obtain ⟨hbounds, htaken⟩ := size_run_le unequalSketches hfresh
  have hkey : (unequalSketches true).mapping.positiveKey? 1.0 = some 0 := by decide +kernel
  exact ⟨by decide +kernel, by decide +kernel, (hbounds unequalMoves false).1,
    htaken false true (by decide) rfl 1.0 0 (by decide) hkey⟩

end MetricCapture.Sketch
