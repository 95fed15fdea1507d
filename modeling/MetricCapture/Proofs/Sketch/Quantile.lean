import MetricCapture.Proofs.Sketch.Rank
import MetricCapture.Proofs.Sketch.Samples
import MetricCapture.Sketch.Quantile
/-! Quantiles of sketches depend on the values alone: neither the place of the bins nor the order in
which the values came makes a difference. -/
namespace MetricCapture.Sketch

open MetricCapture.Number

/-- The lowest key that some keys have a bin for under a limit, if they reach so far down. -/
def lowest (limit : Nat) (keys : List Int) : Int :=
  keys.max?.getD 0 - limit + 1

/-- A key below the range of some keys and one at its lower end share a bin. -/
theorem IsSpan.max_low {limit : Nat} {keys : List Int} {r : KeyRange} (h : IsSpan limit keys r) {x : Int}
    (hx : x ∈ keys) : max x r.low = max x (lowest limit keys) := by
  have hmax : keys.max? = some r.high := List.max?_eq_some_iff.mpr ⟨h.high_mem, h.le_high⟩
  unfold lowest
  rw [hmax, Option.getD_some]
  rcases h.low with ⟨_, hall, hwidth⟩ | ⟨_, hwidth⟩
  · have hle := hall x hx
    omega
  · omega

namespace Store

private structure Reaches (enough : Nat → Bool) (upTo : Int → Nat) (key : Int) : Prop where
  reached : enough (upTo key) = true
  before : ∀ j < key, enough (upTo j) = false

/-- Going up through the bins finds the first key up to which enough is counted. -/
private theorem go_cases (s : Store) (enough : Nat → Bool) (upTo : Int → Nat) (bins : List Nat) :
    ∀ (key : Int) (running : Nat), upTo (key - 1) = running →
      (∀ j < key, enough (upTo j) = false) →
      (∀ (i : Nat) (h : i < bins.length), upTo (key + i) = upTo (key + i - 1) + bins[i]) →
      (∃ k, firstKey.go s enough key running bins = some k ∧ Reaches enough upTo k) ∨
      (firstKey.go s enough key running bins = s.keys.map (·.high) ∧
        ∀ j < key + bins.length, enough (upTo j) = false) := by
  induction bins with
  | nil =>
    intro key running _ hbefore _
    refine .inr ⟨rfl, fun j hj => hbefore j ?_⟩
    rw [List.length_nil] at hj
    omega
  | cons n rest ih =>
    intro key running hrun hbefore hbins
    have hkey : upTo key = running + n := by
      have hfirst := hbins 0 (Nat.zero_lt_succ _)
      rw [List.getElem_cons_zero, Int.ofNat_zero, Int.add_zero, hrun] at hfirst
      exact hfirst
    unfold firstKey.go
    by_cases he : enough (running + n) = true
    · rw [if_pos he]
      exact .inl ⟨key, rfl, by rw [hkey]; exact he, hbefore⟩
    · rw [if_neg he]
      rw [Bool.not_eq_true] at he
      have hbefore' : ∀ j < key + 1, enough (upTo j) = false := by
        intro j hj
        rcases Int.lt_or_eq_of_le (Int.le_of_lt_add_one hj) with hlt | rfl
        · exact hbefore j hlt
        · rw [hkey]
          exact he
      have hbins' : ∀ (i : Nat) (h : i < rest.length),
          upTo (key + 1 + i) = upTo (key + 1 + i - 1) + rest[i] := by
        intro i hi
        have hnext := hbins (i + 1) (Nat.succ_lt_succ hi)
        rw [List.getElem_cons_succ, Int.natCast_succ, ← Int.add_assoc, Int.add_right_comm] at hnext
        exact hnext
      have hrun' : upTo (key + 1 - 1) = running + n := by
        rw [Int.add_sub_cancel]
        exact hkey
      rcases ih (key + 1) (running + n) hrun' hbefore' hbins' with hfound | ⟨hnone, hall⟩
      · exact .inl hfound
      · refine .inr ⟨hnone, fun j hj => hall j ?_⟩
        rw [List.length_cons] at hj
        omega

variable {limit : Nat} {s t : Store} {keys : List Int} {r : KeyRange}

/-- The number of keys up to a key, where all that lie below a range are taken for its lower end. -/
private def upTo (keys : List Int) (r : KeyRange) (key : Int) : Nat :=
  keys.countP fun x => max x r.low ≤ key

private theorem upTo_eq_zero (keys : List Int) {r : KeyRange} {key : Int} (h : key < r.low) :
    upTo keys r key = 0 := by
  unfold upTo
  rw [List.countP_eq_zero]
  intro x _
  rw [decide_eq_true_eq]
  omega

private theorem Holds.upTo_succ (h : s.Holds limit keys r) (key : Int) :
    upTo keys r key = upTo keys r (key - 1) + s.window.get key := by
  unfold upTo
  rw [h.get]
  apply Window.countP_or
  intro x _
  omega

private theorem Holds.firstKey_cases (h : s.Holds limit keys r) {enough : Nat → Bool}
    (h0 : enough 0 = false) :
    (∃ k, s.firstKey enough = some k ∧ Reaches enough (upTo keys r) k) ∨
    (s.firstKey enough = some r.high ∧ ∀ j, enough (upTo keys r j) = false) := by
  have hoff := h.offset_le
  have hhigh := h.high_lt
  have hbins : ∀ (i : Nat) (hi : i < s.window.bins.toList.length),
      upTo keys r (s.window.offset + i) =
        upTo keys r (s.window.offset + i - 1) + s.window.bins.toList[i] := by
    intro i hi
    rw [h.upTo_succ]
    unfold Window.get
    rw [if_neg (by omega), show (s.window.offset + i - s.window.offset).toNat = i by omega,
      Array.getD_eq_getD_getElem?, Array.getElem?_eq_getElem hi]
    rfl
  have hbefore : ∀ j < s.window.offset, enough (upTo keys r j) = false := by
    intro j hj
    rw [upTo_eq_zero keys (by omega)]
    exact h0
  rcases go_cases s enough (upTo keys r) s.window.bins.toList s.window.offset 0
    (upTo_eq_zero keys (by omega)) hbefore hbins with hfound | ⟨hnone, hall⟩
  · exact .inl hfound
  · refine .inr ⟨?_, fun j => ?_⟩
    · unfold firstKey
      rw [hnone, h.range]
      rfl
    · rw [Array.length_toList] at hall
      by_cases hj : j < s.window.offset + s.window.bins.size
      · exact hall j hj
      · have htop : upTo keys r j = upTo keys r r.high := by
          apply Window.countP_iff
          intro x hx
          have hle := h.le_high x hx
          have hlow := h.low_le
          omega
        rw [htop]
        exact hall r.high hhigh

/-- Stores of the same keys have the same first key, unless nothing is enough. -/
theorem Represents.firstKey (hs : s.Represents limit keys) (ht : t.Represents limit keys)
    {enough : Nat → Bool} (h0 : keys ≠ [] → enough 0 = false) :
    s.firstKey enough = t.firstKey enough := by
  rcases hs with ⟨rfl, rfl⟩ | ⟨r, hsspan, hs⟩
  · rcases ht with ⟨_, rfl⟩ | ⟨q, htspan, _⟩
    · rfl
    · exact absurd htspan.high_mem List.not_mem_nil
  · have hne := List.ne_nil_of_mem hsspan.high_mem
    rcases ht with ⟨rfl, rfl⟩ | ⟨q, htspan, ht⟩
    · exact absurd rfl hne
    · obtain rfl := hsspan.unique htspan fun x => Iff.rfl
      rcases hs.firstKey_cases (h0 hne) with ⟨k, hk, hreach⟩ | ⟨hk, hall⟩
      · rcases ht.firstKey_cases (h0 hne) with ⟨k', hk', hreach'⟩ | ⟨_, hall'⟩
        · have heq : k = k' := by
            rcases Int.lt_trichotomy k k' with hlt | heq | hgt
            · exact absurd hreach.reached (by rw [hreach'.before k hlt]; decide)
            · exact heq
            · exact absurd hreach'.reached (by rw [hreach.before k' hgt]; decide)
          rw [hk, hk', heq]
        · exact absurd hreach.reached (by rw [hall' k]; decide)
      · rcases ht.firstKey_cases (h0 hne) with ⟨k', _, hreach'⟩ | ⟨hk', _⟩
        · exact absurd hreach'.reached (by rw [hall k']; decide)
        · rw [hk, hk']

/-- The first key up to which enough is counted is that of the bin of a key, if the bins from there on are
those up to which enough is counted. -/
theorem Represents.firstKey_eq (hs : s.Represents limit keys) {enough : Nat → Bool} {key : Int}
    (hkey : key ∈ keys)
    (henough : ∀ c, enough (keys.countP fun x => max x (lowest limit keys) ≤ c) = true ↔
      max key (lowest limit keys) ≤ c) :
    s.firstKey enough = some (max key (lowest limit keys)) := by
  rcases hs with ⟨rfl, _⟩ | ⟨r, hspan, hs⟩
  · exact absurd hkey List.not_mem_nil
  have hupTo : ∀ c, enough (upTo keys r c) = true ↔ max key (lowest limit keys) ≤ c := by
    intro c
    rw [← henough c]
    unfold upTo
    rw [Window.countP_iff fun x hx => by rw [hspan.max_low hx]]
  have hnone : enough 0 = false := by
    have hzero : upTo keys r (min r.low (max key (lowest limit keys)) - 1) = 0 :=
      upTo_eq_zero keys (by omega)
    rw [← hzero, Bool.eq_false_iff]
    intro hreached
    have hle := (hupTo _).mp hreached
    omega
  rcases hs.firstKey_cases hnone with ⟨k, hk, hreach⟩ | ⟨_, hall⟩
  · have hle := (hupTo k).mp hreach.reached
    rw [hk, Option.some.injEq]
    refine Int.le_antisymm (Int.not_lt.mp fun hlt => ?_) hle
    have hbefore := hreach.before _ hlt
    rw [(hupTo _).mpr (Int.le_refl _)] at hbefore
    cases hbefore
  · have hreached := (hupTo _).mpr (Int.le_refl _)
    rw [hall] at hreached
    cases hreached

/-- The first key is that of a bin in which some key is counted. -/
theorem Represents.firstKey_mem (hs : s.Represents limit keys) {enough : Nat → Bool}
    (h0 : keys ≠ [] → enough 0 = false) {key : Int} (h : s.firstKey enough = some key) :
    ∃ r, IsSpan limit keys r ∧ ∃ x ∈ keys, max x r.low = key := by
  rcases hs with ⟨rfl, rfl⟩ | ⟨r, hspan, hs⟩
  · cases h
  · refine ⟨r, hspan, ?_⟩
    rcases hs.firstKey_cases (h0 (List.ne_nil_of_mem hspan.high_mem)) with
      ⟨k, hk, hreach⟩ | ⟨hk, _⟩
    · obtain rfl : k = key := Option.some.inj (hk.symm.trans h)
      refine Classical.byContradiction fun hnone => ?_
      -- Without a key in the bin as many are counted up to the one before.
      have hget : s.window.get k = 0 := by
        rw [hs.get, List.countP_eq_zero]
        intro x hx heq
        exact hnone ⟨x, hx, of_decide_eq_true heq⟩
      have hbefore := hreach.before (k - 1) (by omega)
      have hreached := hreach.reached
      rw [hs.upTo_succ, hget, Nat.add_zero, hbefore] at hreached
      cases hreached
    · obtain rfl : r.high = key := Option.some.inj (hk.symm.trans h)
      exact ⟨r.high, hspan.high_mem, Int.max_eq_left hs.low_le⟩

end Store

variable {accuracy : Float} {limit : Nat} {s t : Sketch} {xs : List Float}

theorem Store.Represents.count_eq {u : Store} {keys : List Int} (h : u.Represents limit keys) :
    u.count = keys.length := by
  rcases h with ⟨rfl, rfl⟩ | ⟨r, _, hh⟩
  · rfl
  · exact hh.count

/-- Values are counted once: as positive, as negative or as zero. -/
theorem Mapping.count_le (m : Mapping) (xs : List Float) :
    xs.countP m.isZero + (xs.filterMap m.negativeKey?).length ≤ xs.length := by
  induction xs with
  | nil => exact Nat.le_refl 0
  | cons x xs ih =>
    have hone : m.isZero x = true → m.negativeKey? x = none := by
      unfold isZero negativeKey?
      intro h
      simp only [Bool.and_eq_true, Bool.not_eq_true', decide_eq_false_iff_not] at h
      rw [if_neg h.1, if_neg h.2]
    by_cases hz : m.isZero x = true
    · rw [List.countP_cons_of_pos hz, List.filterMap_cons_none (hone hz), List.length_cons]
      omega
    · rw [List.countP_cons_of_neg hz, List.length_cons]
      cases hk : m.negativeKey? x with
      | none =>
        rw [List.filterMap_cons_none hk]
        omega
      | some k =>
        rw [List.filterMap_cons_some hk, List.length_cons]
        omega

/-- The representative of a rank is that of the values, as long as their number is exact. -/
theorem Represents.representative (hs : s.Represents accuracy limit xs)
    (ht : t.Represents accuracy limit xs) (hc : xs.length ≤ 2 ^ (53 : Nat)) (rank : Float) :
    s.representative rank = t.representative rank := by
  have hle := (Mapping.ofAccuracy accuracy).count_le xs
  have hmap : s.mapping = t.mapping := hs.mapping_eq.trans ht.mapping_eq.symm
  have hsn := hs.negative.count_eq
  have htn := ht.negative.count_eq
  unfold Sketch.representative
  rw [hsn, htn, hs.zeros, ht.zeros, hmap]
  dsimp only
  generalize hn : (xs.filterMap (Mapping.ofAccuracy accuracy).negativeKey?).length = n at hle
  generalize xs.countP (Mapping.ofAccuracy accuracy).isZero = z at hle
  by_cases hneg : rank < Float.ofNat n
  · rw [if_pos hneg, if_pos hneg, hs.negative.firstKey ht.negative fun hne => ?_]
    have hpos : 0 < n := by
      rw [← hn]
      exact List.length_pos_iff.mpr hne
    exact decide_eq_false (not_le_zero hpos (by omega) hneg)
  · rw [if_neg hneg, if_neg hneg]
    by_cases hzero : rank < Float.ofNat (z + n)
    · rw [if_pos hzero, if_pos hzero]
    · rw [if_neg hzero, if_neg hzero, hs.positive.firstKey ht.positive fun _ => ?_]
      exact decide_eq_false (not_lt_zero (Nat.le_trans hle hc) hzero)

def AlikeAnswer : Except Failure (Option Float) → Except Failure (Option Float) → Prop
  | .ok (some a), .ok (some b) => Alike a b
  | a, b => a = b

theorem AlikeAnswer.refl (a : Except Failure (Option Float)) : AlikeAnswer a a := by
  cases a with
  | error e => rfl
  | ok v =>
    cases v with
    | none => rfl
    | some x => exact .inl rfl

/-- What compares with one of two like numbers compares with the other. -/
theorem alike_lt {a b : Float} (h : Alike a b) (x : Float) : (x < a ↔ x < b) ∧ (a < x ↔ b < x) := by
  rcases h with rfl | h
  · exact ⟨Iff.rfl, Iff.rfl⟩
  · obtain ⟨ha, hb, horder⟩ := (beq_iff a b).mp h
    simp only [lt_iff, ha, hb, horder, true_and, and_self]

/-- Like bounds bring a number to like ones. -/
theorem alike_clamp {l l' g g' v v' : Float} (hl : Alike l l') (hg : Alike g g') (hv : Alike v v') :
    Alike (if g < (if v < l then l else v) then g else (if v < l then l else v))
      (if g' < (if v' < l' then l' else v') then g' else (if v' < l' then l' else v')) := by
  have hlow : v < l ↔ v' < l' := (alike_lt hl v).1.trans (alike_lt hv l').2
  have hraised : Alike (if v < l then l else v) (if v' < l' then l' else v') := by
    by_cases h : v < l
    · rw [if_pos h, if_pos (hlow.mp h)]
      exact hl
    · rw [if_neg h, if_neg fun h' => h (hlow.mpr h')]
      exact hv
  have hhigh : g < (if v < l then l else v) ↔ g' < (if v' < l' then l' else v') :=
    (alike_lt hg _).2.trans (alike_lt hraised g').1
  by_cases h : g < (if v < l then l else v)
  · rw [if_pos h, if_pos (hhigh.mp h)]
    exact hg
  · rw [if_neg h, if_neg fun h' => h (hhigh.mpr h')]
    exact hraised

/-- The quantiles of sketches of the same values are the same, as long as their number is exact. -/
theorem Represents.quantile (hs : s.Represents accuracy limit xs)
    (ht : t.Represents accuracy limit xs) (hc : xs.length ≤ 2 ^ (53 : Nat)) (q : Float) :
    AlikeAnswer (s.quantile q) (t.quantile q) := by
  have hleast := hs.least.alike upward hs.finite ht.least
  have hgreatest := hs.greatest.alike downward hs.finite ht.greatest
  unfold Sketch.quantile
  rw [hs.count, ht.count, hs.representative ht hc]
  by_cases hq : (!(decide (0.0 ≤ q) && decide (q ≤ 1.0))) = true
  · rw [if_pos hq, if_pos hq]
    exact AlikeAnswer.refl _
  · rw [if_neg hq, if_neg hq]
    by_cases hx : xs.length = 0
    · rw [if_pos hx, if_pos hx]
      exact AlikeAnswer.refl _
    · rw [if_neg hx, if_neg hx]
      by_cases hzero : (q == 0.0) = true
      · rw [if_pos hzero, if_pos hzero]
        exact hleast
      · rw [if_neg hzero, if_neg hzero]
        by_cases hone : (q == 1.0) = true
        · rw [if_pos hone, if_pos hone]
          exact hgreatest
        · rw [if_neg hone, if_neg hone]
          cases t.representative (q * Float.ofNat (xs.length - 1)) with
          | error e =>
            change AlikeAnswer (.error e) (.error e)
            exact AlikeAnswer.refl _
          | ok v? =>
            cases v? with
            | none =>
              change AlikeAnswer (.ok none) (.ok none)
              exact AlikeAnswer.refl _
            | some v => exact alike_clamp hleast hgreatest (.inl rfl)

structure Agrees (s t : Sketch) : Prop where
  accuracy : s.accuracy = t.accuracy
  mapping : s.mapping = t.mapping
  positive : s.positive.Same t.positive
  negative : s.negative.Same t.negative
  zeros : s.zeros = t.zeros
  count : s.count = t.count
  least : Alike s.least t.least
  greatest : Alike s.greatest t.greatest
  quantile : s.count ≤ 2 ^ (53 : Nat) → ∀ q, AlikeAnswer (s.quantile q) (t.quantile q)

/-- Sketches of the same values agree. -/
theorem Represents.agrees (hs : s.Represents accuracy limit xs)
    (ht : t.Represents accuracy limit xs) : s.Agrees t := by
  refine ⟨hs.accuracy_eq.trans ht.accuracy_eq.symm, hs.mapping_eq.trans ht.mapping_eq.symm,
    hs.positive.same ht.positive (List.Perm.refl _),
    hs.negative.same ht.negative (List.Perm.refl _), hs.zeros.trans ht.zeros.symm,
    hs.count.trans ht.count.symm, hs.least.alike upward hs.finite ht.least,
    hs.greatest.alike downward hs.finite ht.greatest, fun hc q => ?_⟩
  rw [hs.count] at hc
  exact hs.quantile ht hc q

end MetricCapture.Sketch
