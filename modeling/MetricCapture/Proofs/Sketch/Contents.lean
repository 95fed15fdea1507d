import MetricCapture.Proofs.Sketch.Store
/-! What is counted in a store: a key more by adding, the keys of both by merging, whatever keys have been
collapsed by then. -/
namespace MetricCapture.Sketch

open Window (countP_or countP_iff ite_countP)

theorem IsSpan.singleton {limit : Nat} (hl : 0 < limit) (key : Int) :
    IsSpan limit [key] ⟨key, key⟩ := by
  have hall : ∀ x ∈ [key], x = key := fun x hx => List.mem_singleton.mp hx
  refine ⟨List.mem_singleton_self key, fun x hx => Int.le_of_eq (hall x hx), .inl ⟨?_, ?_, ?_⟩⟩
  · exact List.mem_singleton_self key
  · exact fun x hx => Int.le_of_eq (hall x hx).symm
  · dsimp only
    omega

/-- What all keys reach down to is no more than the lower end of their range, and a key if it is the
end. -/
theorem IsSpan.low_of_le {limit : Nat} {keys : List Int} {r : KeyRange} (h : IsSpan limit keys r)
    {low : Int} (hall : ∀ x ∈ keys, low ≤ x) : low ≤ r.low ∧ (low = r.low → r.low ∈ keys) := by
  rcases h.low with ⟨hm, _, _⟩ | ⟨⟨x, hx, hlt⟩, _⟩
  · exact ⟨hall _ hm, fun _ => hm⟩
  · have hxl := hall x hx
    exact ⟨by omega, fun he => by omega⟩

/-- The range of the keys of two lists is the least around both ranges, cut off at the limit. -/
theorem IsSpan.append {limit : Nat} {keys others : List Int} {r q range : KeyRange}
    (h : IsSpan limit keys r) (h' : IsSpan limit others q) (hh : range.high = max q.high r.high)
    (hl : range.low = max (min q.low r.low) (range.high - limit + 1)) :
    IsSpan limit (keys ++ others) range := by
  have hrh := h.le_high
  have hqh := h'.le_high
  have hcut : ∀ x ∈ keys ++ others, x < range.low → range.high + 1 = range.low + limit := by
    intro x hx hlt
    rcases List.mem_append.mp hx with hx | hx
    · rcases h.low with ⟨_, hall, _⟩ | ⟨_, hw⟩
      · have hxl := hall x hx
        omega
      · omega
    · rcases h'.low with ⟨_, hall, _⟩ | ⟨_, hw⟩
      · have hxl := hall x hx
        omega
      · omega
  refine ⟨?_, ?_, ?_⟩
  · rw [hh, List.mem_append]
    rcases Int.le_total q.high r.high with hle | hle
    · rw [Int.max_eq_right hle]
      exact .inl h.high_mem
    · rw [Int.max_eq_left hle]
      exact .inr h'.high_mem
  · intro x hx
    rcases List.mem_append.mp hx with hx | hx
    · have hxh := hrh x hx
      omega
    · have hxh := hqh x hx
      omega
  · by_cases hex : ∃ x ∈ keys ++ others, x < range.low
    · obtain ⟨x, hx, hlt⟩ := hex
      exact .inr ⟨⟨x, hx, hlt⟩, hcut x hx hlt⟩
    · have hall : ∀ x ∈ keys ++ others, range.low ≤ x := by
        intro x hx
        exact Int.not_lt.mp fun hlt => hex ⟨x, hx, hlt⟩
      refine .inl ⟨?_, hall, by omega⟩
      -- Nothing lies below the range, so its lower end is one of the two.
      have hr := h.low_of_le fun x hx => hall x (List.mem_append_left _ hx)
      have hq := h'.low_of_le fun x hx => hall x (List.mem_append_right _ hx)
      by_cases hle : r.low ≤ q.low
      · have he : range.low = r.low := by omega
        rw [he]
        exact List.mem_append_left _ (hr.2 he)
      · have he : range.low = q.low := by omega
        rw [he]
        exact List.mem_append_right _ (hq.2 he)

theorem IsSpan.cons {limit : Nat} {keys : List Int} {r range : KeyRange} {key : Int}
    (hl : 0 < limit) (h : IsSpan limit keys r) (hh : range.high = max key r.high)
    (hlow : range.low = max (min key r.low) (range.high - limit + 1)) :
    IsSpan limit (key :: keys) range := by
  have happ := h.append (IsSpan.singleton hl key) hh hlow
  have hmem : ∀ x, x ∈ keys ++ [key] ↔ x ∈ key :: keys := by
    intro x
    rw [List.mem_append, List.mem_singleton, List.mem_cons, or_comm]
  refine ⟨(hmem _).mp happ.high_mem, fun x hx => happ.le_high x ((hmem x).mpr hx), ?_⟩
  rcases happ.low with ⟨hm, hall, hw⟩ | ⟨⟨x, hx, hlt⟩, hw⟩
  · exact .inl ⟨(hmem _).mp hm, fun x hx => hall x ((hmem x).mpr hx), hw⟩
  · exact .inr ⟨⟨x, (hmem x).mp hx, hlt⟩, hw⟩

namespace Store

variable {limit : Nat} {s t : Store} {keys others : List Int} {r q : KeyRange}

theorem represents_fresh (limit : Nat) : ({ binLimit := limit } : Store).Represents limit [] :=
  .inl ⟨rfl, rfl⟩

/-- One key more is counted in its bin, or in the lowest one if the range begins above it. -/
theorem Holds.put (h : s.Holds limit keys r) (key : Int) (position : Nat) (hk : key ≤ r.high)
    (hf : key < r.low → r.high + 1 = r.low + limit)
    (hp : (position : Int) = max key r.low - s.window.offset) :
    { s with window := s.window.addAt position 1, count := s.count + 1 }.Holds limit
      (key :: keys) r := by
  obtain ⟨hlimit, hcount, hrange, hlow, hwidth, hoff, hhigh, hsize, hcoll, hle, hfull, hget⟩ := h
  refine ⟨hlimit, ?_, hrange, hlow, hwidth, hoff, ?_, ?_, hcoll, ?_, ?_, ?_⟩
  · rw [List.length_cons, ← hcount]
  · rw [Window.size_addAt]
    exact hhigh
  · rw [Window.size_addAt]
    exact hsize
  · intro x hx
    rcases List.mem_cons.mp hx with rfl | hx
    · exact hk
    · exact hle x hx
  · intro x hx
    rcases List.mem_cons.mp hx with rfl | hx
    · exact hf
    · exact hfull x hx
  · intro k
    rw [Window.get_addAt _ (by omega), hget, List.countP_cons]
    simp only [decide_eq_true_eq]
    congr 2
    rw [eq_iff_iff]
    omega

/-- An empty store makes room for one key. -/
theorem fresh_widen (hl : 0 < limit) (key : Int) :
    (({ binLimit := limit } : Store).widen key key).Holds limit [] ⟨key, key⟩ ∧
      (({ binLimit := limit } : Store).widen key key).collapsed = false := by
  have hmin : min key key = key := Int.min_self key
  have hmax : max key key = key := Int.max_self key
  have hwidth : (KeyRange.mk key key).width = 1 := by
    unfold KeyRange.width
    dsimp only
    omega
  have hlen : max (#[] : Array Nat).size (({ binLimit := limit } : Store).lengthFor ⟨key, key⟩) =
      min 128 limit := by
    unfold lengthFor
    rw [hwidth]
    exact Nat.max_eq_right (Nat.zero_le _)
  unfold Store.widen KeyRange.around
  dsimp only
  rw [hmin, hmax, if_neg Bool.false_ne_true, hlen]
  unfold adjust
  rw [hwidth, if_neg (by omega)]
  refine ⟨⟨rfl, rfl, rfl, Int.le_refl key, ?_, ?_, ?_, ?_, (fun hc => nomatch hc), ?_, ?_, ?_⟩, rfl⟩
  · dsimp only
    omega
  · change key + (1 / 2 : Nat) - (min 128 limit / 2 : Nat) ≤ key
    omega
  · rw [Window.size_move]
    change key < key + (1 / 2 : Nat) - (min 128 limit / 2 : Nat) + (min 128 limit : Nat)
    omega
  · rw [Window.size_move]
    exact Nat.min_le_right 128 limit
  · exact fun x hx => absurd hx List.not_mem_nil
  · exact fun x hx => absurd hx List.not_mem_nil
  · intro k
    rw [Window.get_move, Window.get_empty, ite_self]
    rfl

theorem below_of_range (h : s.keys = some r) (key : Int) : s.below key = decide (key < r.low) := by
  unfold below
  rw [h]

theorem above_of_range (h : s.keys = some r) (key : Int) : s.above key = decide (r.high < key) := by
  unfold above
  rw [h]

private theorem fresh_add (hl : 0 < limit) (key : Int) :
    (({ binLimit := limit } : Store).add key).Holds limit [key] ⟨key, key⟩ := by
  obtain ⟨hw, hc⟩ := fresh_widen hl key
  have hoff := hw.offset_le
  have hput := hw.put key
    (key - (({ binLimit := limit } : Store).widen key key).window.offset).toNat
    (Int.le_refl key) (fun hlt => absurd hlt (Int.lt_irrefl key)) (by dsimp only at hoff ⊢; omega)
  unfold Store.add
  dsimp only
  rw [show ({ binLimit := limit } : Store).below key = true from rfl,
    if_pos (show (true && !false || ({ binLimit := limit } : Store).above key) = true from rfl),
    hc, if_neg (by decide)]
  rw [hc] at hput
  exact hput

/-- A key beyond the range is counted once there is room for it. -/
private theorem Holds.add_beyond (hl : 0 < limit) (hspan : IsSpan limit keys r)
    (hh : s.Holds limit keys r) {key : Int}
    (hout : key < r.low ∧ s.collapsed = false ∨ r.high < key) :
    ∃ r', IsSpan limit (key :: keys) r' ∧ (s.add key).Holds limit (key :: keys) r' := by
  have hlow := hh.low_le
  unfold Store.add
  dsimp only
  rw [below_of_range hh.range, above_of_range hh.range, if_pos (by simpa using hout)]
  obtain ⟨r', hw, ⟨hhigh', hlow', hkept⟩⟩ := hh.widen key key
  rw [Int.max_self] at hhigh'
  rw [Int.min_self] at hlow' hkept
  have hoff' := hw.offset_le
  refine ⟨r', hspan.cons hl hhigh' hlow', hw.put key _ (by omega) (by omega) ?_⟩
  split
  · rename_i hpos
    simp only [Bool.and_eq_true, decide_eq_true_eq] at hpos
    have hcoll := (hw.collapsed hpos.2).1
    omega
  · rename_i hpos
    simp only [Bool.and_eq_true, decide_eq_true_eq, not_and, Bool.not_eq_true] at hpos
    by_cases hb : key < r.low
    · have hlow'' := hkept (hpos hb)
      omega
    · have hw' := hw.width
      omega

/-- A key within the range, or below it once the lowest bins have become one, has its bin. -/
private theorem Holds.add_within (hl : 0 < limit) (hspan : IsSpan limit keys r)
    (hh : s.Holds limit keys r) {key : Int}
    (hin : ¬ (key < r.low ∧ s.collapsed = false ∨ r.high < key)) :
    IsSpan limit (key :: keys) r ∧ (s.add key).Holds limit (key :: keys) r := by
  have hlow := hh.low_le
  have hwide := hh.width
  have hoff := hh.offset_le
  unfold Store.add
  dsimp only
  rw [below_of_range hh.range, above_of_range hh.range, if_neg (by simpa using hin)]
  obtain ⟨hbelow, habove⟩ := not_or.mp hin
  rw [not_and, Bool.not_eq_false] at hbelow
  have hfull : key < r.low → s.window.offset = r.low ∧ r.high + 1 = r.low + limit :=
    fun hb => hh.collapsed (hbelow hb)
  refine ⟨hspan.cons hl (by omega) (by omega), hh.put key _ (by omega) (fun hb => (hfull hb).2) ?_⟩
  split
  · rename_i hpos
    simp only [Bool.and_eq_true, decide_eq_true_eq] at hpos
    obtain ⟨ho, hf⟩ := hfull hpos.1
    omega
  · rename_i hpos
    simp only [Bool.and_eq_true, decide_eq_true_eq, not_and] at hpos
    have hb : ¬ key < r.low := fun hb => hpos hb (hbelow hb)
    omega

/-- Adding counts one key more. -/
theorem Represents.add (hl : 0 < limit) (h : s.Represents limit keys) (key : Int) :
    (s.add key).Represents limit (key :: keys) := by
  rcases h with ⟨rfl, rfl⟩ | ⟨r, hspan, hh⟩
  · exact .inr ⟨_, IsSpan.singleton hl key, fresh_add hl key⟩
  · by_cases hout : key < r.low ∧ s.collapsed = false ∨ r.high < key
    · exact .inr (hh.add_beyond hl hspan hout)
    · exact .inr ⟨r, hh.add_within hl hspan hout⟩

/-- A store that is made wider for the keys of another one keeps what it has counted. If it does not reach
down to all of them, its bins begin where its range does. -/
theorem Holds.widenFor (h : s.Holds limit keys r) (hq : q.low ≤ q.high) :
    ∃ r', (s.widenFor q).Holds limit keys r' ∧ r'.high = max q.high r.high ∧
      r'.low = max (min q.low r.low) (r'.high - limit + 1) ∧
      (q.low < r'.low → (s.widenFor q).window.offset = r'.low) := by
  have hwidth := h.width
  unfold Store.widenFor
  rw [below_of_range h.range, above_of_range h.range]
  split
  · obtain ⟨r', hw, ⟨hhigh, hlow, hkept⟩⟩ := h.widen q.low q.high
    refine ⟨r', hw, by omega, by omega, fun hlt => ?_⟩
    have hcoll : (s.widen q.low q.high).collapsed = true := by
      rw [← Bool.not_eq_false]
      intro hc
      have hk := hkept hc
      omega
    exact (hw.collapsed hcoll).1
  · rename_i hin
    simp only [Bool.or_eq_true, decide_eq_true_eq, not_or] at hin
    exact ⟨r, h, by omega, by omega, fun hlt => by omega⟩

/-- A key of the other store goes into the first bin or into its own one, never into both. -/
private theorem merged_key {x key low high bottom offset first : Int} (hl : low ≤ high)
    (hx : x ≤ high) (hlow : x < low → low ≤ bottom) (hcut : low < bottom → offset = bottom)
    (hf : max low (min bottom (high + 1)) = first) :
    (max x bottom = key ↔
      key = offset + (0 : Nat) ∧ low ≤ max x low ∧ max x low < first ∨
        (first ≤ key ∧ key < first + (high + 1 - first).toNat) ∧ max x low = key) ∧
    ¬((key = offset + (0 : Nat) ∧ low ≤ max x low ∧ max x low < first) ∧
        (first ≤ key ∧ key < first + (high + 1 - first).toNat) ∧ max x low = key) := by
  omega

/-- What is counted below `first` goes into the first bin, all else into its own. So every key of the other
store is counted where the range from `bottom` on has its place. -/
theorem Holds.merged_count (ht : t.Holds limit others q) {key bottom offset first : Int}
    (hlow : ∀ x ∈ others, x < q.low → q.low ≤ bottom) (hcut : q.low < bottom → offset = bottom)
    (hf : max q.low (min bottom (q.high + 1)) = first) :
    (if key = offset + (0 : Nat) then t.window.total q.low first else 0) +
      (if first ≤ key ∧ key < first + (q.high + 1 - first).toNat then t.window.get key else 0) =
      others.countP fun x => max x bottom = key := by
  rw [Window.total_eq_countP ht.get, ht.get, ite_countP, ite_countP]
  symm
  apply countP_or
  intro x hx
  exact merged_key ht.low_le (ht.le_high x hx) (hlow x hx) hcut hf

/-- Merging counts the keys of both. -/
theorem Holds.merge (hs : s.Holds limit keys r) (ht : t.Holds limit others q) (hc : s.count ≠ 0) :
    ∃ r', (s.merge t).Holds limit (keys ++ others) r' ∧
      r'.high = max q.high r.high ∧ r'.low = max (min q.low r.low) (r'.high - limit + 1) := by
  obtain ⟨r', hw, hhigh, hlow, hcut⟩ := hs.widenFor ht.low_le
  unfold Store.merge
  rw [ht.range]
  dsimp only
  rw [if_neg hc, hw.range, Option.getD_some]
  generalize s.widenFor q = wide at hw hcut
  obtain ⟨hlimit, hcount, hrange, hlow', hwidth, hoff, htop, hsize, hcoll, hle, hfull, hget⟩ := hw
  generalize hf : max q.low (min r'.low (q.high + 1)) = first
  have hpos : 0 < wide.window.bins.size := by omega
  generalize hb : wide.window.addAt 0 (t.window.total q.low first) = based
  have hbo : based.offset = wide.window.offset := by rw [← hb, Window.offset_addAt]
  have hbs : based.bins.size = wide.window.bins.size := by rw [← hb, Window.size_addAt]
  have hcovers : ∀ i : Nat, i < (q.high + 1 - first).toNat → based.Covers (first + i) := by
    intro i hi
    unfold Window.Covers
    omega
  obtain ⟨hfo, hfs, hfg⟩ := Window.get_foldl_addAt t.window.get based first _ hcovers
  refine ⟨r', ⟨hlimit, ?_, rfl, hlow', hwidth, ?_, ?_, ?_, ?_, ?_, ?_, ?_⟩, hhigh, hlow⟩
  · rw [List.length_append, hcount, ht.count]
  · rw [hfo, hbo]
    exact hoff
  · rw [hfo, hfs, hbo, hbs]
    exact htop
  · rw [hfs, hbs]
    exact hsize
  · rw [hfo, hbo]
    exact hcoll
  · intro x hx
    rcases List.mem_append.mp hx with hx | hx
    · exact hle x hx
    · have hxh := ht.le_high x hx
      omega
  · intro x hx hlt
    rcases List.mem_append.mp hx with hx | hx
    · exact hfull x hx hlt
    · have hxf := ht.full x hx
      omega
  · intro key
    have hbg := Window.get_addAt wide.window (n := t.window.total q.low first) hpos key
    have hbelow : ∀ x ∈ others, x < q.low → q.low ≤ r'.low := by
      intro x hx hlt
      have hxf := ht.full x hx hlt
      omega
    rw [hb] at hbg
    rw [hfg, hbg, hget, Nat.add_assoc, ht.merged_count hbelow hcut hf, List.countP_append]

/-- Merging counts the keys of both. -/
theorem Represents.merge (hs : s.Represents limit keys) (ht : t.Represents limit others) :
    (s.merge t).Represents limit (keys ++ others) := by
  rcases ht with ⟨rfl, rfl⟩ | ⟨q, htspan, ht⟩
  · rw [List.append_nil]
    exact hs
  · rcases hs with ⟨rfl, rfl⟩ | ⟨r, hsspan, hs⟩
    · refine .inr ⟨q, htspan, ?_⟩
      unfold Store.merge
      rw [ht.range]
      exact ht
    · have hc : s.count ≠ 0 := by
        rw [hs.count, Ne, List.length_eq_zero_iff]
        exact List.ne_nil_of_mem hsspan.high_mem
      obtain ⟨r', hh, hhigh, hlow⟩ := hs.merge ht hc
      exact .inr ⟨r', hsspan.append htspan hhigh hlow, hh⟩

/-- The order in which keys have been counted leaves no trace. -/
theorem Represents.perm (h : s.Represents limit keys) (hp : keys.Perm others) :
    s.Represents limit others := by
  rcases h with ⟨rfl, rfl⟩ | ⟨r, hspan, hh⟩
  · rw [List.nil_perm.mp hp]
    exact represents_fresh limit
  · obtain ⟨hlimit, hcount, hrange, hlow, hwidth, hoff, htop, hsize, hcoll, hle, hfull, hget⟩ := hh
    refine .inr ⟨r, ⟨hp.mem_iff.mp hspan.high_mem, ?_, ?_⟩, hlimit, ?_, hrange, hlow, hwidth, hoff,
      htop, hsize, hcoll, ?_, ?_, ?_⟩
    · exact fun x hx => hspan.le_high x (hp.mem_iff.mpr hx)
    · rcases hspan.low with ⟨hm, hall, hw⟩ | ⟨⟨x, hx, hlt⟩, hw⟩
      · exact .inl ⟨hp.mem_iff.mp hm, fun x hx => hall x (hp.mem_iff.mpr hx), hw⟩
      · exact .inr ⟨⟨x, hp.mem_iff.mp hx, hlt⟩, hw⟩
    · rw [hcount, hp.length_eq]
    · exact fun x hx => hle x (hp.mem_iff.mpr hx)
    · exact fun x hx => hfull x (hp.mem_iff.mpr hx)
    · intro key
      rw [hget, hp.countP_eq]

/-- What tells stores apart: the number of keys, the range that a merge takes over, and the count of
each. -/
structure Same (s t : Store) : Prop where
  count : s.count = t.count
  range : s.keys = t.keys
  get : ∀ key, s.window.get key = t.window.get key

/-- Stores of the same keys are the same, in whatever order the keys were counted. -/
theorem Represents.same (hs : s.Represents limit keys) (ht : t.Represents limit others)
    (hp : keys.Perm others) : s.Same t := by
  rcases hs with ⟨rfl, rfl⟩ | ⟨r, hsspan, hs⟩
  · obtain rfl := List.nil_perm.mp hp
    rcases ht with ⟨_, rfl⟩ | ⟨q, htspan, _⟩
    · exact ⟨rfl, rfl, fun _ => rfl⟩
    · exact absurd htspan.high_mem List.not_mem_nil
  · rcases ht with ⟨rfl, rfl⟩ | ⟨q, htspan, ht⟩
    · obtain rfl := List.perm_nil.mp hp
      exact absurd hsspan.high_mem List.not_mem_nil
    · obtain rfl := hsspan.unique htspan fun x => hp.mem_iff
      refine ⟨?_, ?_, fun key => ?_⟩
      · rw [hs.count, ht.count, hp.length_eq]
      · rw [hs.range, ht.range]
      · rw [hs.get, ht.get, hp.countP_eq]

end Store

end MetricCapture.Sketch
