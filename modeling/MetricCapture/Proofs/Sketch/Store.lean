import MetricCapture.Proofs.Sketch.Window
/-! Stores: what a store keeps of the keys counted in it. Its counts are those of the keys, where all
that lie below its range are taken for the lowest one. It keeps to this when it is made wider. -/
namespace MetricCapture.Sketch

open Window (countP_or countP_iff ite_countP)

/-- The range of some keys under a limit: from the lowest to the highest, but no further down than
the bins reach. -/
structure IsSpan (limit : Nat) (keys : List Int) (r : KeyRange) : Prop where
  high_mem : r.high ∈ keys
  le_high : ∀ x ∈ keys, x ≤ r.high
  low : (r.low ∈ keys ∧ (∀ x ∈ keys, r.low ≤ x) ∧ r.high < r.low + limit) ∨
    ((∃ x ∈ keys, x < r.low) ∧ r.high + 1 = r.low + limit)

/-- Keys have one range, whatever their order and number. -/
theorem IsSpan.unique {limit : Nat} {keys keys' : List Int} {r r' : KeyRange}
    (h : IsSpan limit keys r) (h' : IsSpan limit keys' r') (hk : ∀ x, x ∈ keys ↔ x ∈ keys') :
    r = r' := by
  have hhigh : r.high = r'.high := by
    have hle := h'.le_high r.high ((hk _).mp h.high_mem)
    have hge := h.le_high r'.high ((hk _).mpr h'.high_mem)
    omega
  have hlow : r.low = r'.low := by
    rcases h.low with ⟨hmem, hall, hw⟩ | ⟨⟨x, hx, hlt⟩, hw⟩
    · rcases h'.low with ⟨hmem', hall', hw'⟩ | ⟨⟨x', hx', hlt'⟩, hw'⟩
      · have hle := hall' r.low ((hk _).mp hmem)
        have hge := hall r'.low ((hk _).mpr hmem')
        omega
      · have hge := hall x' ((hk _).mpr hx')
        omega
    · rcases h'.low with ⟨hmem', hall', hw'⟩ | ⟨⟨x', hx', hlt'⟩, hw'⟩
      · have hge := hall' x ((hk _).mp hx)
        omega
      · omega
  obtain ⟨low, high⟩ := r
  obtain ⟨low', high'⟩ := r'
  dsimp only at hhigh hlow
  rw [hhigh, hlow]

namespace Store

/-- A store keeps some keys within a range: all below the range are counted at its lower end, and
there are such keys only if the bins reach no further down. -/
structure Holds (limit : Nat) (s : Store) (keys : List Int) (r : KeyRange) : Prop where
  binLimit : s.binLimit = limit
  count : s.count = keys.length
  range : s.keys = some r
  low_le : r.low ≤ r.high
  width : r.high < r.low + limit
  offset_le : s.window.offset ≤ r.low
  high_lt : r.high < s.window.offset + s.window.bins.size
  size_le : s.window.bins.size ≤ limit
  collapsed : s.collapsed = true → s.window.offset = r.low ∧ r.high + 1 = r.low + limit
  le_high : ∀ x ∈ keys, x ≤ r.high
  full : ∀ x ∈ keys, x < r.low → r.high + 1 = r.low + limit
  get : ∀ key, s.window.get key = keys.countP fun x => max x r.low = key

def Represents (limit : Nat) (keys : List Int) (s : Store) : Prop :=
  (keys = [] ∧ s = { binLimit := limit }) ∨ ∃ r, IsSpan limit keys r ∧ s.Holds limit keys r

theorem offset_collapse (s : Store) (low : Int) (length : Nat) :
    (s.collapse low length).offset = low := by
  unfold collapse
  split
  · rfl
  · split
    · rfl
    · split <;> rfl

theorem size_collapse (s : Store) (low : Int) (length : Nat) :
    (s.collapse low length).bins.size = length := by
  unfold collapse
  split
  · rw [Window.size_addAt, Window.size_move]
  · split
    · rw [Window.size_addAt, Window.size_move]
    · split
      · rw [Window.size_addAt, Window.size_move]
      · rw [Window.size_move]

section

variable {limit : Nat} {s : Store} {keys : List Int} {r : KeyRange}

/-- Bins that are put together at their lower end hold the same keys. -/
theorem Holds.get_collapse (h : s.Holds limit keys r) {low high : Int} (hl : high + 1 = low + limit)
    (hh : r.high ≤ high) (key : Int) :
    (s.collapse low limit).get key = keys.countP fun x => max x low = key := by
  have hpos : 0 < limit := by
    have := h.low_le
    have := h.width
    omega
  have hbelow : ∀ x ∈ keys, r.low ≤ low ∨ r.low ≤ x := by
    intro x hx
    have hfull := h.full x hx
    omega
  unfold collapse
  rw [h.range]
  dsimp only
  split
  · rename_i hle
    rw [Window.get_addAt _ (by rw [Window.size_move]; exact hpos), Window.get_move,
      Window.get_empty, ite_self, Nat.zero_add, h.count]
    by_cases hk : key = low
    · rw [if_pos (by change key = low + 0; omega)]
      symm
      rw [List.countP_eq_length]
      intro x hx
      have hxh := h.le_high x hx
      rw [decide_eq_true_eq]
      omega
    · rw [if_neg (by change ¬ key = low + 0; omega)]
      symm
      rw [List.countP_eq_zero]
      intro x hx
      have hxh := h.le_high x hx
      rw [decide_eq_true_eq]
      omega
  · rename_i hgt
    split
    · rename_i hoff
      rw [Window.get_addAt _ (by rw [Window.size_move]; exact hpos), Window.get_move, h.get,
        Window.total_eq_countP h.get, ite_countP, ite_countP]
      symm
      apply countP_or
      intro x hx
      have hxh := h.le_high x hx
      have hxl := hbelow x hx
      change (_ ↔ _ ∨ key = low + 0 ∧ _) ∧ ¬ (_ ∧ key = low + 0 ∧ _)
      omega
    · rename_i hoff
      rw [Window.get_move, h.get, ite_countP]
      apply countP_iff
      intro x hx
      have hxh := h.le_high x hx
      have hxl := hbelow x hx
      have ho := h.offset_le
      omega

/-- The range may grow as far up as there are bins. -/
theorem Holds.grow (h : s.Holds limit keys r) {high : Int} (hh : r.high ≤ high)
    (hroom : high < s.window.offset + s.window.bins.size) :
    { s with keys := some ⟨r.low, high⟩ }.Holds limit keys ⟨r.low, high⟩ := by
  obtain ⟨hlimit, hcount, hrange, hlow, hwidth, hoff, hhigh, hsize, hcoll, hle, hfull, hget⟩ := h
  have hw : high < r.low + limit := by omega
  refine ⟨hlimit, hcount, rfl, Int.le_trans hlow hh, hw, hoff, hroom, hsize, ?_, ?_, ?_, hget⟩
  · intro hc
    obtain ⟨ho, hw⟩ := hcoll hc
    refine ⟨ho, ?_⟩
    dsimp only
    omega
  · intro x hx
    exact Int.le_trans (hle x hx) hh
  · intro x hx hlt
    have hxf := hfull x hx hlt
    dsimp only
    omega

/-- The lowest keys may be put together, if the range is as wide as the bins reach. -/
theorem Holds.put_together (h : s.Holds limit keys r) {low high : Int}
    (hl : high + 1 = low + limit) (hh : r.high ≤ high) :
    { s with window := s.collapse low limit, keys := some ⟨low, high⟩, collapsed := true }.Holds
      limit keys ⟨low, high⟩ := by
  have hpos : 0 < limit := by
    have := h.low_le
    have := h.width
    omega
  refine ⟨h.binLimit, h.count, rfl, ?_, ?_, ?_, ?_, ?_, fun _ => ⟨offset_collapse .., hl⟩, ?_,
    fun _ _ _ => hl, h.get_collapse hl hh⟩
  · dsimp only
    omega
  · dsimp only
    omega
  · exact Int.le_of_eq (offset_collapse ..)
  · rw [offset_collapse, size_collapse]
    dsimp only
    omega
  · exact Nat.le_of_eq (size_collapse ..)
  · intro x hx
    exact Int.le_trans (h.le_high x hx) hh

/-- The bins may be moved to a range that is wider but still fits. -/
theorem Holds.move (h : s.Holds limit keys r) {low high : Int} (offset : Int) (length : Nat)
    (hl : low ≤ r.low) (hh : r.high ≤ high) (hmore : low < r.low ∨ r.high < high)
    (hoff : offset ≤ low) (hroom : high < offset + length) (hlen : length ≤ limit)
    (hw : high < low + limit) :
    s.collapsed = false ∧
      { s with window := s.window.move offset length, keys := some ⟨low, high⟩ }.Holds
        limit keys ⟨low, high⟩ := by
  have hsize : (s.window.move offset length).bins.size = length := Window.size_move ..
  have hcoll : s.collapsed = false := by
    rw [← Bool.not_eq_true]
    intro hc
    have hfull := (h.collapsed hc).2
    omega
  have hall : ∀ x ∈ keys, low < r.low → r.low ≤ x := by
    intro x hx hlt
    have hfull := h.full x hx
    omega
  refine ⟨hcoll, h.binLimit, h.count, rfl, ?_, hw, hoff, ?_, ?_, ?_, ?_, ?_, ?_⟩
  · have hlow := h.low_le
    dsimp only
    omega
  · rw [hsize]
    exact hroom
  · rw [hsize]
    exact hlen
  · intro hc
    rw [hcoll] at hc
    cases hc
  · intro x hx
    exact Int.le_trans (h.le_high x hx) hh
  · intro x hx hlt
    have hxl := hall x hx
    have hxf := h.full x hx
    dsimp only at hlt ⊢
    omega
  · intro key
    rw [Window.get_move, h.get, ite_countP]
    apply countP_iff
    intro x hx
    have hxh := h.le_high x hx
    have hxl := hall x hx
    have hlow := h.low_le
    dsimp only
    omega

structure Widened (limit : Nat) (first second : Int) (r r' : KeyRange) (collapsed : Bool) : Prop where
  high : r'.high = max (max first second) r.high
  low : r'.low = max (min (min first second) r.low) (r'.high - limit + 1)
  kept : collapsed = false → r'.low = min (min first second) r.low

private theorem lengthFor_le (s : Store) (r : KeyRange) : s.lengthFor r ≤ s.binLimit :=
  Nat.min_le_right _ _

private theorem lengthFor_eq {s : Store} {r : KeyRange} (h : s.lengthFor r < r.width) :
    s.lengthFor r = s.binLimit := by
  unfold lengthFor at h ⊢
  omega

/-- A store that is made wider keeps what it has counted. -/
theorem Holds.widen (h : s.Holds limit keys r) (first second : Int) :
    ∃ r', (s.widen first second).Holds limit keys r' ∧
      Widened limit first second r r' (s.widen first second).collapsed := by
  have haround : KeyRange.around first second s.keys =
      ⟨min (min first second) r.low, max (max first second) r.high⟩ := by
    rw [h.range]
    unfold KeyRange.around
    rw [Int.min_assoc, Int.max_assoc]
  have hwidth := h.width
  have hoff := h.offset_le
  have hhigh := h.high_lt
  have hsize := h.size_le
  unfold Store.widen
  dsimp only
  rw [haround, h.range]
  dsimp only
  generalize hql : min (min first second) r.low = low
  generalize hqh : max (max first second) r.high = high
  have hl : low ≤ r.low := by omega
  have hh : r.high ≤ high := by omega
  split
  · rename_i hfits
    simp only [Bool.and_eq_true, decide_eq_true_eq] at hfits
    obtain ⟨hkeep, hroom⟩ := hfits
    have hsame : low = r.low := by omega
    subst hsame
    refine ⟨_, h.grow hh hroom, hqh.symm, ?_, fun _ => hql.symm⟩
    dsimp only
    omega
  · rename_i hfits
    simp only [Bool.and_eq_true, decide_eq_true_eq, not_and] at hfits
    have hlenle := lengthFor_le s ⟨low, high⟩
    have hleneq := lengthFor_eq (s := s) (r := ⟨low, high⟩)
    rw [h.binLimit] at hlenle hleneq
    generalize s.lengthFor ⟨low, high⟩ = length at hlenle hleneq
    have hw : (KeyRange.mk low high).width = (high - low + 1).toNat := rfl
    unfold adjust
    dsimp only
    split
    · rename_i hwide
      have hlength : max s.window.bins.size length = limit := by omega
      rw [hlength] at hwide ⊢
      refine ⟨_, h.put_together (by omega) hh, hqh.symm, ?_, fun hc => nomatch hc⟩
      dsimp only
      omega
    · rename_i hwide
      rw [hw] at hwide ⊢
      obtain ⟨hcoll, hmove⟩ := h.move
        (low + ((high - low + 1).toNat / 2 : Nat) - (max s.window.bins.size length / 2 : Nat))
        (max s.window.bins.size length) hl hh (by omega) (by omega) (by omega) (by omega) (by omega)
      refine ⟨_, hmove, hqh.symm, ?_, fun _ => hql.symm⟩
      dsimp only
      omega

end

end Store

end MetricCapture.Sketch
