import MetricCapture.Proofs.Sketch.Room
/-! Sound sketches: after any calls there is a bin for every key that a value can have, and for every key
that a merge counts. So a sketch takes in all that its scale accepts. -/
namespace MetricCapture.Sketch

open MetricCapture.Number

namespace Store

structure Spans (s : Store) (r : KeyRange) : Prop where
  range : s.keys = some r
  low_le : r.low ≤ r.high
  offset_le : s.window.offset ≤ r.low
  high_lt : r.high < s.window.offset + s.window.bins.size

structure Sound (s : Store) : Prop where
  binLimit_pos : 0 < s.binLimit
  spans : ∀ r, s.keys = some r → s.Spans r

/-- The store that a key is counted in: made wider unless the key is within the range, or below the range
of a collapsed store. -/
def reach (s : Store) (key : Int) : Store :=
  if (s.below key && !s.collapsed) || s.above key then s.widen key key else s

def position (s : Store) (key : Int) : Int :=
  if s.below key && (s.reach key).collapsed then 0 else key - (s.reach key).window.offset

theorem add_eq (s : Store) (key : Int) :
    s.add key =
      { s.reach key with
        window := (s.reach key).window.addAt (s.position key).toNat 1
        count := (s.reach key).count + 1 } := by
  have hposition : (s.position key).toNat = if s.below key && (s.reach key).collapsed then 0
      else (key - (s.reach key).window.offset).toNat := by
    unfold position
    split <;> rfl
  rw [hposition]
  rfl

variable {s t : Store}

theorem Spans.sound {r : KeyRange} (h : s.Spans r) (hpos : 0 < s.binLimit) : s.Sound := by
  refine ⟨hpos, fun r' hr' => ?_⟩
  cases h.range.symm.trans hr'
  exact h

theorem Represents.sound {limit : Nat} {keys : List Int} (hl : 0 < limit)
    (h : s.Represents limit keys) : s.Sound := by
  rcases h with ⟨_, rfl⟩ | ⟨r, _, hr⟩
  · exact ⟨hl, nofun⟩
  · have hspans : s.Spans r := ⟨hr.range, hr.low_le, hr.offset_le, hr.high_lt⟩
    exact hspans.sound (hr.binLimit.symm ▸ hl)

/-- Bins that are moved to a range have room for it, or for its upper end. -/
theorem spans_adjust {length : Nat} (hlength : 0 < length) {r : KeyRange} (hr : r.low ≤ r.high) :
    ∃ r', (s.adjust length r).Spans r' ∧ r'.high = r.high ∧
      ((s.adjust length r).collapsed = true ∨ r'.low = r.low) := by
  have hwidth : (r.width : Int) = r.high - r.low + 1 := by
    unfold KeyRange.width
    omega
  unfold adjust
  split
  · refine ⟨_, ⟨rfl, ?_, ?_, ?_⟩, rfl, .inl rfl⟩
    · dsimp only
      omega
    · exact Int.le_of_eq (offset_collapse ..)
    · rw [offset_collapse, size_collapse]
      dsimp only
      omega
  · refine ⟨_, ⟨rfl, hr, ?_, ?_⟩, rfl, .inr rfl⟩
    · change r.low + (r.width / 2 : Nat) - (length / 2 : Nat) ≤ r.low
      omega
    · rw [Window.size_move]
      change r.high < r.low + (r.width / 2 : Nat) - (length / 2 : Nat) + length
      omega

/-- A store is made wider within its bins, or the bins are moved. -/
theorem widen_cases (s : Store) (first second : Int) :
    (∃ r, s.keys = some r ∧ r.low ≤ (KeyRange.around first second s.keys).low ∧
      (KeyRange.around first second s.keys).high < s.window.offset + s.window.bins.size ∧
      s.widen first second = { s with keys := some (.around first second s.keys) }) ∨
    s.widen first second =
      s.adjust (max s.window.bins.size (s.lengthFor (.around first second s.keys)))
        (.around first second s.keys) := by
  unfold Store.widen
  dsimp only
  cases s.keys with
  | none => exact .inr rfl
  | some r =>
    dsimp only
    split
    · rename_i hfits
      simp only [Bool.and_eq_true, decide_eq_true_eq] at hfits
      exact .inl ⟨r, rfl, hfits.1, hfits.2, rfl⟩
    · exact .inr rfl

theorem around_bounds (first second : Int) (keys : Option KeyRange) :
    (KeyRange.around first second keys).low ≤ min first second ∧
      max first second ≤ (KeyRange.around first second keys).high := by
  unfold KeyRange.around
  split
  · exact ⟨Int.le_refl _, Int.le_refl _⟩
  · dsimp only
    omega

/-- A store that is made wider for two keys reaches up as far as it has to, and down to both unless it is
collapsed. -/
theorem Sound.widen (h : s.Sound) (first second : Int) :
    (s.widen first second).Sound ∧ ∃ r, (s.widen first second).Spans r ∧
      r.high = (KeyRange.around first second s.keys).high ∧
      ((s.widen first second).collapsed = true ∨ r.low ≤ min first second) := by
  have hpos := h.binLimit_pos
  obtain ⟨hlow, hhigh⟩ := around_bounds first second s.keys
  have haround : (KeyRange.around first second s.keys).low ≤
      (KeyRange.around first second s.keys).high := by omega
  rcases widen_cases s first second with ⟨r, hr, hkeep, hroom, he⟩ | he
  · have hwide : Spans { s with keys := some (.around first second s.keys) }
        (.around first second s.keys) :=
      ⟨rfl, haround, Int.le_trans (h.spans r hr).offset_le hkeep, hroom⟩
    rw [he]
    exact ⟨hwide.sound hpos, _, hwide, rfl, .inr hlow⟩
  · have hlength : 0 < max s.window.bins.size (s.lengthFor (.around first second s.keys)) := by
      unfold lengthFor KeyRange.width
      omega
    obtain ⟨r, hspans, hupper, hlower⟩ := s.spans_adjust hlength haround
    rw [he]
    refine ⟨hspans.sound (by rwa [binLimit_adjust]), r, hspans, hupper, hlower.imp id fun h => ?_⟩
    rwa [h]

/-- A key above the range of a store is the upper end of the one that is made wider for it. -/
theorem around_high_of_above {key : Int} (habove : s.above key = true) :
    (KeyRange.around key key s.keys).high = key := by
  unfold KeyRange.around
  cases hkeys : s.keys with
  | none => exact Int.max_self key
  | some r =>
    rw [above_of_range hkeys, decide_eq_true_eq] at habove
    dsimp only
    omega

/-- Every key finds a bin, which is that of the key itself unless it lies below the range of a collapsed
store. -/
theorem Sound.reach (h : s.Sound) (key : Int) :
    (s.reach key).Sound ∧ 0 ≤ s.position key ∧
      s.position key < (s.reach key).window.bins.size := by
  unfold position Store.reach
  split
  · rename_i hwide
    obtain ⟨hsound, r, hspans, hhigh, hlow⟩ := h.widen key key
    have hfirst := hspans.offset_le
    have hlast := hspans.high_lt
    have hle := hspans.low_le
    refine ⟨hsound, ?_⟩
    split
    · omega
    · rename_i hown
      have hup := (around_bounds key key s.keys).2
      -- A key that is not below the range is above it, and the range ends with it.
      have hdown : r.low ≤ key ∨ r.high = key := by
        rcases hlow with hcollapsed | hlow
        · rw [hcollapsed, Bool.and_true] at hown
          rw [Bool.eq_false_iff.mpr hown, Bool.false_and, Bool.false_or] at hwide
          exact .inr (hhigh.trans (around_high_of_above hwide))
        · omega
      omega
  · rename_i hkeep
    refine ⟨h, ?_⟩
    cases hkeys : s.keys with
    | none => simp [above, hkeys] at hkeep
    | some r =>
      have hspans := h.spans r hkeys
      have hfirst := hspans.offset_le
      have hlast := hspans.high_lt
      have hle := hspans.low_le
      rw [below_of_range hkeys, above_of_range hkeys] at hkeep
      rw [below_of_range hkeys]
      split
      · omega
      · rename_i hown
        have hin : r.low ≤ key ∧ key ≤ r.high := by
          cases hcollapsed : s.collapsed <;> simp [hcollapsed] at hkeep hown <;> omega
        omega

/-- A store that is made wider for another one reaches up to all of its keys, and down to them unless it is
collapsed. -/
theorem Sound.widenFor (h : s.Sound) (r : KeyRange) (hr : r.low ≤ r.high) : (s.widenFor r).Sound ∧
    ∃ r', (s.widenFor r).Spans r' ∧ r.high ≤ r'.high ∧
      ((s.widenFor r).collapsed = true ∨ r'.low ≤ r.low) := by
  unfold Store.widenFor
  split
  · obtain ⟨hsound, r', hspans, hhigh, hlow⟩ := h.widen r.low r.high
    have hup := (around_bounds r.low r.high s.keys).2
    exact ⟨hsound, r', hspans, by omega, hlow.imp id fun h => by omega⟩
  · rename_i hin
    cases hkeys : s.keys with
    | none => simp [below, hkeys] at hin
    | some r' =>
      rw [below_of_range hkeys, above_of_range hkeys] at hin
      simp only [Bool.or_eq_true, decide_eq_true_eq, not_or] at hin
      exact ⟨h, r', h.spans r' hkeys, by omega, .inr (by omega)⟩

/-- Every key that a merge counts on its own finds its bin. -/
theorem Sound.covers_widenFor (h : s.Sound) {r : KeyRange} (hr : r.low ≤ r.high) {key : Int}
    (hlow : max r.low (min ((s.widenFor r).keys.getD r).low (r.high + 1)) ≤ key) (hhigh : key ≤ r.high) :
    (s.widenFor r).window.Covers key := by
  obtain ⟨_, r', hspans, hup, _⟩ := h.widenFor r hr
  have hfirst := hspans.offset_le
  have hlast := hspans.high_lt
  rw [hspans.range, Option.getD_some] at hlow
  unfold Window.Covers
  omega

theorem offset_foldl_addAt (position : Int → Nat) (count : Int → Nat) (keys : List Int) (w : Window) :
    (keys.foldl (fun w key => w.addAt (position key) (count key)) w).offset = w.offset := by
  induction keys generalizing w with
  | nil => rfl
  | cons key keys ih => exact ih _

/-- Other counts in the bins leave a store sound. -/
theorem Sound.recount (h : s.Sound) {w : Window} (hoffset : w.offset = s.window.offset)
    (hsize : w.bins.size = s.window.bins.size) (n : Nat) :
    Sound { s with window := w, count := n } := by
  refine ⟨h.binLimit_pos, fun r hr => ?_⟩
  obtain ⟨hrange, hle, hfirst, hlast⟩ := h.spans r hr
  refine ⟨hrange, hle, ?_, ?_⟩
  · rwa [hoffset]
  · rwa [hoffset, hsize]

theorem Sound.add (h : s.Sound) (key : Int) : (s.add key).Sound := by
  rw [add_eq]
  exact (h.reach key).1.recount (Window.offset_addAt ..) (Window.size_addAt ..) _

/-- Counting for some keys leaves a store sound. -/
theorem Sound.foldl_addAt (h : s.Sound) {w : Window} (hoffset : w.offset = s.window.offset)
    (hsize : w.bins.size = s.window.bins.size) (position : Int → Nat) (count : Int → Nat)
    (keys : List Int) (n : Nat) :
    Sound { s with
      window := keys.foldl (fun w key => w.addAt (position key) (count key)) w, count := n } :=
  h.recount ((offset_foldl_addAt ..).trans hoffset) ((size_foldl_addAt ..).trans hsize) n

theorem Sound.merge (h : s.Sound) (h' : t.Sound) : (s.merge t).Sound := by
  unfold Store.merge
  split
  · exact h
  rename_i r hr
  split
  · exact h'
  · obtain ⟨hwide, _⟩ := h.widenFor r (h'.spans r hr).low_le
    exact hwide.foldl_addAt (Window.offset_addAt ..) (Window.size_addAt ..) _ _ _ _

structure HasRoom (s : Store) : Prop where
  /-- A key that is added finds one, however many keys are added before. -/
  add : ∀ (keys : List Int) (key : Int), 0 ≤ (keys.foldl Store.add s).position key ∧
    (keys.foldl Store.add s).position key < ((keys.foldl Store.add s).reach key).window.bins.size
  /-- So does each key of another store that a merge counts on its own. -/
  merge : ∀ r : KeyRange, r.low ≤ r.high → ∀ key,
    max r.low (min ((s.widenFor r).keys.getD r).low (r.high + 1)) ≤ key → key ≤ r.high →
      (s.widenFor r).window.Covers key

theorem Sound.hasRoom (h : s.Sound) : s.HasRoom := by
  refine ⟨fun keys key => ?_, fun r hr key => h.covers_widenFor hr⟩
  have hsound : (keys.foldl Store.add s).Sound := by
    induction keys generalizing s with
    | nil => exact h
    | cons first keys ih => exact ih (h.add first)
  exact (hsound.reach key).2

end Store

structure Sound (accuracy : Float) (s : Sketch) : Prop where
  mapping_eq : s.mapping = .ofAccuracy accuracy
  stores : s.Both Store.Sound

variable {accuracy : Float} {s t : Sketch}

/-- What a sketch is that has taken in some values is sound. -/
theorem Represents.sound {limit : Nat} {xs : List Float} (hl : 0 < limit)
    (h : s.Represents accuracy limit xs) : s.Sound accuracy :=
  ⟨h.mapping_eq, h.positive.sound hl, h.negative.sound hl⟩

theorem Sound.add (h : s.Sound accuracy) {x : Float} (hok : s.add x = .ok t) : t.Sound accuracy := by
  refine ⟨?_, h.stores.add (fun _ key hu => hu.add key) hok⟩
  rw [← h.mapping_eq]
  exact congrArg (·.2.2) (make_add hok)

theorem Sound.merge (h : s.Sound accuracy) (h' : t.Sound accuracy) {m : Sketch}
    (hok : s.merge t = .ok m) : m.Sound accuracy := by
  refine ⟨?_, h.stores.merge (fun _ _ hu hv => hu.merge hv) h'.stores hok⟩
  rw [← h.mapping_eq]
  exact congrArg (·.2.2) (make_merge hok)

end MetricCapture.Sketch
