import MetricCapture.Proofs.Replay.Acceptance
/-! Containers that are cut short: which frames are left whole, which one is cut, and what the reader
makes of it. -/
namespace MetricCapture.Replay

open MetricCapture.Source (ofBytes)

/-- The items that end within some room, where `ends i` is the place at which the item with number
`i` ends. -/
def endingWithin {α : Type} (ends : Nat → Nat) (room : Nat) (xs : List α) : List α :=
  (xs.zipIdx.filter fun x => ends x.2 ≤ room).map Prod.fst

theorem endingWithin_subset {α : Type} (ends : Nat → Nat) (room : Nat) (xs : List α) :
    endingWithin ends room xs ⊆ xs := by
  intro x hx
  obtain ⟨y, hy, rfl⟩ := List.mem_map.mp hx
  exact List.fst_mem_of_mem_zipIdx (List.mem_filter.mp hy).1

private theorem filter_zipIdx {α : Type} (xs : List α) (n k : Nat) :
    ((xs.zipIdx k).filter fun x => x.2 < n).map Prod.fst = xs.take (n - k) := by
  induction xs generalizing k with
  | nil => simp
  | cons x xs ih =>
    rw [List.zipIdx_cons]
    by_cases hk : k < n
    · obtain ⟨m, hm⟩ : ∃ m, n - k = m + 1 := ⟨n - k - 1, by omega⟩
      rw [List.filter_cons_of_pos (by simpa using hk), List.map_cons, ih, hm, List.take_succ_cons]
      congr 2
      omega
    · rw [List.filter_cons_of_neg (by simpa using hk), ih, Nat.sub_eq_zero_of_le (by omega),
        Nat.sub_eq_zero_of_le (by omega), List.take_zero, List.take_zero]

/-- Where the first `n` items and no others end within the room, these are all. -/
theorem endingWithin_eq_take {α : Type} {ends : Nat → Nat} {room n : Nat} {xs : List α}
    (h : ∀ i < xs.length, ends i ≤ room ↔ i < n) : endingWithin ends room xs = xs.take n := by
  have hsame : xs.zipIdx.filter (fun x => ends x.2 ≤ room) = xs.zipIdx.filter fun x => x.2 < n := by
    refine List.filter_congr fun x hx => ?_
    have hi := h x.2 (List.snd_lt_of_mem_zipIdx hx)
    simpa using hi
  rw [endingWithin, hsame, filter_zipIdx, Nat.sub_zero]

/-- Where the items end one behind the other, those that end within the room are the first. -/
theorem endingWithin_isPrefix {α : Type} {ends : Nat → Nat} (h : ∀ i j, i ≤ j → ends i ≤ ends j)
    (room : Nat) (xs : List α) : endingWithin ends room xs <+: xs := by
  have hfrom : ∀ k, ((xs.zipIdx k).filter fun x => ends x.2 ≤ room).map Prod.fst <+: xs := by
    induction xs with
    | nil => exact fun k => List.nil_prefix
    | cons x xs ih =>
      intro k
      rw [List.zipIdx_cons]
      by_cases hk : ends k ≤ room
      · rw [List.filter_cons_of_pos (by simpa using hk), List.map_cons]
        exact List.cons_prefix_cons.mpr ⟨rfl, ih (k + 1)⟩
      · have hnone : ((x, k) :: xs.zipIdx (k + 1)).filter (fun x => ends x.2 ≤ room) = [] := by
          refine List.filter_eq_nil_iff.mpr fun y hy => ?_
          have hle : k ≤ y.2 := by
            rcases List.mem_cons.mp hy with rfl | hy
            · exact Nat.le_refl _
            · exact Nat.le_of_succ_le (List.le_snd_of_mem_zipIdx hy)
          have hmono := h k y.2 hle
          simp only [decide_eq_true_eq]
          omega
        rw [hnone]
        exact List.nil_prefix
  exact hfrom 0

def placeBehind (cfg : Settings.Reader) (frames : List Frame) : Nat :=
  headerLength cfg + (frames.map Frame.span).sum

theorem placeBehind_segments (cfg : Settings.Reader) (segs : List Segment) :
    placeBehind cfg (segs.map Segment.frame) =
      headerLength cfg + (segs.flatMap Segment.bytes).length := by
  rw [placeBehind, List.length_flatMap, List.map_map]
  simp only [Function.comp_def, Segment.length_bytes]

namespace Container

def start (cfg : Settings.Reader) (c : Container) (i : Nat) : Nat :=
  placeBehind cfg ((c.segments.take i).map Segment.frame)

def within (cfg : Settings.Reader) (c : Container) (k : Nat) : List Segment :=
  endingWithin (fun i => c.start cfg (i + 1)) k c.segments

/-- A cut behind the first `k` bytes leaves the header of the frame with number `i`, but not all of
its body. -/
def Cuts (cfg : Settings.Reader) (c : Container) (k i : Nat) : Prop :=
  i < c.segments.length ∧ c.start cfg i + frameHeaderLength ≤ k ∧ k < c.start cfg (i + 1)

variable {cfg : Settings.Reader} {c : Container} {k : Nat}

theorem start_mono {i j : Nat} (h : i ≤ j) : c.start cfg i ≤ c.start cfg j := by
  have hpre : c.segments.take i <+: c.segments.take j := List.take_prefix_take_left h
  obtain ⟨more, hmore⟩ := hpre
  simp only [start, placeBehind_segments]
  rw [← hmore, List.flatMap_append, List.length_append]
  omega

theorem within_isPrefix (cfg : Settings.Reader) (c : Container) (k : Nat) :
    c.within cfg k <+: c.segments :=
  endingWithin_isPrefix (fun _ _ h => start_mono (Nat.succ_le_succ h)) k c.segments

/-- No more than one frame is cut. -/
theorem Cuts.unique {i j : Nat} (hi : c.Cuts cfg k i) (hj : c.Cuts cfg k j) : i = j := by
  have hle : ∀ {i j : Nat}, c.Cuts cfg k i → c.Cuts cfg k j → i ≤ j := by
    intro i j hi hj
    refine Nat.le_of_not_lt fun hlt => ?_
    have hmono : c.start cfg (j + 1) ≤ c.start cfg i := start_mono hlt
    have := hi.2.1
    have := hj.2.2
    omega
  exact Nat.le_antisymm (hle hi hj) (hle hj hi)

end Container

/-- The first bytes of some frames are whole frames and, if it does not end with them, the beginning
of the next. -/
private theorem exists_take_segments (segs : List Segment) (room : Nat) :
    ∃ (whole more : List Segment) (rest : Bytes), segs = whole ++ more ∧
      (segs.flatMap Segment.bytes).take room = whole.flatMap Segment.bytes ++ rest ∧
      (whole.flatMap Segment.bytes).length ≤ room ∧
      (more = [] ∧ rest = [] ∨ ∃ s others, more = s :: others ∧
        rest = s.bytes.take (room - (whole.flatMap Segment.bytes).length) ∧
        room - (whole.flatMap Segment.bytes).length < s.bytes.length) := by
  induction segs generalizing room with
  | nil => exact ⟨[], [], [], rfl, by simp, Nat.zero_le _, .inl ⟨rfl, rfl⟩⟩
  | cons s segs ih =>
    by_cases hroom : room < s.bytes.length
    · refine ⟨[], s :: segs, s.bytes.take room, rfl, ?_, Nat.zero_le _, .inr ⟨s, segs, rfl, rfl, hroom⟩⟩
      rw [List.flatMap_cons, List.take_append_of_le_length (Nat.le_of_lt hroom)]
      rfl
    · obtain ⟨whole, more, rest, rfl, htake, hle, hrest⟩ := ih (room - s.bytes.length)
      refine ⟨s :: whole, more, rest, rfl, ?_, ?_, ?_⟩
      · rw [List.flatMap_cons, List.take_append, List.take_of_length_le (Nat.le_of_not_lt hroom), htake,
          List.flatMap_cons, List.append_assoc]
      · rw [List.flatMap_cons, List.length_append]
        omega
      · rw [List.flatMap_cons, List.length_append, Nat.add_comm, Nat.sub_add_eq,
          Nat.sub_right_comm]
        exact hrest

/-- Where the header of a frame is cut, the frames end cleanly. -/
private theorem tail_of_take {s : Segment} {n : Nat} (h : n < frameHeaderLength) :
    Tail (s.bytes.take n) := by
  refine .inl (Nat.lt_of_le_of_lt ?_ h)
  rw [List.length_take]
  exact Nat.min_le_left ..

/-- Where its body is cut, the frame cannot be read. -/
private theorem beginsFault_of_take {limit n : Nat} {s : Segment} (h : s.Valid limit)
    (hheader : frameHeaderLength ≤ n) (hbody : n < s.bytes.length) :
    BeginsFault limit (s.bytes.take n) := by
  have hlen : (s.bytes.take n).length = n := by
    rw [List.length_take]
    exact Nat.min_eq_left (Nat.le_of_lt hbody)
  have hhead : (s.bytes.take n).take frameHeaderLength =
      frameHeader s.timestamp s.outOfBand.length s.payload.length := by
    rw [List.take_take, Nat.min_eq_left hheader, Segment.bytes]
    exact List.take_left' (length_frameHeader ..)
  rw [BeginsFault, hhead, ofBytes_frameHeader h.timestamp h.outOfBand h.payload]
  refine ⟨by omega, ?_, .inr ?_⟩
  · simpa only [List.length_eq_zero_iff] using h.nonempty
  · rw [Segment.length_bytes, Segment.frame, Frame.span] at hbody
    rw [List.length_drop, hlen]
    dsimp only at hbody ⊢
    omega

/-- The first bytes of a container, where its frames are cut as given. -/
private theorem take_bytes {cfg : Settings.Reader} {c : Container} {k : Nat} (h : c.WellFormed cfg)
    (ht : c.tail = []) (hk : headerLength cfg ≤ k) {body : Bytes}
    (hbody : (c.segments.flatMap Segment.bytes).take (k - headerLength cfg) = body) :
    (c.bytes cfg).take k = cfg.replayMarker ++ (c.version :: (c.padding ++ body)) := by
  have hheader : (cfg.replayMarker ++ (c.version :: c.padding)).length = headerLength cfg := by
    rw [List.length_append, List.length_cons, h.padding]
    rfl
  have hassoc : ∀ body : Bytes, cfg.replayMarker ++ (c.version :: (c.padding ++ body)) =
      cfg.replayMarker ++ (c.version :: c.padding) ++ body := by simp
  rw [Container.bytes, ht, List.append_nil, hassoc, hassoc, List.take_append,
    List.take_of_length_le (by omega), hheader, hbody]

namespace Container

variable {cfg : Settings.Reader} {c : Container} {k : Nat} {whole more : List Segment}

theorem start_whole (cfg : Settings.Reader) (h : c.segments = whole ++ more) :
    c.start cfg whole.length = headerLength cfg + (whole.flatMap Segment.bytes).length := by
  rw [start, placeBehind_segments, h, List.take_left]

/-- Whole frames end where the next begins. -/
theorem start_next {s : Segment} (h : c.segments = whole ++ s :: more) :
    c.start cfg (whole.length + 1) = c.start cfg whole.length + s.bytes.length := by
  have hsnoc : c.segments = (whole ++ [s]) ++ more := by
    rw [h, List.append_assoc]
    rfl
  have hstart := start_whole cfg hsnoc
  rw [List.length_append, List.length_singleton, List.flatMap_append, List.length_append,
    List.flatMap_singleton] at hstart
  rw [hstart, start_whole cfg h, Nat.add_assoc]

/-- Frames up to the first that is not whole are those within the bytes left. -/
theorem within_eq (h : c.segments = whole ++ more) (hle : c.start cfg whole.length ≤ k)
    (hlt : more ≠ [] → k < c.start cfg (whole.length + 1)) : c.within cfg k = whole := by
  have hends : ∀ i < c.segments.length, c.start cfg (i + 1) ≤ k ↔ i < whole.length := by
    intro i hi
    constructor
    · intro hend
      refine Nat.lt_of_not_le fun hge => ?_
      have hmore : more ≠ [] := by
        rintro rfl
        rw [h, List.append_nil] at hi
        exact Nat.not_lt_of_le hge hi
      have := hlt hmore
      have hmono : c.start cfg (whole.length + 1) ≤ c.start cfg (i + 1) := start_mono (by omega)
      omega
    · intro hi
      exact Nat.le_trans (start_mono hi) hle
  rw [within, endingWithin_eq_take hends, h, List.take_left]

end Container

/-- A cut leaves whole frames and, behind them, nothing, a part of a header, or a header and not all
that it claims. -/
private theorem exists_rest {cfg : Settings.Reader} {c : Container} {k : Nat} (h : c.WellFormed cfg)
    (ht : c.tail = []) (hk : headerLength cfg ≤ k) :
    ∃ rest : Bytes,
      (c.bytes cfg).take k = cfg.replayMarker ++ (c.version :: (c.padding ++
        ((c.within cfg k).flatMap Segment.bytes ++ rest))) ∧
      (∀ s ∈ c.within cfg k, s.Valid cfg.payloadLimit) ∧
      c.start cfg (c.within cfg k).length =
        headerLength cfg + ((c.within cfg k).flatMap Segment.bytes).length ∧
      ((∀ i, ¬ c.Cuts cfg k i) ∧ Tail rest ∨
        c.Cuts cfg k (c.within cfg k).length ∧ BeginsFault cfg.payloadLimit rest) := by
  obtain ⟨whole, more, rest, hsegs, htake, hle, hrest⟩ :=
    exists_take_segments c.segments (k - headerLength cfg)
  have hstart := Container.start_whole cfg hsegs
  have hends : ∀ {i}, i < whole.length → c.start cfg (i + 1) ≤ k := by
    intro i hi
    have hmono : c.start cfg (i + 1) ≤ c.start cfg whole.length := Container.start_mono hi
    omega
  have hwithin : c.within cfg k = whole := by
    refine Container.within_eq hsegs (by omega) fun hmore => ?_
    rcases hrest with ⟨hnil, _⟩ | ⟨s, others, rfl, _, hlt⟩
    · exact absurd hnil hmore
    · rw [Container.start_next hsegs]
      omega
  rw [hwithin]
  refine ⟨rest, take_bytes h ht hk htake, fun s hs => ?_, hstart, ?_⟩
  · exact h.segments s (hsegs ▸ List.mem_append_left more hs)
  rcases hrest with ⟨rfl, rfl⟩ | ⟨s, others, rfl, rfl, hlt⟩
  · refine .inl ⟨fun i hi => ?_, .inl (Nat.succ_pos 15)⟩
    have hi' : i < whole.length := by simpa [hsegs] using hi.1
    exact absurd (hends hi') (Nat.not_le_of_lt hi.2.2)
  by_cases hheader : k - headerLength cfg - (whole.flatMap Segment.bytes).length < frameHeaderLength
  · refine .inl ⟨fun i hi => ?_, tail_of_take hheader⟩
    have hge : whole.length ≤ i :=
      Nat.le_of_not_lt fun hlt => absurd (hends hlt) (Nat.not_le_of_lt hi.2.2)
    have hmono : c.start cfg whole.length ≤ c.start cfg i := Container.start_mono hge
    have := hi.2.1
    omega
  · have hs : s.Valid cfg.payloadLimit :=
      h.segments s (hsegs ▸ List.mem_append_right whole List.mem_cons_self)
    refine .inr ⟨⟨by simp [hsegs], by omega, ?_⟩, beginsFault_of_take hs (by omega) hlt⟩
    rw [Container.start_next hsegs]
    omega

/-- A container cut short gives the frames that are left whole. It fails where a frame is cut behind
its header, and else ends cleanly. -/
theorem frames_take {cfg : Settings.Reader} {c : Container} {k : Nat} (h : c.WellFormed cfg)
    (ht : c.tail = []) (hk : headerLength cfg ≤ k) (hz : cfg.Leaves ((c.bytes cfg).take k)) :
    ((ofBytes ((c.bytes cfg).take k)).frames cfg).1 = (c.within cfg k).map Segment.frame ∧
      ((∀ i, ¬ c.Cuts cfg k i) ∧
          ((ofBytes ((c.bytes cfg).take k)).frames cfg).2.error? = none ∨
        ∃ i, c.Cuts cfg k i ∧ ∃ f : FramingFault, f.offset = c.start cfg i ∧
          ((ofBytes ((c.bytes cfg).take k)).frames cfg).2.error? = some (.framing f)) := by
  obtain ⟨rest, hbytes, hvalid, hstart, hrest⟩ := exists_rest h ht hk
  rw [frames_ofBytes hz, hbytes, framesAfterHeader_accepted h.padding h.version]
  rcases hrest with ⟨hno, htail⟩ | ⟨hcut, hfault⟩
  · obtain ⟨how, hread, hclean⟩ := readFrames_grammar (headerLength cfg) hvalid htail
    rw [hread]
    exact ⟨rfl, .inl ⟨hno, hclean⟩⟩
  · obtain ⟨f, hoffset, hread⟩ := readFrames_fault (headerLength cfg) hvalid hfault
    rw [hread]
    exact ⟨rfl, .inr ⟨_, hcut, f, hoffset.trans hstart.symm, rfl⟩⟩

end MetricCapture.Replay
