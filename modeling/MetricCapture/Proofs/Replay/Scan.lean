import MetricCapture.Proofs.Replay.Grammar
/-! Reading a container of plain bytes follows the grammar: a frame is read where one stands, the
frames end cleanly at a tail, and anything else is a fault. -/
namespace MetricCapture.Replay
open MetricCapture.Source (ofBytes)

/-- Plain bytes are passed over as far as they suffice. -/
theorem skip_ofBytes (bs : Bytes) (n : Nat) :
    skip (ofBytes bs) n = .ok (min n bs.length, ofBytes (bs.drop n)) := by
  induction n using Nat.strongRecOn generalizing bs with
  | ind n ih =>
    rw [skip]
    split
    · rename_i hn
      subst hn
      rw [Nat.zero_min]
      rfl
    rename_i hn
    have hstep : 0 < min skipStep n := by
      unfold skipStep
      omega
    rw [Source.read_ofBytes]
    dsimp only
    split
    · rename_i hnone
      rw [(List.take_eq_nil_iff.mp hnone).resolve_left (by omega), List.drop_nil, List.drop_nil,
        List.length_nil, Nat.min_zero]
    · rename_i hsome
      have hpos := List.length_pos_iff.mpr hsome
      rw [List.length_take] at hpos ⊢
      rw [ih _ (by omega)]
      simp only [Except.map, List.drop_drop, List.length_drop]
      -- Either the step is taken in full, or nothing is left behind it.
      by_cases hfull : min skipStep n ≤ bs.length
      · rw [Nat.min_eq_left hfull, show min skipStep n + (n - min skipStep n) = n by omega,
          show min skipStep n + min (n - min skipStep n) (bs.length - min skipStep n) =
            min n bs.length by omega]
      · rw [List.drop_eq_nil_of_le (show bs.length ≤ n by omega), List.drop_eq_nil_of_le (by omega),
          show min (min skipStep n) bs.length + min (n - min (min skipStep n) bs.length)
            (bs.length - min skipStep n) = min n bs.length by omega]

/-- The body of a frame, as far as the bytes suffice. -/
theorem readBody_ofBytes (limit offset : Nat) (h : FrameHeader) (bs : Bytes) :
    readBody limit offset h (ofBytes bs) =
      if limit < h.payload then .stop (.failed (.framing (.overLimit offset h.payload limit)))
      else if bs.length < h.outOfBand then
        .stop (.failed (.framing (.shortOutOfBand offset h.outOfBand bs.length)))
      else if bs.length - h.outOfBand < h.payload then
        .stop (.failed (.framing (.shortPayload offset h.payload (bs.length - h.outOfBand))))
      else
        .frame ⟨h.timestamp, h.outOfBand, h.payload, (bs.drop h.outOfBand).take h.payload⟩
          (ofBytes (bs.drop (h.outOfBand + h.payload))) := by
  unfold readBody
  split
  · rfl
  · simp only [skip_ofBytes, Source.read_ofBytes, List.length_take, List.length_drop, List.drop_drop]
    by_cases ho : bs.length < h.outOfBand
    · rw [if_pos (by omega), if_pos ho, Nat.min_eq_right (by omega)]
    · rw [if_neg (by omega), if_neg ho]
      by_cases hp : bs.length - h.outOfBand < h.payload
      · rw [if_pos (by omega), if_pos hp, Nat.min_eq_right (by omega)]
      · rw [if_neg (by omega), if_neg hp]

/-- One frame of plain bytes, as far as they suffice. -/
theorem readFrame_ofBytes (limit offset : Nat) (bs : Bytes) :
    readFrame limit offset (ofBytes bs) =
      if bs.length < 16 then .stop (.exhausted bs.length offset)
      else
        let h := FrameHeader.ofBytes (bs.take 16)
        if h.outOfBand = 0 ∧ h.payload = 0 then .stop (.separator (offset + 16))
        else readBody limit offset h (ofBytes (bs.drop 16)) := by
  unfold readFrame
  simp only [Source.read_ofBytes, List.length_take, frameHeaderLength, Bool.and_eq_true,
    decide_eq_true_eq]
  by_cases h : bs.length < 16
  · rw [if_pos (by omega), if_pos h, Nat.min_eq_right (by omega)]
  · rw [if_neg (by omega), if_neg h]

/-- A frame that stands in front is read, and what stands behind it is left. -/
theorem readFrame_segment {limit : Nat} (offset : Nat) {s : Segment} (rest : Bytes)
    (h : s.Valid limit) :
    readFrame limit offset (ofBytes (s.bytes ++ rest)) = .frame s.frame (ofBytes rest) := by
  have htake : (s.bytes ++ rest).take 16 =
      frameHeader s.timestamp s.outOfBand.length s.payload.length := by
    rw [Segment.bytes, List.append_assoc, List.take_left' (length_frameHeader ..)]
  have hdrop : (s.bytes ++ rest).drop 16 = s.outOfBand ++ (s.payload ++ rest) := by
    rw [Segment.bytes, List.append_assoc, List.drop_left' (length_frameHeader ..),
      List.append_assoc]
  have hlen : ¬ (s.bytes ++ rest).length < 16 := by
    simp only [Segment.bytes, List.length_append, length_frameHeader]
    omega
  have hsome : ¬ (s.outOfBand.length = 0 ∧ s.payload.length = 0) := by
    simpa only [List.length_eq_zero_iff] using h.nonempty
  have hlimit := h.limit
  rw [readFrame_ofBytes, if_neg hlen, htake,
    ofBytes_frameHeader h.timestamp h.outOfBand h.payload]
  dsimp only
  rw [if_neg hsome, hdrop, readBody_ofBytes]
  dsimp only
  rw [if_neg (by omega), if_neg (by simp), if_neg (by simp only [List.length_append]; omega),
    List.drop_left, List.take_left, ← List.drop_drop, List.drop_left, List.drop_left]
  rfl

/-- At a tail the frames end, and not by a fault. -/
theorem readFrame_tail (limit offset : Nat) {bs : Bytes} (h : Tail bs) :
    ∃ how, readFrame limit offset (ofBytes bs) = .stop how ∧ how.error? = none := by
  rw [readFrame_ofBytes]
  rcases h with hshort | hsep
  · exact ⟨_, if_pos hshort, rfl⟩
  · have hlong : 16 ≤ bs.length := hsep.1
    refine ⟨.separator (offset + 16), ?_, rfl⟩
    rw [if_neg (by omega)]
    exact if_pos ((beginsSeparator_iff hlong).mp hsep)

/-- A header and enough bytes behind it are a frame. -/
private theorem exists_segment {limit : Nat} {bs : Bytes} {h : FrameHeader} (hlen : 16 ≤ bs.length)
    (hh : FrameHeader.ofBytes (bs.take 16) = h) (hsome : ¬ (h.outOfBand = 0 ∧ h.payload = 0))
    (hlimit : h.payload ≤ limit) (hbody : h.outOfBand + h.payload ≤ (bs.drop 16).length) :
    ∃ (s : Segment) (rest : Bytes), s.Valid limit ∧ bs = s.bytes ++ rest := by
  have h16 : (bs.take 16).length = 16 := by
    rw [List.length_take]
    exact Nat.min_eq_left hlen
  obtain ⟨ht, ho, hp⟩ := ofBytes_bounds h16
  have hheader := frameHeader_ofBytes h16
  rw [hh] at ht ho hp hheader
  have lo : ((bs.drop 16).take h.outOfBand).length = h.outOfBand := by
    rw [List.length_take]
    omega
  have lp : (((bs.drop 16).drop h.outOfBand).take h.payload).length = h.payload := by
    rw [List.length_take, List.length_drop]
    omega
  refine ⟨⟨h.timestamp, (bs.drop 16).take h.outOfBand, ((bs.drop 16).drop h.outOfBand).take h.payload⟩,
    ((bs.drop 16).drop h.outOfBand).drop h.payload,
    ⟨ht, by rw [lo]; exact ho, by rw [lp]; exact hp, ?_, by rw [lp]; exact hlimit⟩, ?_⟩
  · rw [← List.length_eq_zero_iff, ← List.length_eq_zero_iff, lo, lp]
    exact hsome
  · rw [Segment.bytes, lo, lp, hheader, List.append_assoc, List.append_assoc,
      List.take_append_drop, List.take_append_drop, List.take_append_drop]

/-- Whatever is no tail begins with a frame, or with one that cannot be read. -/
theorem segment_or_tail_or_fault (limit : Nat) (bs : Bytes) :
    (∃ (s : Segment) (rest : Bytes), s.Valid limit ∧ bs = s.bytes ++ rest) ∨ Tail bs ∨
      BeginsFault limit bs := by
  by_cases hlen : bs.length < 16
  · exact .inr (.inl (.inl hlen))
  generalize hh : FrameHeader.ofBytes (bs.take 16) = h
  by_cases hzero : h.outOfBand = 0 ∧ h.payload = 0
  · exact .inr (.inl (.inr ((beginsSeparator_iff (by omega)).mpr (hh ▸ hzero))))
  by_cases hclaims : limit < h.payload ∨ (bs.drop 16).length < h.outOfBand + h.payload
  · exact .inr (.inr ⟨Nat.le_of_not_lt hlen, by rwa [frameHeaderLength, hh],
      by rwa [frameHeaderLength, hh]⟩)
  · exact .inl (exists_segment (by omega) hh hzero (by omega) (by omega))

/-- A frame that cannot be read is told by an error with its place. -/
theorem readFrame_fault {limit : Nat} (offset : Nat) {bs : Bytes} (h : BeginsFault limit bs) :
    ∃ f : FramingFault, f.offset = offset ∧
      readFrame limit offset (ofBytes bs) = .stop (.failed (.framing f)) := by
  obtain ⟨hlen, hsome, hclaims⟩ := h
  rw [frameHeaderLength] at hlen hsome hclaims
  rw [readFrame_ofBytes, if_neg (Nat.not_lt_of_le hlen)]
  dsimp only
  rw [if_neg hsome, readBody_ofBytes]
  split
  · exact ⟨_, rfl, rfl⟩
  · split
    · exact ⟨_, rfl, rfl⟩
    · rw [if_pos (by omega)]
      exact ⟨_, rfl, rfl⟩

theorem readFrames_stop {limit offset : Nat} {done : List Frame} {s : Source} {how : FrameEnd}
    (h : readFrame limit offset s = .stop how) :
    readFrames limit offset done s = (done.reverse, how) := by
  rw [readFrames]
  split
  · rename_i how' h'
    rw [h] at h'
    cases h'
    rfl
  · rename_i f rest h'
    rw [h] at h'
    cases h'

theorem readFrames_frame {limit offset : Nat} {done : List Frame} {s rest : Source} {f : Frame}
    (h : readFrame limit offset s = .frame f rest) :
    readFrames limit offset done s = readFrames limit (offset + f.span) (f :: done) rest := by
  rw [readFrames]
  split
  · rename_i how' h'
    rw [h] at h'
    cases h'
  · rename_i f' rest' h'
    rw [h] at h'
    cases h'
    rfl

@[simp] theorem Segment.length_bytes (s : Segment) : s.bytes.length = s.frame.span := by
  simp only [bytes, frame, Frame.span, frameHeaderLength, List.length_append, length_frameHeader]
  omega

/-- Frames that stand in front are read in order, and the reader goes on behind them. -/
theorem readFrames_segments {limit : Nat} (offset : Nat) (done : List Frame) {segs : List Segment}
    (rest : Bytes) (h : ∀ s ∈ segs, s.Valid limit) :
    readFrames limit offset done (ofBytes (segs.flatMap Segment.bytes ++ rest)) =
      readFrames limit (offset + (segs.flatMap Segment.bytes).length)
        ((segs.map Segment.frame).reverse ++ done) (ofBytes rest) := by
  induction segs generalizing offset done with
  | nil => rfl
  | cons s segs ih =>
    have hs := h s (List.mem_cons_self ..)
    have hr := fun t ht => h t (List.mem_cons_of_mem s ht)
    rw [List.flatMap_cons, List.append_assoc, readFrames_frame (readFrame_segment offset _ hs),
      ih _ _ hr, List.map_cons, List.reverse_cons, List.append_assoc, List.length_append,
      Segment.length_bytes, Nat.add_assoc]
    rfl

/-- Where the reader stops behind frames that stand in front, it has read these frames. -/
theorem readFrames_behind {limit : Nat} (offset : Nat) {segs : List Segment} {rest : Bytes}
    {how : FrameEnd} (h : ∀ s ∈ segs, s.Valid limit)
    (hstop : readFrame limit (offset + (segs.flatMap Segment.bytes).length) (ofBytes rest) =
      .stop how) :
    readFrames limit offset [] (ofBytes (segs.flatMap Segment.bytes ++ rest)) =
      (segs.map Segment.frame, how) := by
  rw [readFrames_segments offset [] rest h, readFrames_stop hstop, List.append_nil,
    List.reverse_reverse]

/-- Frames and a tail are read as these frames, and the end is clean. -/
theorem readFrames_grammar {limit : Nat} (offset : Nat) {segs : List Segment} {tail : Bytes}
    (h : ∀ s ∈ segs, s.Valid limit) (ht : Tail tail) :
    ∃ how, readFrames limit offset [] (ofBytes (segs.flatMap Segment.bytes ++ tail)) =
      (segs.map Segment.frame, how) ∧ how.error? = none := by
  obtain ⟨how, hstop, hclean⟩ :=
    readFrame_tail limit (offset + (segs.flatMap Segment.bytes).length) ht
  exact ⟨how, readFrames_behind offset h hstop, hclean⟩

/-- Any bytes are frames and what stands behind them: a tail, or a frame that cannot be read. -/
theorem exists_segments (limit : Nat) (bs : Bytes) :
    ∃ (segs : List Segment) (rest : Bytes), (∀ s ∈ segs, s.Valid limit) ∧
      bs = segs.flatMap Segment.bytes ++ rest ∧ (Tail rest ∨ BeginsFault limit rest) := by
  -- Each frame takes up at least its header, so the bytes behind it are fewer.
  induction hn : bs.length using Nat.strongRecOn generalizing bs with
  | ind n ih =>
    rcases segment_or_tail_or_fault limit bs with ⟨s, behind, hs, rfl⟩ | hend
    · have hlt : behind.length < n := by
        rw [← hn, List.length_append, Segment.length_bytes, Frame.span]
        have : frameHeaderLength = 16 := rfl
        omega
      obtain ⟨segs, rest, hv, rfl, hrest⟩ := ih behind.length hlt behind rfl
      refine ⟨s :: segs, rest, ?_, by rw [List.flatMap_cons, List.append_assoc], hrest⟩
      intro t hm
      rcases List.mem_cons.mp hm with rfl | hm
      · exact hs
      · exact hv t hm
    · exact ⟨[], bs, by simp, rfl, hend⟩

/-- Frames and one behind them that cannot be read are read as the frames, and the error tells where
the frame at fault begins. -/
theorem readFrames_fault {limit : Nat} (offset : Nat) {segs : List Segment} {rest : Bytes}
    (h : ∀ s ∈ segs, s.Valid limit) (hf : BeginsFault limit rest) :
    ∃ f : FramingFault, f.offset = offset + (segs.flatMap Segment.bytes).length ∧
      readFrames limit offset [] (ofBytes (segs.flatMap Segment.bytes ++ rest)) =
        (segs.map Segment.frame, .failed (.framing f)) := by
  obtain ⟨f, hoffset, hstop⟩ := readFrame_fault (offset + (segs.flatMap Segment.bytes).length) hf
  exact ⟨f, hoffset, readFrames_behind offset h hstop⟩

/-- Bytes on which the frames end cleanly are frames and a tail. -/
theorem exists_segments_of_clean {limit offset : Nat} (bs : Bytes)
    (h : (readFrames limit offset [] (ofBytes bs)).2.error? = none) :
    ∃ (segs : List Segment) (tail : Bytes), (∀ s ∈ segs, s.Valid limit) ∧ Tail tail ∧
      bs = segs.flatMap Segment.bytes ++ tail := by
  obtain ⟨segs, rest, hv, rfl, ht | hf⟩ := exists_segments limit bs
  · exact ⟨segs, rest, hv, ht, rfl⟩
  · obtain ⟨f, _, hread⟩ := readFrames_fault offset hv hf
    rw [hread] at h
    cases h

private theorem segment_eq {s t : Segment} (hf : s.frame = t.frame) (hb : s.bytes = t.bytes) :
    s = t := by
  obtain ⟨ts, os, ps⟩ := s
  obtain ⟨tt, ot, pt⟩ := t
  simp only [Segment.frame, Frame.mk.injEq] at hf
  obtain ⟨rfl, _, _, rfl⟩ := hf
  have ho : os ++ ps = ot ++ ps := (List.append_inj hb (by simp only [length_frameHeader])).2
  rw [List.append_cancel_right ho]

/-- Bytes are frames and a tail in no more than one way: where one reading has a frame, the reader
finds it, and where one has the tail, it finds none. -/
theorem segments_unique {limit : Nat} {segs segs' : List Segment} {tail tail' : Bytes}
    (hv : ∀ s ∈ segs, s.Valid limit) (hv' : ∀ s ∈ segs', s.Valid limit) (ht : Tail tail)
    (ht' : Tail tail')
    (h : segs.flatMap Segment.bytes ++ tail = segs'.flatMap Segment.bytes ++ tail') :
    segs = segs' ∧ tail = tail' := by
  induction segs generalizing segs' with
  | nil =>
    cases segs' with
    | nil => exact ⟨rfl, h⟩
    | cons s' segs' =>
      obtain ⟨how, hstop, _⟩ := readFrame_tail limit 0 ht
      rw [List.flatMap_cons, List.append_assoc] at h
      change tail = _ at h
      rw [h, readFrame_segment 0 _ (hv' s' (List.mem_cons_self ..))] at hstop
      cases hstop
  | cons s segs ih =>
    rw [List.flatMap_cons, List.append_assoc] at h
    have hs := readFrame_segment 0 (segs.flatMap Segment.bytes ++ tail) (hv s (List.mem_cons_self ..))
    cases segs' with
    | nil =>
      obtain ⟨how, hstop, _⟩ := readFrame_tail limit 0 ht'
      change _ = tail' at h
      rw [← h, hs] at hstop
      cases hstop
    | cons s' segs' =>
      rw [List.flatMap_cons, List.append_assoc] at h
      rw [h, readFrame_segment 0 _ (hv' s' (List.mem_cons_self ..))] at hs
      injection hs with hf hr
      have hr := (congrArg Source.bytes hr).symm
      change segs.flatMap Segment.bytes ++ tail = _ at hr
      rw [hr] at h
      have he := segment_eq hf.symm (List.append_cancel_right h)
      obtain ⟨hrest, htail⟩ := ih (fun t hm => hv t (List.mem_cons_of_mem s hm))
        (fun t hm => hv' t (List.mem_cons_of_mem s' hm)) hr
      exact ⟨by rw [he, hrest], htail⟩

end MetricCapture.Replay
