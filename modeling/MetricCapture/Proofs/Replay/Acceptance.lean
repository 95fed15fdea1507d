import MetricCapture.Proofs.Replay.Header
import MetricCapture.Proofs.Replay.Scan
/-! What the reader of containers accepts. The main statement says that it accepts the grammar and
nothing else, and that a container is taken apart in one way. -/
namespace MetricCapture.Replay
open MetricCapture.Source (ofBytes)

/-- Bytes that are not unwrapped are read behind their file header. -/
theorem frames_ofBytes {cfg : Settings.Reader} {bs : Bytes} (h : cfg.Leaves bs) :
    (ofBytes bs).frames cfg = framesAfterHeader cfg (ofBytes bs) := by
  rw [cfg.leaves_iff] at h
  unfold Source.frames
  simp only [Source.peek_ofBytes, h]
  rfl

/-- Behind a whole file header of an accepted version stand the frames. -/
theorem framesAfterHeader_accepted {cfg : Settings.Reader} {v : UInt8} {padding rest : Bytes}
    (hp : padding.length = 3) (hv : ((v ^^^ versionFlag).toNat : Int) ∈ cfg.versions) :
    framesAfterHeader cfg (ofBytes (cfg.replayMarker ++ (v :: (padding ++ rest)))) =
      readFrames cfg.payloadLimit (headerLength cfg) [] (ofBytes rest) := by
  have hlen : (cfg.replayMarker ++ v :: padding).length = headerLength cfg := by
    rw [List.length_append, List.length_cons, hp]
    rfl
  have he : cfg.replayMarker ++ (v :: (padding ++ rest)) = cfg.replayMarker ++ v :: padding ++ rest := by
    rw [List.append_assoc]
    rfl
  have hopened : Opened cfg (cfg.replayMarker ++ (v :: (padding ++ rest))) := by
    refine ⟨List.prefix_append .., ?_, ?_⟩
    · rw [he, List.length_append, hlen]
      exact Nat.le_add_right ..
    · simpa [versionOf, List.getD_eq_getElem?_getD] using hv
  rw [framesAfterHeader_opened hopened, he, List.drop_left' hlen]

/-- Frames that end cleanly stand behind a whole file header of an accepted version. -/
theorem exists_header_of_clean {cfg : Settings.Reader} {bs : Bytes}
    (h : (framesAfterHeader cfg (ofBytes bs)).2.error? = none) :
    ∃ (v : UInt8) (padding rest : Bytes), padding.length = 3 ∧
      ((v ^^^ versionFlag).toNat : Int) ∈ cfg.versions ∧
      bs = cfg.replayMarker ++ (v :: (padding ++ rest)) := by
  refine Opened.exists_parts (Classical.byContradiction fun hno => ?_)
  obtain ⟨e, he⟩ := refused_of_not_opened hno
  rw [he] at h
  cases h

/-- A container read by its grammar gives its frames, and the end is clean. -/
theorem framesAfterHeader_container {cfg : Settings.Reader} {c : Container} (h : c.WellFormed cfg) :
    (framesAfterHeader cfg (ofBytes (c.bytes cfg))).1 = c.segments.map Segment.frame ∧
      (framesAfterHeader cfg (ofBytes (c.bytes cfg))).2.error? = none := by
  obtain ⟨how, he, hclean⟩ := readFrames_grammar (headerLength cfg) h.segments h.tail
  rw [Container.bytes, framesAfterHeader_accepted h.padding h.version, he]
  exact ⟨rfl, hclean⟩

/-- A container is taken apart in one way. -/
theorem Container.bytes_inj {cfg : Settings.Reader} {c c' : Container} (h : c.WellFormed cfg)
    (h' : c'.WellFormed cfg) (e : c.bytes cfg = c'.bytes cfg) : c = c' := by
  obtain ⟨v, p, segs, tail⟩ := c
  obtain ⟨v', p', segs', tail'⟩ := c'
  have hbody := List.append_cancel_left e
  simp only [List.cons.injEq] at hbody
  obtain ⟨rfl, hbody⟩ := hbody
  obtain ⟨rfl, hsegs⟩ := List.append_inj hbody (h.padding.trans h'.padding.symm)
  obtain ⟨rfl, rfl⟩ := segments_unique h.segments h'.segments h.tail h'.tail hsegs
  rfl

/-- Of bytes that are not unwrapped the reader accepts exactly the containers of the grammar. Bytes
are such a container in one way only, and the frames read are its frames in order. -/
theorem frames_clean_iff_container (cfg : Settings.Reader) (d : Bytes) (h : cfg.Leaves d) :
    (((ofBytes d).frames cfg).2.error? = none ↔
      ∃ c : Container, c.WellFormed cfg ∧ c.bytes cfg = d) ∧
    (∀ c c' : Container, c.WellFormed cfg → c'.WellFormed cfg →
      c.bytes cfg = d → c'.bytes cfg = d → c = c') ∧
    ∀ c : Container, c.WellFormed cfg → c.bytes cfg = d →
      ((ofBytes d).frames cfg).1 = c.segments.map Segment.frame := by
  rw [frames_ofBytes h]
  refine ⟨⟨?_, ?_⟩, ?_, ?_⟩
  · intro hclean
    obtain ⟨v, padding, rest, hp, hv, rfl⟩ := exists_header_of_clean hclean
    rw [framesAfterHeader_accepted hp hv] at hclean
    obtain ⟨segs, tail, hs, ht, rfl⟩ := exists_segments_of_clean rest hclean
    exact ⟨⟨v, padding, segs, tail⟩, ⟨hv, hp, hs, ht⟩, rfl⟩
  · rintro ⟨c, hc, rfl⟩
    exact (framesAfterHeader_container hc).2
  · intro c c' hc hc' he he'
    exact Container.bytes_inj hc hc' (he.trans he'.symm)
  · rintro c hc rfl
    exact (framesAfterHeader_container hc).1

def sampleContainer : Container :=
  ⟨0xF3, [0xFF, 0, 0], [⟨-1, [9], [65, 10]⟩, ⟨7, [9], []⟩],
    List.replicate 8 5 ++ List.replicate 8 0 ++ [1]⟩

private theorem sampleContainer_wellFormed : sampleContainer.WellFormed Settings.Reader.standard := by
  refine ⟨by decide, rfl, ?_, .inr ⟨by decide, rfl⟩⟩
  intro s hs
  rcases List.mem_cons.mp hs with rfl | hs
  · exact ⟨by decide, by decide, by decide, by decide, by decide⟩
  · obtain rfl := List.mem_singleton.mp hs
    exact ⟨by decide, by decide, by decide, by decide, by decide⟩

theorem frames_sampleContainer :
    Settings.Reader.standard.Leaves (sampleContainer.bytes Settings.Reader.standard) ∧
      sampleContainer.WellFormed Settings.Reader.standard ∧
      ((ofBytes (sampleContainer.bytes Settings.Reader.standard)).frames
        Settings.Reader.standard).2.error? = none ∧
      ((ofBytes (sampleContainer.bytes Settings.Reader.standard)).frames
        Settings.Reader.standard).1 = [⟨-1, 1, 2, [65, 10]⟩, ⟨7, 1, 0, []⟩] := by
  have hleaves : Settings.Reader.standard.Leaves (sampleContainer.bytes Settings.Reader.standard) :=
    .inr (by decide)
  obtain ⟨hclean, _, hframes⟩ := frames_clean_iff_container Settings.Reader.standard _ hleaves
  refine ⟨hleaves, sampleContainer_wellFormed, ?_, ?_⟩
  · exact hclean.mpr ⟨sampleContainer, sampleContainer_wellFormed, rfl⟩
  · exact hframes sampleContainer sampleContainer_wellFormed rfl

end MetricCapture.Replay
