import MetricCapture.Proofs.Replay.Cut
/-! How the reading of a container ends: which bytes give which error, where the fault stands, and
what is read of a container that is cut short. -/
namespace MetricCapture.Replay
open MetricCapture.Source (ofBytes)

/-- What has been read behind a file header: frames that stand there one behind the other, and an end
told by what stands behind them. -/
structure Scanned (cfg : Settings.Reader) (bs : Bytes) (frames : List Frame)
    (error : Option StreamError) : Prop where
  segments : ∃ segs : List Segment, (∀ s ∈ segs, s.Valid cfg.payloadLimit) ∧
    frames = segs.map Segment.frame ∧ segs.flatMap Segment.bytes <+: bs.drop (headerLength cfg)
  clean : error = none ↔ Tail (bs.drop (placeBehind cfg frames))
  fault : (∃ f, error = some (.framing f)) ↔
    BeginsFault cfg.payloadLimit (bs.drop (placeBehind cfg frames))
  place : ∀ f, error = some (.framing f) → f.offset = placeBehind cfg frames
  kind : error = none ∨ ∃ f, error = some (.framing f)

theorem headerLength_pos (cfg : Settings.Reader) : 0 < headerLength cfg :=
  Nat.add_pos_right _ (Nat.succ_pos 3)

theorem headerLength_le_placeBehind (cfg : Settings.Reader) (frames : List Frame) :
    headerLength cfg ≤ placeBehind cfg frames :=
  Nat.le_add_right ..

/-- Behind a whole file header of an accepted version all frames are read. -/
theorem scanned_of_opened {cfg : Settings.Reader} {bs : Bytes} (h : Opened cfg bs) :
    Scanned cfg bs (framesAfterHeader cfg (ofBytes bs)).1
      (framesAfterHeader cfg (ofBytes bs)).2.error? := by
  obtain ⟨segs, rest, hv, hbytes, hrest⟩ :=
    exists_segments cfg.payloadLimit (bs.drop (headerLength cfg))
  have hbehind : bs.drop (placeBehind cfg (segs.map Segment.frame)) = rest := by
    rw [placeBehind_segments, ← List.drop_drop, hbytes, List.drop_left]
  have hprefix : segs.flatMap Segment.bytes <+: bs.drop (headerLength cfg) := by
    rw [hbytes]
    exact List.prefix_append ..
  rw [framesAfterHeader_opened h, hbytes]
  rcases hrest with ht | hf
  · obtain ⟨how, hread, hclean⟩ := readFrames_grammar (headerLength cfg) hv ht
    have hno : ¬ BeginsFault cfg.payloadLimit rest := fun hf => not_tail_of_beginsFault hf ht
    rw [hread, hclean]
    refine ⟨⟨segs, hv, rfl, hprefix⟩, ?_, ?_, ?_, .inl rfl⟩
    · rw [hbehind]
      exact iff_of_true rfl ht
    · rw [hbehind]
      exact iff_of_false (by simp) hno
    · simp
  · obtain ⟨f, hoffset, hread⟩ := readFrames_fault (headerLength cfg) hv hf
    have hplace : f.offset = placeBehind cfg (segs.map Segment.frame) :=
      hoffset.trans (placeBehind_segments cfg segs).symm
    rw [hread]
    refine ⟨⟨segs, hv, rfl, hprefix⟩, ?_, ?_, ?_, .inr ⟨f, rfl⟩⟩
    · rw [hbehind]
      exact iff_of_false (fun he => nomatch he) (not_tail_of_beginsFault hf)
    · rw [hbehind]
      exact iff_of_true ⟨f, rfl⟩ hf
    · intro g hg
      obtain rfl : f = g := by simpa [FrameEnd.error?] using hg
      exact hplace

/-- What ends frames that have been read is a fault, and it stands behind the file header. -/
theorem Scanned.exists_of_error {cfg : Settings.Reader} {bs : Bytes} {frames : List Frame}
    {error : Option StreamError} {e : StreamError} (h : Scanned cfg bs frames error)
    (he : error = some e) : ∃ f : FramingFault, e = .framing f ∧ f.offset ≠ 0 := by
  rcases h.kind with hnone | ⟨f, hf⟩
  · rw [hnone] at he
    cases he
  · obtain rfl : .framing f = e := Option.some.inj (hf.symm.trans he)
    refine ⟨f, rfl, ?_⟩
    rw [h.place f hf]
    exact Nat.ne_of_gt (Nat.lt_of_lt_of_le (headerLength_pos cfg) (headerLength_le_placeBehind ..))

/-- A cut is a fault at each place, and at no other, where a frame begins that is cut behind its
header. -/
theorem fault_take_iff {cfg : Settings.Reader} {c : Container} {k : Nat} (h : c.WellFormed cfg)
    (ht : c.tail = []) (hk : headerLength cfg ≤ k) (hz : cfg.Leaves ((c.bytes cfg).take k))
    (place : Nat) :
    (∃ f : FramingFault,
        ((ofBytes ((c.bytes cfg).take k)).frames cfg).2.error? = some (.framing f) ∧
          f.offset = place) ↔
      ∃ i, c.Cuts cfg k i ∧ place = c.start cfg i := by
  rcases (frames_take h ht hk hz).2 with ⟨hno, hclean⟩ | ⟨i, hcut, f, hoffset, he⟩
  · rw [hclean]
    refine iff_of_false ?_ ?_
    · rintro ⟨f, he, _⟩
      cases he
    · rintro ⟨i, hcut, _⟩
      exact hno i hcut
  · rw [he]
    constructor
    · rintro ⟨g, hg, rfl⟩
      obtain rfl : f = g := by simpa using hg
      exact ⟨i, hcut, hoffset⟩
    · rintro ⟨j, hj, rfl⟩
      obtain rfl := hcut.unique hj
      exact ⟨f, rfl, hoffset⟩

/-- Bytes that are not unwrapped end in the one error that their form calls for. Without the marker
it is that of the marker, else with less than a file header a fault at its beginning, else that of a
version not accepted, and else frames are read up to a fault or to an end. A container cut short gives
the frames that are left whole, and fails where the header of a frame is left but not its body. -/
theorem frames_error_exact (cfg : Settings.Reader) :
    (∀ d : Bytes, cfg.Leaves d →
      ((∃ found, ((ofBytes d).frames cfg).2.error? = some (.noMarker found)) ↔
        ¬ cfg.replayMarker <+: d) ∧
      (cfg.replayMarker <+: d →
        ((∃ f : FramingFault, ((ofBytes d).frames cfg).2.error? = some (.framing f) ∧
          f.offset = 0) ↔ d.length < headerLength cfg)) ∧
      (cfg.replayMarker <+: d → headerLength cfg ≤ d.length →
        ∀ v, ((ofBytes d).frames cfg).2.error? = some (.unsupportedVersion v) ↔
          v = versionOf cfg d ∧ (v : Int) ∉ cfg.versions) ∧
      (¬ Opened cfg d → ((ofBytes d).frames cfg).1 = []) ∧
      (Opened cfg d →
        Scanned cfg d ((ofBytes d).frames cfg).1 ((ofBytes d).frames cfg).2.error?)) ∧
    ∀ (c : Container) (k : Nat), c.WellFormed cfg → c.tail = [] → headerLength cfg ≤ k →
      cfg.Leaves ((c.bytes cfg).take k) →
      ((ofBytes ((c.bytes cfg).take k)).frames cfg).1 = (c.within cfg k).map Segment.frame ∧
      (((ofBytes ((c.bytes cfg).take k)).frames cfg).2.error? = none ∨
        ∃ f, ((ofBytes ((c.bytes cfg).take k)).frames cfg).2.error? = some (.framing f)) ∧
      ∀ place, (∃ f : FramingFault,
          ((ofBytes ((c.bytes cfg).take k)).frames cfg).2.error? = some (.framing f) ∧
            f.offset = place) ↔
        ∃ i, c.Cuts cfg k i ∧ place = c.start cfg i := by
  refine ⟨fun d hz => ?_, fun c k h ht hk hz => ?_⟩
  · rw [frames_ofBytes hz]
    have hrefused : ∀ {e : StreamError}, (FrameEnd.failed e).error? = some e := rfl
    rcases framesAfterHeader_cases cfg d with
      ⟨hmark, he⟩ | ⟨hmark, hlen, he⟩ | ⟨hmark, hlen, hv, he⟩ | hopened
    · have hno : ¬ Opened cfg d := fun h => hmark h.marker
      simp [he, hrefused, hmark, hno]
    · have hno : ¬ Opened cfg d := fun h => Nat.not_le_of_lt hlen h.whole
      simp [he, hrefused, hmark, hno, hlen, Nat.not_le_of_lt hlen, FramingFault.offset]
    · have hno : ¬ Opened cfg d := fun h => hv h.version
      have hversion : ∀ v, versionOf cfg d = v ↔ v = versionOf cfg d ∧ (v : Int) ∉ cfg.versions :=
        fun v => ⟨fun e => e ▸ ⟨rfl, hv⟩, fun e => e.1.symm⟩
      simpa [he, hrefused, hmark, hno, hlen] using hversion
    · have hscan := scanned_of_opened hopened
      refine ⟨iff_of_false ?_ (not_not_intro hopened.marker),
        fun _ => iff_of_false ?_ (Nat.not_lt_of_le hopened.whole),
        fun _ _ v => iff_of_false ?_ ?_, absurd hopened, fun _ => hscan⟩
      · rintro ⟨found, he⟩
        obtain ⟨f, hf, _⟩ := hscan.exists_of_error he
        cases hf
      · rintro ⟨f, he, hzero⟩
        obtain ⟨g, hg, hlate⟩ := hscan.exists_of_error he
        cases hg
        exact hlate hzero
      · intro he
        obtain ⟨f, hf, _⟩ := hscan.exists_of_error he
        cases hf
      · rintro ⟨rfl, hv⟩
        exact hv hopened.version
  · obtain ⟨hframes, hend⟩ := frames_take h ht hk hz
    refine ⟨hframes, ?_, fault_take_iff h ht hk hz⟩
    rcases hend with ⟨_, hclean⟩ | ⟨_, _, f, _, he⟩
    · exact .inl hclean
    · exact .inr ⟨f, he⟩

def cutContainer : Container :=
  ⟨0xF3, [0xFF, 0, 0], [⟨-1, [9], [65, 10]⟩, ⟨7, [9], [66, 67, 10]⟩], []⟩

private theorem cutContainer_wellFormed : cutContainer.WellFormed Settings.Reader.standard := by
  refine ⟨by decide, rfl, ?_, .inl (by decide)⟩
  intro s hs
  rcases List.mem_cons.mp hs with rfl | hs
  · exact ⟨by decide, by decide, by decide, by decide, by decide⟩
  · obtain rfl := List.mem_singleton.mp hs
    exact ⟨by decide, by decide, by decide, by decide, by decide⟩

/-- The cut stands behind two bytes of the second body. -/
theorem frames_cutContainer :
    ((ofBytes ((cutContainer.bytes .standard).take 45)).frames .standard).1 = [⟨-1, 1, 2, [65, 10]⟩] ∧
      (∃ f : FramingFault, ((ofBytes ((cutContainer.bytes .standard).take 45)).frames
        .standard).2.error? = some (.framing f) ∧ f.offset = 27) ∧
      ∃ found, ((ofBytes [65, 10]).frames .standard).2.error? = some (.noMarker found) := by
  obtain ⟨hexact, hcut⟩ := frames_error_exact Settings.Reader.standard
  obtain ⟨hframes, _, hplace⟩ :=
    hcut cutContainer 45 cutContainer_wellFormed rfl (by decide) (.inr (by decide))
  refine ⟨hframes, ?_, ?_⟩
  · exact (hplace 27).mpr ⟨1, ⟨by decide, by decide, by decide⟩, by decide⟩
  · exact (hexact [65, 10] (.inr (by decide))).1.mpr (by decide)

end MetricCapture.Replay
