import MetricCapture.Proofs.Source.Plain
/-! File headers of containers: which bytes are read on behind one, and the error that refuses each of
the others. -/
namespace MetricCapture.Replay
open MetricCapture.Source (ofBytes)

def versionOf (cfg : Settings.Reader) (bs : Bytes) : Nat :=
  ((bs.getD cfg.replayMarker.length 0) ^^^ versionFlag).toNat

structure Opened (cfg : Settings.Reader) (bs : Bytes) : Prop where
  marker : cfg.replayMarker <+: bs
  whole : headerLength cfg ≤ bs.length
  version : (versionOf cfg bs : Int) ∈ cfg.versions

variable {cfg : Settings.Reader} {bs : Bytes}

theorem replayMarker_lt_header (cfg : Settings.Reader) :
    cfg.replayMarker.length < headerLength cfg :=
  Nat.lt_add_of_pos_right (Nat.succ_pos 3)

private theorem marker_header (cfg : Settings.Reader) (bs : Bytes) :
    cfg.replayMarker.isPrefixOf (bs.take (headerLength cfg)) = true ↔ cfg.replayMarker <+: bs := by
  rw [marker_take (Nat.le_of_lt (replayMarker_lt_header cfg)), List.isPrefixOf_iff_prefix]

private theorem version_header (cfg : Settings.Reader) (bs : Bytes) :
    (((bs.take (headerLength cfg)).getD cfg.replayMarker.length 0) ^^^ versionFlag).toNat =
      versionOf cfg bs := by
  rw [versionOf, List.getD_eq_getElem?_getD, List.getD_eq_getElem?_getD,
    List.getElem?_take_of_lt (replayMarker_lt_header cfg)]

theorem framesAfterHeader_noMarker (h : ¬ cfg.replayMarker <+: bs) :
    framesAfterHeader cfg (ofBytes bs) =
      ([], .failed (.noMarker (bs.take (headerLength cfg)))) := by
  have hmark := mt (marker_header cfg bs).mp h
  rw [Bool.not_eq_true] at hmark
  unfold framesAfterHeader
  simp only [Source.read_ofBytes, hmark]
  rfl

theorem framesAfterHeader_short (h : cfg.replayMarker <+: bs) (hs : bs.length < headerLength cfg) :
    framesAfterHeader cfg (ofBytes bs) =
      ([], .failed (.framing (.shortHeader bs.length (headerLength cfg)))) := by
  have hmark := (marker_header cfg bs).mpr h
  unfold framesAfterHeader
  simp only [Source.read_ofBytes, hmark, List.length_take, Nat.min_eq_right (Nat.le_of_lt hs), hs]
  rfl

/-- Behind a whole file header the version decides. -/
theorem framesAfterHeader_whole (h : cfg.replayMarker <+: bs) (hl : headerLength cfg ≤ bs.length) :
    framesAfterHeader cfg (ofBytes bs) =
      if (versionOf cfg bs : Int) ∈ cfg.versions then
        readFrames cfg.payloadLimit (headerLength cfg) [] (ofBytes (bs.drop (headerLength cfg)))
      else ([], .failed (.unsupportedVersion (versionOf cfg bs))) := by
  have hmark := (marker_header cfg bs).mpr h
  unfold framesAfterHeader
  simp only [Source.read_ofBytes, hmark, List.length_take, Nat.min_eq_left hl, version_header]
  simp

/-- Behind a whole file header of an accepted version stand the frames. -/
theorem framesAfterHeader_opened (h : Opened cfg bs) :
    framesAfterHeader cfg (ofBytes bs) =
      readFrames cfg.payloadLimit (headerLength cfg) [] (ofBytes (bs.drop (headerLength cfg))) := by
  rw [framesAfterHeader_whole h.marker h.whole, if_pos h.version]

/-- The four ways in which bytes can begin, with what is read of each. -/
theorem framesAfterHeader_cases (cfg : Settings.Reader) (bs : Bytes) :
    (¬ cfg.replayMarker <+: bs ∧ framesAfterHeader cfg (ofBytes bs) =
        ([], .failed (.noMarker (bs.take (headerLength cfg))))) ∨
      (cfg.replayMarker <+: bs ∧ bs.length < headerLength cfg ∧ framesAfterHeader cfg (ofBytes bs) =
        ([], .failed (.framing (.shortHeader bs.length (headerLength cfg))))) ∨
      (cfg.replayMarker <+: bs ∧ headerLength cfg ≤ bs.length ∧
        (versionOf cfg bs : Int) ∉ cfg.versions ∧ framesAfterHeader cfg (ofBytes bs) =
          ([], .failed (.unsupportedVersion (versionOf cfg bs)))) ∨
      Opened cfg bs := by
  by_cases hmark : cfg.replayMarker <+: bs
  · by_cases hlen : bs.length < headerLength cfg
    · exact .inr (.inl ⟨hmark, hlen, framesAfterHeader_short hmark hlen⟩)
    · have hwhole := Nat.le_of_not_lt hlen
      by_cases hv : (versionOf cfg bs : Int) ∈ cfg.versions
      · exact .inr (.inr (.inr ⟨hmark, hwhole, hv⟩))
      · exact .inr (.inr (.inl ⟨hmark, hwhole, hv,
          (framesAfterHeader_whole hmark hwhole).trans (if_neg hv)⟩))
  · exact .inl ⟨hmark, framesAfterHeader_noMarker hmark⟩

/-- What does not begin so is refused before the first frame. -/
theorem refused_of_not_opened (h : ¬ Opened cfg bs) :
    ∃ e, framesAfterHeader cfg (ofBytes bs) = ([], .failed e) := by
  rcases framesAfterHeader_cases cfg bs with ⟨_, he⟩ | ⟨_, _, he⟩ | ⟨_, _, _, he⟩ | hopened
  · exact ⟨_, he⟩
  · exact ⟨_, he⟩
  · exact ⟨_, he⟩
  · exact absurd hopened h

/-- The file header taken apart. -/
theorem Opened.exists_parts (h : Opened cfg bs) :
    ∃ (v : UInt8) (padding rest : Bytes), padding.length = 3 ∧
      ((v ^^^ versionFlag).toNat : Int) ∈ cfg.versions ∧
      bs = cfg.replayMarker ++ (v :: (padding ++ rest)) := by
  obtain ⟨tail, rfl⟩ := h.marker
  have hlen := h.whole
  rw [List.length_append, headerLength, headerTail, Nat.add_le_add_iff_left] at hlen
  obtain ⟨v, behind, rfl⟩ : ∃ v behind, tail = v :: behind :=
    List.exists_cons_of_length_pos (by omega)
  refine ⟨v, behind.take 3, behind.drop 3, ?_, ?_, by rw [List.take_append_drop]⟩
  · rw [List.length_take]
    exact Nat.min_eq_left (by simpa using hlen)
  · simpa [versionOf, List.getD_eq_getElem?_getD] using h.version

end MetricCapture.Replay
