import MetricCapture.Proofs.Source.Wrapped
/-! What is looked at to tell a source is given again, and tells as much as all of it would. One thing is
lost: of a compressed stream that is cut off right behind a block, what the look leaves of that block. -/
namespace MetricCapture.Source

def drain : Source → List Nat → Except Corrupt Bytes
  | s, [] => s.readAll
  | s, n :: sizes => do
    let (piece, rest) ← s.read n
    let more ← rest.drain sizes
    pure (piece ++ more)

/-- Plain bytes are given as they are in whatever pieces they are read. -/
theorem drain_ofBytes (bs : Bytes) (sizes : List Nat) : (ofBytes bs).drain sizes = .ok bs := by
  induction sizes generalizing bs with
  | nil => exact readAll_ofBytes bs
  | cons n sizes ih =>
    rw [drain, read_ofBytes]
    simp only [bind, Except.bind, ih, pure, Except.pure, List.take_append_drop]

/-- A look at a stream that is cut off right behind a block takes in what is left of the block. Unless
more than that is to come, all behind the bytes looked at is gone. -/
theorem peek_cut {s : Source} {window n : Nat} (h : s.ending = .cut window) (hn : 0 < n) :
    s.peek n = .ok (s.bytes.take n,
      if s.bytes.length ≤ n + window then ofBytes (s.bytes.take n) else s) := by
  have hfails : s.fails n = false := by
    unfold fails
    rw [h]
  have hread : s.read n = .ok (s.bytes.take n, s.advance n) := by
    unfold Source.read
    rw [if_neg (Nat.ne_of_gt hn), hfails]
    rfl
  have hgone : ((s.bytes.drop n).drop window).isEmpty = true ↔ s.bytes.length ≤ n + window := by
    rw [List.isEmpty_iff, List.drop_drop, List.drop_eq_nil_iff]
  by_cases hlength : s.bytes.length ≤ n + window
  · have hadvance : s.advance n = ofBytes [] := by
      unfold advance
      rw [h]
      exact if_pos (hgone.mpr hlength)
    unfold peek
    rw [hread, hadvance, if_pos hlength]
    change Except.ok (s.bytes.take n, ofBytes (s.bytes.take n ++ [])) = _
    rw [List.append_nil]
  · have hadvance : s.advance n = { s with bytes := s.bytes.drop n } := by
      unfold advance
      rw [h]
      exact if_neg (mt hgone.mp hlength)
    unfold peek
    rw [hread, hadvance, if_neg hlength]
    change Except.ok (s.bytes.take n, { s with bytes := s.bytes.take n ++ s.bytes.drop n }) = _
    rw [List.take_append_drop]

/-- A source with some bytes to give and nothing corrupt behind them. -/
structure Gives (s : Source) (x : Bytes) : Prop where
  bytes_eq : s.bytes = x
  sound : ∀ inFrame, s.ending ≠ .corrupt inFrame

/-- A read of everything that one step is enough for gives all there is, also if it is cut off. -/
theorem Gives.readAll {s : Source} {x : Bytes} (h : s.Gives x) (hstep : x.length ≤ wholeStep) :
    s.readAll = .ok x := by
  obtain ⟨bytes, ending⟩ := s
  obtain rfl : bytes = x := h.bytes_eq
  cases ending with
  | complete => exact readAll_ofBytes bytes
  | corrupt inFrame => exact absurd rfl (h.sound inFrame)
  | cut window =>
    have hread : (Source.mk bytes (.cut window)).read wholeStep = .ok (bytes, ofBytes []) := by
      have hadvance : (Source.mk bytes (.cut window)).advance wholeStep = ofBytes [] := by
        unfold advance
        dsimp only
        rw [List.drop_eq_nil_of_le hstep, List.drop_nil]
        rfl
      unfold Source.read
      rw [hadvance, if_neg (by decide)]
      exact congrArg (fun taken => Except.ok (taken, ofBytes [])) (List.take_of_length_le hstep)
    rw [Source.readAll, hread]
    dsimp only
    split
    · rename_i hnone
      rw [hnone]
    · rw [readAll_ofBytes]
      exact congrArg Except.ok (List.append_nil bytes)

/-- A source is told by all of its bytes, though few are looked at, and gives all of them again, in
whatever pieces it is read. So does what a compressed stream holds, told by all that it holds, if the
stream is whole. If it is cut off right behind a block, and the look leaves no more than the rest of that
block, only the bytes looked at are given; else the stream is what it was before. -/
theorem resolve_delivers (cfg : Settings.Reader) (d : Bytes) :
    (cfg.detect d ≠ .compressed →
      ∃ s, (ofBytes d).resolve cfg = .ok ⟨cfg.detect d, false, s⟩ ∧ ∀ sizes, s.drain sizes = .ok d) ∧
    (cfg.detect d = .compressed → ∀ x, (Compression.inflate d).Gives x →
      ∃ s, (ofBytes d).resolve cfg =
          .ok ⟨if cfg.detect x = .compressed then .text else cfg.detect x, true, s⟩ ∧
        ((Compression.inflate d).ending = .complete → ∀ sizes, s.drain sizes = .ok x) ∧
        ∀ window, (Compression.inflate d).ending = .cut window →
          (x.length ≤ cfg.sniffLength + window → ∀ sizes, s.drain sizes = .ok (x.take cfg.sniffLength)) ∧
          (cfg.sniffLength + window < x.length → s = Compression.inflate d)) := by
  refine ⟨fun hkind => ?_, fun hkind x hx => ?_⟩
  · exact ⟨ofBytes d, resolve_ofBytes (cfg.detect_take d) hkind, drain_ofBytes d⟩
  have hwrapped : ¬ cfg.Leaves d := by
    rwa [← cfg.detect_compressed_iff, cfg.detect_take]
  have hsniff : 0 < cfg.sniffLength := Nat.lt_of_lt_of_le (by decide) cfg.four_le_sniff
  rw [resolve_unwrapped hwrapped]
  generalize Compression.inflate d = inner at hx ⊢
  obtain ⟨bytes, ending⟩ := inner
  obtain rfl : bytes = x := hx.bytes_eq
  cases ending with
  | complete =>
    refine ⟨ofBytes bytes, ?_, fun _ => drain_ofBytes bytes, nofun⟩
    change (orCorrupt ((ofBytes bytes).peek cfg.sniffLength)).map _ = _
    rw [peek_ofBytes]
    change Except.ok (Resolved.mk _ true _) = _
    rw [cfg.detect_take]
  | cut window =>
    have hpeek := @peek_cut ⟨bytes, .cut window⟩ window _ rfl hsniff
    refine ⟨if bytes.length ≤ cfg.sniffLength + window then ofBytes (bytes.take cfg.sniffLength)
      else ⟨bytes, .cut window⟩, ?_, (fun h => nomatch h), ?_⟩
    · rw [hpeek]
      change Except.ok (Resolved.mk _ true _) = _
      rw [cfg.detect_take]
    · rintro _ ⟨⟩
      refine ⟨fun hlength => ?_, fun hlength => if_neg (Nat.not_le_of_lt hlength)⟩
      rw [if_pos hlength]
      exact drain_ofBytes _
  | corrupt inFrame => exact absurd rfl (hx.sound inFrame)

def flushedSample : Bytes := [97, 58, 49, 124, 99, 10, 98, 58, 50, 124, 103, 10]

theorem resolve_flushed :
    (Compression.inflate (Compression.flushed flushedSample)).readAll = .ok flushedSample ∧
      ∃ s, (ofBytes (Compression.flushed flushedSample)).resolve .standard = .ok ⟨.text, true, s⟩ ∧
        ∀ sizes, s.drain sizes = .ok [97, 58, 49, 124, 99, 10, 98, 58] := by
  have hinflate : Compression.inflate (Compression.flushed flushedSample) = ⟨flushedSample, .cut 11⟩ :=
    Compression.inflate_flushed (by decide) (by decide)
  have hgives : (Compression.inflate (Compression.flushed flushedSample)).Gives flushedSample := by
    rw [hinflate]
    exact ⟨rfl, nofun⟩
  obtain ⟨s, hresolve, _, hcut⟩ := (resolve_delivers .standard _).2 (by decide) flushedSample hgives
  exact ⟨hgives.readAll (by decide), s, hresolve, (hcut 11 (congrArg ending hinflate)).1 (by decide)⟩

end MetricCapture.Source
