import MetricCapture.Proofs.Source.Plain
import MetricCapture.Proofs.Text.Encoding
/-! What well-formed text is taken for: every marker but one is no beginning of it, and that one
begins with a line feed. -/
namespace MetricCapture
open MetricCapture.Text

namespace Text.Utf8

namespace Decoder

private theorem mem_start {d : Decoder} {p : Piece} (h : p ∈ d.pieces) (b : UInt8) :
    p ∈ (d.start b).pieces := by
  unfold start
  dsimp only
  split
  · exact List.mem_cons_of_mem _ h
  · split
    · exact h
    · exact List.mem_cons_of_mem _ h

private theorem mem_step {d : Decoder} {p : Piece} (h : p ∈ d.pieces) (b : UInt8) :
    p ∈ (d.step b).pieces := by
  unfold step
  split
  · exact mem_start h b
  · dsimp only
    split
    · split
      · exact List.mem_cons_of_mem _ h
      · exact h
    · exact mem_start (List.mem_cons_of_mem _ h) b

/-- What has been decoded stays. -/
theorem mem_foldl_step {d : Decoder} {p : Piece} (h : p ∈ d.pieces) (bs : Bytes) :
    p ∈ (bs.foldl step d).pieces := by
  induction bs generalizing d with
  | nil => exact h
  | cons b bs ih => exact ih (mem_step h b)

theorem mem_finish {d : Decoder} {p : Piece} (h : p ∈ d.pieces) : p ∈ d.finish := by
  unfold finish
  split
  · exact List.mem_reverse.mpr h
  · exact List.mem_reverse.mpr (List.mem_cons_of_mem _ h)

end Decoder

/-- Bytes that are at fault already begin no text. -/
theorem not_prefix_encode {marker : Bytes}
    (h : (marker.foldl Decoder.step Decoder.empty).pieces.any (·.fault?.isSome) = true)
    (cs : List Char) : ¬ marker <+: encode cs := by
  rintro ⟨rest, hrest⟩
  obtain ⟨p, hp, hfault⟩ := List.any_eq_true.mp h
  have hmem : p ∈ pieces (encode cs) := by
    rw [← hrest]
    unfold pieces
    rw [List.foldl_append]
    exact Decoder.mem_finish (Decoder.mem_foldl_step hp rest)
  rw [pieces_encode] at hmem
  obtain ⟨c, _, rfl⟩ := List.mem_map.mp hmem
  cases hfault

end Text.Utf8

namespace Settings.Reader

/-- Text is taken for text under the usual markers, unless it begins with a line feed. -/
theorem detect_encode {cfg : Reader} (hr : cfg.replayMarker = standard.replayMarker)
    (hz : cfg.compressedMarker = standard.compressedMarker) {cs : List Char}
    (h : cs.head? ≠ some '\n') : cfg.detect ((Utf8.encode cs).take cfg.sniffLength) = .text := by
  have hno : ∀ {marker : Bytes}, ¬ marker <+: Utf8.encode cs →
      marker.isPrefixOf (Utf8.encode cs) = false := by
    intro marker hp
    rw [← Bool.not_eq_true, List.isPrefixOf_iff_prefix]
    exact hp
  have hcompressed : cfg.beginsCompressed (Utf8.encode cs) = false := by
    unfold beginsCompressed
    rw [hz]
    exact hno (Utf8.not_prefix_encode (by decide) cs)
  have hreplay : cfg.beginsReplay (Utf8.encode cs) = false := by
    unfold beginsReplay
    rw [hr]
    exact hno (Utf8.not_prefix_encode (by decide) cs)
  have hpcap : pcapMarkers.any (·.isPrefixOf (Utf8.encode cs)) = false := by
    rw [List.any_eq_false]
    intro marker hm
    rw [Bool.not_eq_true]
    refine hno (Utf8.not_prefix_encode ?_ cs)
    revert marker
    decide
  -- The marker of block captures is well-formed text, but of a first line that is empty.
  have hblocks : pcapngMarker.isPrefixOf (Utf8.encode cs) = false := by
    refine hno ?_
    rintro ⟨rest, hrest⟩
    refine h (Utf8.head?_of_encode (b := 10) ?_ (by decide) rfl)
    rw [← hrest]
    rfl
  rw [detect_take]
  unfold detect
  rw [hcompressed, hreplay, hpcap, hblocks, Bool.and_false, Bool.and_false]
  rfl

end Settings.Reader

end MetricCapture
