import MetricCapture.Proofs.Packet.Fault
import MetricCapture.Proofs.Source.Chunks
import MetricCapture.Proofs.Source.Plain
/-! Datagrams: each has its own lines, whatever the datagrams and the frames around it hold. -/
namespace MetricCapture
open MetricCapture.Text

def Delivery.inTurn {α : Type} : List (Delivery α) → Delivery α
  | [] => ⟨[], none⟩
  | d :: ds =>
    match d.error with
    | some e => ⟨d.items, some e⟩
    | none => ⟨d.items ++ (inTurn ds).items, (inTurn ds).error⟩

namespace Text

theorem splitOn_pieces (bs : Bytes) : bs.splitOn 10 = endedPieces bs ++ [openPiece bs] := by
  have hne := List.splitOn_ne_nil 10 bs
  unfold endedPieces openPiece
  rw [List.getLastD_eq_getLast?, List.getLast?_eq_some_getLast hne, Option.getD_some,
    List.dropLast_concat_getLast hne]

theorem not_mem_openPiece (bs : Bytes) : 10 ∉ openPiece bs := by
  have hmem : openPiece bs ∈ bs.splitOn 10 := by
    rw [splitOn_pieces]
    exact List.mem_concat_self
  exact not_mem_of_mem_splitOn hmem

/-- A line feed ends the open line and leaves none. -/
theorem splitOn_concat_lineFeed (bs : Bytes) : (bs ++ [10]).splitOn 10 = bs.splitOn 10 ++ [[]] := by
  rw [splitOn_append [10] (splitOn_pieces bs),
    List.splitOn_append_cons_self_of_not_mem (not_mem_openPiece bs), splitOn_pieces bs,
    List.append_assoc]
  rfl

/-- A datagram that ends its last line leaves none open. -/
theorem openPiece_terminated (p : Bytes) : openPiece (terminated p) = [] := by
  unfold terminated
  split
  · rename_i h
    obtain ⟨q, rfl⟩ := List.getLast?_eq_some_iff.mp h
    exact (pieces_of_splitOn (splitOn_concat_lineFeed q)).2
  · exact (pieces_of_splitOn (splitOn_concat_lineFeed p)).2

/-- A datagram that does not end its last line leaves it open. -/
theorem openPiece_ne_nil {p : Bytes} (hne : p ≠ []) (h : p.getLast? ≠ some 10) : openPiece p ≠ [] := by
  obtain ⟨q, b, hp⟩ := (List.eq_nil_or_concat p).resolve_left hne
  obtain rfl : p = q ++ [b] := hp.trans List.concat_eq_append
  have hb : 10 ∉ openPiece q ++ [b] := by
    rw [List.mem_append, List.mem_singleton, not_or]
    refine ⟨not_mem_openPiece q, ?_⟩
    rintro rfl
    exact h List.getLast?_concat
  have hsplit := splitOn_append [b] (splitOn_pieces q)
  rw [List.splitOn_eq_singleton hb] at hsplit
  rw [(pieces_of_splitOn hsplit).2]
  exact List.append_ne_nil_of_right_ne_nil _ (List.cons_ne_nil b [])

/-- To end the last line of a datagram adds no line and takes none. -/
theorem linePieces_terminated {p : Bytes} (hne : p ≠ []) : linePieces (terminated p) = linePieces p := by
  unfold terminated
  split
  · rfl
  · rename_i h
    obtain ⟨hended, hopen⟩ := pieces_of_splitOn (splitOn_concat_lineFeed p)
    unfold linePieces
    rw [hended, hopen, if_pos rfl, if_neg (openPiece_ne_nil hne h), List.append_nil, splitOn_pieces]

/-- Behind an ended line the pieces begin anew. -/
theorem linePieces_append {p : Bytes} (h : openPiece p = []) (rest : Bytes) :
    linePieces (p ++ rest) = linePieces p ++ linePieces rest := by
  have hsplit := splitOn_append rest (splitOn_pieces p)
  rw [h, List.nil_append, splitOn_pieces rest, ← List.append_assoc] at hsplit
  obtain ⟨hended, hopen⟩ := pieces_of_splitOn hsplit
  unfold linePieces
  rw [hended, hopen, h, if_pos rfl, List.append_nil, List.append_assoc]

/-- The lines of datagrams that end theirs are those of each datagram by itself. -/
theorem linePieces_datagrams {ps : List Bytes} (h : ∀ p ∈ ps, p ≠ []) :
    linePieces (ps.map terminated).flatten = ps.flatMap linePieces := by
  induction ps with
  | nil => rfl
  | cons p ps ih =>
    obtain ⟨hp, hps⟩ := List.forall_mem_cons.mp h
    rw [List.map_cons, List.flatten_cons, List.flatMap_cons, linePieces_append (openPiece_terminated p),
      linePieces_terminated hp, ih hps]

end Text

namespace Lines

variable {policy : Settings.TextPolicy}

theorem ofPieces_flatMap (pieces : Bytes → List Bytes) (ps : List Bytes) :
    ofPieces policy none (ps.flatMap pieces) =
      Delivery.inTurn (ps.map fun p => ofPieces policy none (pieces p)) := by
  induction ps with
  | nil => rfl
  | cons p ps ih =>
    rw [List.flatMap_cons, ofPieces_append, ih]
    rfl

/-- The lines of datagrams are those that each of them gives alone, up to the first fault. -/
theorem delivery_terminated {ps : List Bytes} (h : ∀ p ∈ ps, p ≠ []) :
    (ofChunks policy ⟨ps.map terminated, none⟩).delivery =
      Delivery.inTurn (ps.map fun p => (ofChunks policy ⟨[p], none⟩).delivery) := by
  have halone : ∀ p : Bytes, (ofChunks policy ⟨[p], none⟩).delivery = ofPieces policy none (linePieces p) := by
    intro p
    rw [(delivery_ofChunks policy [p]).1, List.flatten_singleton]
  rw [(delivery_ofChunks policy (ps.map terminated)).1, linePieces_datagrams h, ofPieces_flatMap]
  simp only [halone]

end Lines

theorem Packet.Link.datagram?_ne_nil {link : Packet.Link} {frame p : Bytes}
    (h : link.datagram? frame = some p) : p ≠ [] := by
  obtain ⟨_, h⟩ := Option.filter_eq_some_iff.mp h
  simpa using h

/-- The lines of a packet capture are those that each datagram gives alone, one datagram after the
other, up to the first fault. A frame without a datagram makes no difference. -/
theorem Source.lines_datagrams {cfg : Settings.Reader} {s : Source} {r : Resolved}
    {c : Packet.Capture} {link : Packet.Link} (resolved : s.resolve cfg = .ok r)
    (packets : r.kind = .pcap ∨ r.kind = .pcapng)
    (opened : r.source.capture (r.kind = .pcapng) = .ok c)
    (linked : Packet.Link.ofNumber? c.linkType = some link) (clean : c.frames.error = none) :
    (s.lines cfg).delivery =
      Delivery.inTurn ((c.frames.items.filterMap link.datagram?).map fun p =>
        (Lines.ofChunks cfg.textPolicy ⟨[p], none⟩).delivery) := by
  have hchunks : (s.payloads cfg).chunks =
      ⟨(c.frames.items.filterMap link.datagram?).map terminated, none⟩ := by
    unfold Source.payloads Source.payloadsOf
    rw [resolved]
    rcases packets with hkind | hkind <;> simp_all [Packet.Capture.datagrams]
  unfold Source.lines
  rw [hchunks]
  refine Lines.delivery_terminated fun p hp => ?_
  obtain ⟨frame, _, hframe⟩ := List.mem_filterMap.mp hp
  exact Packet.Link.datagram?_ne_nil hframe

def samplePacket (data : Bytes) : Bytes :=
  [0x45, 0, 0, 0, 0, 0, 0, 0, 64, 17, 0, 0, 127, 0, 0, 1, 127, 0, 0, 1] ++
    [0, 0, 0, 0, 0, 0, 0, 0] ++ data

def sampleRecord (frame : Bytes) : Bytes :=
  List.replicate 8 0 ++ [UInt8.ofNat frame.length, 0, 0, 0, UInt8.ofNat frame.length, 0, 0, 0] ++ frame

/-- A line that its datagram does not end, a frame that is no packet, and a line that is ended. -/
def sampleCapture : Bytes :=
  [0xD4, 0xC3, 0xB2, 0xA1, 2, 0, 4, 0, 0, 0, 0, 0, 0, 0, 0, 0, 0xFF, 0xFF, 0, 0, 101, 0, 0, 0] ++
    [samplePacket [97, 10, 98], [0xFF], samplePacket [99, 10]].flatMap sampleRecord

theorem ofRecords_sampleCapture :
    Packet.Capture.ofRecords (Source.ofBytes sampleCapture) =
      .ok ⟨101, ⟨[samplePacket [97, 10, 98], [0xFF], samplePacket [99, 10]], none⟩⟩ := by
  have hfirst : Packet.readRecord ⟨false, 16⟩ (Source.ofBytes (sampleCapture.drop 24)) =
      .next (some (samplePacket [97, 10, 98]))
        (Source.ofBytes ([[0xFF], samplePacket [99, 10]].flatMap sampleRecord)) := rfl
  have hsecond : Packet.readRecord ⟨false, 16⟩
      (Source.ofBytes ([[0xFF], samplePacket [99, 10]].flatMap sampleRecord)) =
      .next (some [0xFF]) (Source.ofBytes (sampleRecord (samplePacket [99, 10]))) := rfl
  have hthird : Packet.readRecord ⟨false, 16⟩ (Source.ofBytes (sampleRecord (samplePacket [99, 10]))) =
      .next (some (samplePacket [99, 10])) (Source.ofBytes []) := rfl
  have hcollect : Packet.collect _ (Packet.readRecord_shrinks ⟨false, 16⟩) []
      (Source.ofBytes (sampleCapture.drop 24)) =
      ⟨[samplePacket [97, 10, 98], [0xFF], samplePacket [99, 10]], none⟩ := by
    rw [Packet.collect_next _ _ hfirst, Packet.collect_next _ _ hsecond,
      Packet.collect_next _ _ hthird, Packet.collect_stop _ _ rfl]
    rfl
  rw [← hcollect]
  rfl

theorem Source.lines_sampleCapture :
    ((Source.ofBytes sampleCapture).lines .standard).delivery = ⟨["a", "b", "c"], none⟩ := by
  have hdetect : Settings.Reader.standard.detect
      (sampleCapture.take Settings.Reader.standard.sniffLength) = .pcap := rfl
  rw [lines_datagrams (resolve_ofBytes hdetect (fun he => nomatch he)) (.inl rfl)
    ofRecords_sampleCapture rfl rfl]
  rfl

end MetricCapture
