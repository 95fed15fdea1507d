import MetricCapture.Packet.Link
import MetricCapture.Source.Delivery
/-! Packet captures: a link type and the frames seen on it. -/
namespace MetricCapture.Packet

structure Capture where
  linkType : Nat
  frames : Delivery Bytes

/-- The datagrams of a capture, in its order. One of an unknown link type has none. -/
def Capture.datagrams (c : Capture) : Delivery Bytes :=
  match Link.ofNumber? c.linkType with
  | none => ⟨[], none⟩
  | some link => ⟨c.frames.items.filterMap link.datagram?, c.frames.error⟩

inductive Step where
  | next (frame? : Option Bytes) (rest : Source)
  | stop (error? : Option StreamError)

def Shrinks (step : Source → Step) : Prop :=
  ∀ {s r : Source} {f : Option Bytes}, step s = .next f r → r.bytes.length < s.bytes.length

def collect (step : Source → Step) (shrinks : Shrinks step) (done : List Bytes) (s : Source) :
    Delivery Bytes :=
  match _h : step s with
  | .stop e => ⟨done.reverse, e⟩
  | .next frame? rest => collect step shrinks (frame?.toList ++ done) rest
termination_by s.bytes.length
decreasing_by exact shrinks _h

structure RecordLayout where
  big : Bool
  /-- The length of a record's header. -/
  header : Nat

/-- The layout that the first four bytes of a capture tell. Those of a third kind add eight bytes
to the header of each record. -/
def RecordLayout.ofMarker? : Bytes → Option RecordLayout
  | [0xA1, 0xB2, 0xC3, 0xD4] | [0xA1, 0xB2, 0x3C, 0x4D] => some ⟨true, 16⟩
  | [0xD4, 0xC3, 0xB2, 0xA1] | [0x4D, 0x3C, 0xB2, 0xA1] => some ⟨false, 16⟩
  | [0xA1, 0xB2, 0xCD, 0x34] => some ⟨true, 24⟩
  | [0x34, 0xCD, 0xB2, 0xA1] => some ⟨false, 24⟩
  | _ => none

/-- Reads one record. The last frame may be shorter than its header says. -/
def readRecord (layout : RecordLayout) (s : Source) : Step :=
  match s.read layout.header with
  | .error _ => .stop (some .corrupt)
  | .ok (header, rest) =>
    if header.isEmpty then .stop none
    else if header.length < layout.header then .stop (some (.packet .shortHeader))
    else
      match rest.read (Bytes.numberAt layout.big 8 4 header) with
      | .error _ => .stop (some .corrupt)
      | .ok (frame, rest') => .next (some frame) rest'

theorem readRecord_shrinks (layout : RecordLayout) : Shrinks (readRecord layout) := by
  intro s r f e
  unfold readRecord at e
  split at e
  · cases e
  · rename_i header rest h1
    split at e
    · cases e
    · rename_i hne
      split at e
      · cases e
      · split at e
        · cases e
        · rename_i h2
          cases e
          have := Source.length_read_le h1
          have := Source.length_read_le h2
          have : 0 < header.length := by
            cases header <;> simp_all
          omega

def Capture.ofRecords (s : Source) : Except StreamError Capture :=
  match s.read 24 with
  | .error _ => .error .corrupt
  | .ok (header, rest) =>
    if header.length < 24 then .error (.packet .shortHeader)
    else
      match RecordLayout.ofMarker? (header.take 4) with
      | none => .error (.packet (.badStart .marker))
      | some layout =>
        .ok ⟨Bytes.numberAt layout.big 20 4 header,
          collect (readRecord layout) (readRecord_shrinks layout) [] rest⟩

end MetricCapture.Packet
