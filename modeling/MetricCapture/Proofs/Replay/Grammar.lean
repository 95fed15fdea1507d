import MetricCapture.Proofs.Bytes.LittleEndian
import MetricCapture.Proofs.Source.Plain
/-! The grammar of replay containers, told without the reader: what a container is made of, and
that the reader accepts exactly this, in one way only. -/
namespace MetricCapture.Replay

open Bytes (Signed64 little wrap64 ofLittle slice)

/-- What stands between two frames of a container: one frame with all its bytes. -/
structure Segment where
  timestamp : Int
  outOfBand : Bytes
  payload : Bytes
  deriving DecidableEq

namespace Segment

def bytes (s : Segment) : Bytes :=
  frameHeader s.timestamp s.outOfBand.length s.payload.length ++ (s.outOfBand ++ s.payload)

def frame (s : Segment) : Frame := ⟨s.timestamp, s.outOfBand.length, s.payload.length, s.payload⟩

structure Valid (limit : Nat) (s : Segment) : Prop where
  timestamp : Signed64 s.timestamp
  outOfBand : s.outOfBand.length < 256 ^ (4 : Nat)
  payload : s.payload.length < 256 ^ (4 : Nat)
  nonempty : ¬ (s.outOfBand = [] ∧ s.payload = [])
  limit : s.payload.length ≤ limit

end Segment

def BeginsSeparator (bs : Bytes) : Prop :=
  frameHeaderLength ≤ bs.length ∧ slice 8 8 bs = List.replicate 8 0

def Tail (bs : Bytes) : Prop :=
  bs.length < frameHeaderLength ∨ BeginsSeparator bs

/-- A frame that cannot be read: its header is there in full and is no separator, but it claims a
payload over the limit, or more bytes than follow it. -/
def BeginsFault (limit : Nat) (bs : Bytes) : Prop :=
  let h := FrameHeader.ofBytes (bs.take frameHeaderLength)
  frameHeaderLength ≤ bs.length ∧ ¬ (h.outOfBand = 0 ∧ h.payload = 0) ∧
    (limit < h.payload ∨ (bs.drop frameHeaderLength).length < h.outOfBand + h.payload)

structure Container where
  version : UInt8
  padding : Bytes
  segments : List Segment
  tail : Bytes
  deriving DecidableEq

namespace Container

def bytes (cfg : Settings.Reader) (c : Container) : Bytes :=
  cfg.replayMarker ++ (c.version :: (c.padding ++ (c.segments.flatMap Segment.bytes ++ c.tail)))

structure WellFormed (cfg : Settings.Reader) (c : Container) : Prop where
  version : ((c.version ^^^ versionFlag).toNat : Int) ∈ cfg.versions
  padding : c.padding.length = 3
  segments : ∀ s ∈ c.segments, s.Valid cfg.payloadLimit
  tail : Tail c.tail

end Container

@[simp] theorem length_frameHeader (t : Int) (o p : Nat) : (frameHeader t o p).length = 16 := by
  simp [frameHeader]

theorem ofBytes_frameHeader {t : Int} {o p : Nat} (ht : Signed64 t) (ho : o < 256 ^ (4 : Nat))
    (hp : p < 256 ^ (4 : Nat)) : FrameHeader.ofBytes (frameHeader t o p) = ⟨t, o, p⟩ := by
  have h8 : (frameHeader t o p).take 8 = little 8 (wrap64 t) := by simp [frameHeader]
  have hs : slice 8 4 (frameHeader t o p) = little 4 o := by simp [frameHeader, slice]
  have hq : slice 12 4 (frameHeader t o p) = little 4 p := by
    rw [slice, frameHeader, List.drop_left' (by simp), List.take_of_length_le (by simp)]
  unfold FrameHeader.ofBytes
  rw [h8, hs, hq, Bytes.ofLittle_little (Bytes.wrap64_lt t), Bytes.unwrap64_wrap64 ht,
    Bytes.ofLittle_little ho, Bytes.ofLittle_little hp]

private theorem header_parts {raw : Bytes} (h : raw.length = 16) :
    raw = raw.take 8 ++ slice 8 4 raw ++ slice 12 4 raw ∧
      (raw.take 8).length = 8 ∧ (slice 8 4 raw).length = 4 ∧ (slice 12 4 raw).length = 4 := by
  refine ⟨?_, ?_, ?_, ?_⟩
  · have hd : slice 12 4 raw = (raw.drop 8).drop 4 := by
      rw [slice, List.drop_drop, List.take_of_length_le (by rw [List.length_drop]; omega)]
    rw [hd, slice, List.append_assoc, List.take_append_drop, List.take_append_drop]
  all_goals
    simp only [slice, List.length_take, List.length_drop]
    omega

/-- The fields of a header fit where they were read. -/
theorem ofBytes_bounds {raw : Bytes} (h : raw.length = 16) :
    Signed64 (FrameHeader.ofBytes raw).timestamp ∧
      (FrameHeader.ofBytes raw).outOfBand < 256 ^ (4 : Nat) ∧
      (FrameHeader.ofBytes raw).payload < 256 ^ (4 : Nat) := by
  obtain ⟨_, h8, h4, h4'⟩ := header_parts h
  exact ⟨Bytes.unwrap64_signed (Bytes.ofLittle_lt h8), Bytes.ofLittle_lt h4, Bytes.ofLittle_lt h4'⟩

/-- Sixteen bytes are the header of the fields read from them. -/
theorem frameHeader_ofBytes {raw : Bytes} (h : raw.length = 16) :
    frameHeader (FrameHeader.ofBytes raw).timestamp (FrameHeader.ofBytes raw).outOfBand
      (FrameHeader.ofBytes raw).payload = raw := by
  obtain ⟨hparts, h8, h4, h4'⟩ := header_parts h
  have hw : wrap64 (FrameHeader.ofBytes raw).timestamp = ofLittle (raw.take 8) :=
    Bytes.wrap64_unwrap64 (Bytes.ofLittle_lt h8)
  unfold frameHeader
  rw [hw]
  change little 8 (ofLittle (raw.take 8)) ++ little 4 (ofLittle (slice 8 4 raw)) ++
    little 4 (ofLittle (slice 12 4 raw)) = raw
  rw [Bytes.little_ofLittle h8, Bytes.little_ofLittle h4, Bytes.little_ofLittle h4', ← hparts]

private theorem lengths_eq_zero_iff {raw : Bytes} (h : raw.length = 16) :
    ((FrameHeader.ofBytes raw).outOfBand = 0 ∧ (FrameHeader.ofBytes raw).payload = 0) ↔
      slice 8 8 raw = List.replicate 8 0 := by
  obtain ⟨_, _, h4, h4'⟩ := header_parts h
  have hs : slice 8 8 raw = slice 8 4 raw ++ slice 12 4 raw := by
    rw [slice, slice, slice, show (8 : Nat) = 4 + 4 from rfl, List.take_add, List.drop_drop]
  change (ofLittle (slice 8 4 raw) = 0 ∧ ofLittle (slice 12 4 raw) = 0) ↔ _
  rw [Bytes.ofLittle_eq_zero_iff, Bytes.ofLittle_eq_zero_iff, hs, h4, h4',
    show (8 : Nat) = 4 + 4 from rfl, ← List.replicate_append_replicate]
  constructor
  · rintro ⟨ho, hp⟩
    rw [ho, hp]
  · intro he
    exact List.append_inj he (by rw [h4, List.length_replicate])

/-- A separator is a header whose two lengths are read as zero. -/
theorem beginsSeparator_iff {bs : Bytes} (h : 16 ≤ bs.length) :
    BeginsSeparator bs ↔
      (FrameHeader.ofBytes (bs.take 16)).outOfBand = 0 ∧
        (FrameHeader.ofBytes (bs.take 16)).payload = 0 := by
  have hlen : (bs.take 16).length = 16 := by
    rw [List.length_take]
    exact Nat.min_eq_left h
  have hs : slice 8 8 (bs.take 16) = slice 8 8 bs := by
    rw [slice, slice, List.drop_take, List.take_take]
    rfl
  rw [lengths_eq_zero_iff hlen, hs]
  exact and_iff_right h

/-- Where a frame cannot be read, the frames do not end cleanly either. -/
theorem not_tail_of_beginsFault {limit : Nat} {bs : Bytes} (h : BeginsFault limit bs) : ¬ Tail bs := by
  obtain ⟨hlen, hsome, _⟩ := h
  rintro (hshort | hsep)
  · exact Nat.not_le_of_lt hshort hlen
  · exact hsome ((beginsSeparator_iff hlen).mp hsep)

end MetricCapture.Replay
