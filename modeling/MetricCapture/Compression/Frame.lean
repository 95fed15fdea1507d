import MetricCapture.Compression.Block
import MetricCapture.Compression.Checksum
import MetricCapture.Source.Basic
/-! Frames: what a compressed stream in the Zstandard format consists of, and the source of what
it holds. -/
namespace MetricCapture.Compression

structure FrameHeader where
  contentSize : Option Nat
  window : Nat
  hasChecksum : Bool

def FrameHeader.blockLimit (h : FrameHeader) : Nat := min h.window (128 * 1024)

def maxWindow : Nat := 128 * 1024 * 1024 + 1

def frameMarker : Bytes := [0x28, 0xB5, 0x2F, 0xFD]

def beginsSkippable : Bytes → Bool
  | [] => true
  | b :: rest => b.toNat / 16 = 5 && rest.isPrefixOf [0x2A, 0x4D, 0x18]

inductive FrameStart where
  /-- The stream ends before it is clear. -/
  | short
  | bad
  | skippable (rest : Bytes)
  | frame (h : FrameHeader) (rest : Bytes)

def windowOf (b : UInt8) : Nat :=
  let base := 2 ^ (10 + b.toNat / 8)
  base + base / 8 * (b.toNat % 8)

structure Descriptor where
  reserved : Bool
  oneSegment : Bool
  hasChecksum : Bool
  windowSize : Nat
  idSize : Nat
  contentSizeSize : Nat

namespace Descriptor

def ofByte (b : UInt8) : Descriptor :=
  let d := b.toNat
  let oneSegment : Bool := d / 32 % 2 = 1
  { reserved := d / 8 % 2 = 1
    oneSegment
    hasChecksum := d / 4 % 2 = 1
    windowSize := if oneSegment then 0 else 1
    idSize := [0, 1, 2, 4].getD (d % 4) 0
    contentSizeSize := [if oneSegment then 1 else 0, 2, 4, 8].getD (d / 64) 0 }

def length (d : Descriptor) : Nat := d.windowSize + d.idSize + d.contentSizeSize

/-- The size of the content. Sizes of two bytes leave out what one byte can say. -/
def contentSize (d : Descriptor) (fields : Bytes) : Nat :=
  let size := Bytes.ofLittle (Bytes.slice (d.windowSize + d.idSize) d.contentSizeSize fields)
  if d.contentSizeSize = 2 then size + 256 else size

def window (d : Descriptor) (fields : Bytes) : Nat :=
  if d.oneSegment then d.contentSize fields else windowOf (fields.headD 0)

def dictionary (d : Descriptor) (fields : Bytes) : Nat :=
  Bytes.ofLittle (Bytes.slice d.windowSize d.idSize fields)

def header (d : Descriptor) (fields : Bytes) : FrameHeader where
  contentSize := if d.contentSizeSize = 0 then none else some (d.contentSize fields)
  window := d.window fields
  hasChecksum := d.hasChecksum

end Descriptor

def readFrameHeader : Bytes → FrameStart
  | [] => .short
  | b :: rest =>
    let d := Descriptor.ofByte b
    if d.reserved then .bad
    else if (rest.take d.length).length < d.length then .short
    else if d.dictionary rest ≠ 0 || maxWindow < d.window rest then .bad
    else .frame (d.header rest) (rest.drop d.length)

theorem length_lt_of_readFrameHeader {data rest : Bytes} {h : FrameHeader}
    (e : readFrameHeader data = .frame h rest) : rest.length < data.length := by
  unfold readFrameHeader at e
  split at e
  · cases e
  · dsimp only at e
    split at e
    · cases e
    · split at e
      · cases e
      · split at e
        · cases e
        · cases e
          simp only [List.length_drop, List.length_cons]
          omega

theorem readFrameHeader_ne_skippable (data rest : Bytes) :
    readFrameHeader data ≠ .skippable rest := by
  unfold readFrameHeader
  split
  · simp
  · dsimp only
    split
    · simp
    · split
      · simp
      · split <;> simp

/-- Reads what stands where a frame begins. Fewer than five bytes may still become one. -/
def readFrameStart (data : Bytes) : FrameStart :=
  let head := data.take 4
  if frameMarker.isPrefixOf head then readFrameHeader (data.drop 4)
  else if beginsSkippable head then
    if head.length < 4 then .short
    else if (data.take 8).length < 8 then .short
    else
      let size := Bytes.ofLittle (Bytes.slice 4 4 data)
      if (data.drop 8 |>.take size).length < size then .short
      else .skippable (data.drop (8 + size))
  else if head.isPrefixOf frameMarker then .short
  else .bad

inductive FrameEnd where
  | finished (rest : Bytes)
  /-- The stream is cut off. -/
  | cut (window : Nat)
  | bad

structure BlockHeader where
  last : Bool
  kind : Nat
  size : Nat

def BlockHeader.ofBytes (bs : Bytes) : BlockHeader :=
  let n := Bytes.ofLittle bs
  ⟨n % 2 = 1, n / 2 % 4, n / 8⟩

def BlockHeader.stored (h : BlockHeader) : Nat := if h.kind = 1 then 1 else h.size

def readBlock (start limit : Nat) (h : BlockHeader) (s : BlockState) (data : Bytes)
    (out : Array UInt8) : Option (BlockState × Array UInt8) :=
  match h.kind with
  | 0 => some (s, out ++ data.toArray)
  | 1 =>
    if limit < h.size then none
    else some (s, out ++ Array.replicate h.size (data.headD 0))
  | _ => decompressBlock start limit s data.toArray out

/-- The bytes that a read loses when the stream is cut off right behind a block: all that are
not taken of it. The first block of a frame is not looked at by a read that stops before
it. -/
def cutWindow (start before after : Nat) : Nat :=
  if before = start then after - before - 1 else after - before

def checksumOf (content : Array UInt8) : Nat :=
  (Checksum.hash content).toNat % 0x100000000

/-- What follows the last block of a frame that began at `start`: a checksum, if there is one.
If nothing at all is left, the bytes of the last block may be lost. -/
def finishFrame (h : FrameHeader) (start lost : Nat) (data : Bytes) (out : Array UInt8) :
    FrameEnd :=
  if h.hasChecksum then
    if (data.take 4).length < 4 then .cut (if data.isEmpty then lost else 0)
    else if Bytes.ofLittle (data.take 4) = checksumOf (out.extract start out.size) then
      .finished (data.drop 4)
    else .bad
  else .finished data

/-- What a block gives that is cut off. Bytes that it holds as they are come one by one; any other block
is decompressed only when it is whole. -/
def cutBlock (start : Nat) (h : BlockHeader) (data : Bytes) (out : Array UInt8) :
    Array UInt8 × FrameEnd :=
  if h.kind = 0 then
    (out ++ data.toArray, .cut (cutWindow start out.size (out.size + data.length)))
  else (out, .cut 0)

/-- Reads the blocks of a frame that began at `start`. When nothing at all is left behind a
block, `lost` of its bytes may be. -/
def readBlocks (h : FrameHeader) (start lost : Nat) (s : BlockState) (data : Bytes)
    (out : Array UInt8) : Array UInt8 × FrameEnd :=
  if _short : (data.take 3).length < 3 then (out, .cut (if data.isEmpty then lost else 0))
  else
    let b := BlockHeader.ofBytes (data.take 3)
    let body := (data.drop 3).take b.stored
    let rest := data.drop (3 + b.stored)
    if b.kind = 3 || h.blockLimit < b.stored then (out, .bad)
    else if b.stored = 0 then
      if b.last then (out, finishFrame h start 0 rest out)
      else readBlocks h start 0 s rest out
    else if body.length < b.stored then cutBlock start b body out
    else
      match readBlock start h.blockLimit b s body out with
      | none => (out, .bad)
      | some (s', out') =>
        let lost' := cutWindow start out.size out'.size
        if b.last then
          if h.contentSize.any (· ≠ out'.size - start) then (out, .bad)
          else (out', finishFrame h start lost' rest out')
        else readBlocks h start lost' s' rest out'
termination_by data.length
decreasing_by
  all_goals
    simp only [List.length_take] at _short
    simp only [List.length_drop]
    omega

private theorem length_drop_le (n : Nat) (bs : Bytes) : (bs.drop n).length ≤ bs.length := by
  simp

/-- The blocks of a frame take bytes away. -/
theorem length_readBlocks_le (h : FrameHeader) (start lost : Nat) (s : BlockState) (data : Bytes)
    (out : Array UInt8) (rest : Bytes)
    (e : (readBlocks h start lost s data out).2 = .finished rest) :
    rest.length ≤ data.length := by
  have finish (l : Nat) (d : Bytes) (o : Array UInt8)
      (e : finishFrame h start l d o = .finished rest) : rest.length ≤ d.length := by
    unfold finishFrame at e
    split at e
    · split at e
      · cases e
      · split at e
        · cases e
          simp
        · cases e
    · cases e
      exact Nat.le_refl _
  fun_induction readBlocks h start lost s data out with
  | case1 => cases e
  | case2 => cases e
  | case3 => exact Nat.le_trans (finish _ _ _ e) (length_drop_le _ _)
  | case4 _ _ _ _ _ _ _ _ _ _ ih => exact Nat.le_trans (ih e) (length_drop_le _ _)
  | case5 =>
    unfold cutBlock at e
    split at e <;> cases e
  | case6 => cases e
  | case7 => cases e
  | case8 => exact Nat.le_trans (finish _ _ _ e) (length_drop_le _ _)
  | case9 _ _ _ _ _ _ _ _ _ _ _ _ _ _ _ _ ih => exact Nat.le_trans (ih e) (length_drop_le _ _)

/-- The length of what follows the start of a frame. -/
theorem length_readFrameStart_lt {data rest : Bytes}
    (e : readFrameStart data = .skippable rest ∨ ∃ h, readFrameStart data = .frame h rest) :
    rest.length < data.length := by
  unfold readFrameStart at e
  dsimp only at e
  split at e
  · rcases e with e | e
    · exact absurd e (readFrameHeader_ne_skippable _ _)
    · obtain ⟨h, e⟩ := e
      have := length_lt_of_readFrameHeader e
      simp only [List.length_drop] at this
      omega
  · split at e
    · split at e
      · simp at e
      · rename_i h4
        split at e
        · simp at e
        · split at e
          · simp at e
          · simp only [FrameStart.skippable.injEq, reduceCtorEq, exists_false, or_false] at e
            subst e
            simp only [List.length_take] at h4
            simp only [List.length_drop]
            omega
    · split at e <;> simp at e

def readStream (data : Bytes) (out : Array UInt8) : Array UInt8 × Ending :=
  match _e : readFrameStart data with
  | .short => (out, .complete)
  | .bad => (out, .corrupt false)
  | .skippable rest => readStream rest out
  | .frame h rest =>
    match _b : readBlocks h out.size 0 {} rest out with
    | (out', .finished rest') => readStream rest' out'
    | (out', .cut window) => (out', if window = 0 then .complete else .cut window)
    | (out', .bad) => (out', .corrupt true)
termination_by data.length
decreasing_by
  · exact length_readFrameStart_lt (.inl _e)
  · have h1 := length_readFrameStart_lt (.inr ⟨_, _e⟩)
    have h2 := length_readBlocks_le h out.size 0 {} rest out rest' (by rw [_b])
    omega

def inflate (data : Bytes) : Source :=
  let (out, ending) := readStream data #[]
  ⟨out.toList, ending⟩

end MetricCapture.Compression
