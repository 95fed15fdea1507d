import MetricCapture.Compression.Frame
import MetricCapture.Proofs.Bytes.LittleEndian
/-! Stored bytes: a frame of one block that holds its bytes as they are gives them again. If that is not
the last block of the frame, the stream is cut off right behind it. -/
namespace MetricCapture.Compression

open Bytes (little ofLittle slice)

def stored (content : Bytes) : Bytes :=
  frameMarker ++ (0x20 :: UInt8.ofNat content.length ::
    (little 3 (8 * content.length + 1) ++ content))

def storedHeader (content : Bytes) : FrameHeader :=
  ⟨some content.length, content.length, false⟩

/-- A frame of unknown size whose only block so far stores the bytes and is not the last: what a stream
has come to that is flushed and not ended. -/
def flushed (content : Bytes) : Bytes :=
  frameMarker ++ (0x00 :: 0x58 :: (little 3 (8 * content.length) ++ content))

def flushedHeader : FrameHeader := ⟨none, 2 * 1024 * 1024, false⟩

variable {content : Bytes}

/-- A frame is begun by its marker and a header that can be read. -/
theorem readFrameStart_marker {fields rest : Bytes} {h : FrameHeader}
    (hheader : readFrameHeader fields = .frame h rest) :
    readFrameStart (frameMarker ++ fields) = .frame h rest := by
  have hmarker : (frameMarker ++ fields).take 4 = frameMarker := List.take_left' rfl
  have hrest : (frameMarker ++ fields).drop 4 = fields := List.drop_left' rfl
  unfold readFrameStart
  rw [hmarker, hrest]
  exact (if_pos (by decide)).trans hheader

private theorem readFrameStart_stored (h : content.length < 256) :
    readFrameStart (stored content) =
      .frame (storedHeader content) (little 3 (8 * content.length + 1) ++ content) := by
  have hsize : (UInt8.ofNat content.length).toNat = content.length := by
    rw [UInt8.toNat_ofNat']
    exact Nat.mod_eq_of_lt h
  have hdescriptor : Descriptor.ofByte 0x20 = ⟨false, true, false, 0, 0, 1⟩ := rfl
  refine readFrameStart_marker ?_
  rw [readFrameHeader, hdescriptor]
  simp [Descriptor.length, Descriptor.dictionary, Descriptor.window, Descriptor.contentSize,
    Descriptor.header, slice, ofLittle, hsize, storedHeader, maxWindow]
  omega

private theorem readFrameStart_flushed (content : Bytes) :
    readFrameStart (flushed content) =
      .frame flushedHeader (little 3 (8 * content.length) ++ content) := by
  have hdescriptor : Descriptor.ofByte 0x00 = ⟨false, false, false, 1, 0, 0⟩ := rfl
  refine readFrameStart_marker ?_
  rw [readFrameHeader, hdescriptor]
  simp [Descriptor.length, Descriptor.dictionary, Descriptor.window, Descriptor.header, slice, ofLittle,
    flushedHeader, windowOf, maxWindow]

/-- The header of a block that stores bytes, the last of its frame or not. -/
private theorem ofBytes_little (h : content.length < 256) (last : Bool) :
    BlockHeader.ofBytes (little 3 (8 * content.length + last.toNat)) = ⟨last, 0, content.length⟩ := by
  have hn : ofLittle (little 3 (8 * content.length + last.toNat)) = 8 * content.length + last.toNat :=
    Bytes.ofLittle_little (by have := last.toNat_le; omega)
  unfold BlockHeader.ofBytes
  rw [hn]
  cases last
  · simp only [BlockHeader.mk.injEq, decide_eq_false_iff_not, Bool.toNat_false]
    omega
  · simp only [BlockHeader.mk.injEq, decide_eq_true_eq, Bool.toNat_true]
    omega

private theorem readBlocks_stored (h : content.length < 256) :
    readBlocks (storedHeader content) 0 0 {} (little 3 (8 * content.length + 1) ++ content) #[] =
      (content.toArray, .finished []) := by
  have hhead : (little 3 (8 * content.length + 1) ++ content).take 3 =
      little 3 (8 * content.length + 1) := List.take_left' rfl
  have hbody : (little 3 (8 * content.length + 1) ++ content).drop 3 = content :=
    List.drop_left' rfl
  have hnothing : (little 3 (8 * content.length + 1) ++ content).drop (3 + content.length) = [] :=
    List.drop_eq_nil_of_le (by simp)
  have hlimit : (storedHeader content).blockLimit = content.length := Nat.min_eq_left (by
    change content.length ≤ _
    omega)
  have hheader : BlockHeader.ofBytes (little 3 (8 * content.length + 1)) = ⟨true, 0, content.length⟩ :=
    ofBytes_little h true
  rw [readBlocks]
  simp only [hhead, hbody, hheader, hlimit, Bytes.length_little]
  simp [BlockHeader.stored, hnothing, readBlock, finishFrame, storedHeader]

/-- Where nothing stands behind a block that is not the last, what was not taken of it may be lost. -/
theorem readBlocks_nil (h : FrameHeader) (start lost : Nat) (s : BlockState) (out : Array UInt8) :
    readBlocks h start lost s [] out = (out, .cut lost) := by
  rw [readBlocks]
  exact dif_pos (by decide)

private theorem readBlocks_flushed (h : content.length < 256) (hne : content ≠ []) :
    readBlocks flushedHeader 0 0 {} (little 3 (8 * content.length) ++ content) #[] =
      (content.toArray, .cut (content.length - 1)) := by
  have hhead : (little 3 (8 * content.length) ++ content).take 3 = little 3 (8 * content.length) :=
    List.take_left' rfl
  have hbody : (little 3 (8 * content.length) ++ content).drop 3 = content := List.drop_left' rfl
  have hnothing : (little 3 (8 * content.length) ++ content).drop (3 + content.length) = [] :=
    List.drop_eq_nil_of_le (by simp)
  have hheader : BlockHeader.ofBytes (little 3 (8 * content.length)) = ⟨false, 0, content.length⟩ :=
    ofBytes_little h false
  have hlimit : ¬ flushedHeader.blockLimit < content.length := by
    change ¬ 131072 < content.length
    omega
  have hcut : cutWindow 0 0 content.length = content.length - 1 := rfl
  rw [readBlocks]
  simp only [hhead, hbody, hheader, Bytes.length_little]
  simp [BlockHeader.stored, hlimit, hne, hnothing, readBlock, hcut, readBlocks_nil]

/-- Behind a frame that is read to its end the stream goes on. -/
theorem readStream_frame {data rest rest' : Bytes} {out out' : Array UInt8} {h : FrameHeader}
    (hstart : readFrameStart data = .frame h rest)
    (hblocks : readBlocks h out.size 0 {} rest out = (out', .finished rest')) :
    readStream data out = readStream rest' out' := by
  rw [readStream]
  split <;> rename_i he <;> rw [hstart] at he <;> cases he
  split <;> rename_i he <;> rw [hblocks] at he <;> cases he
  rfl

/-- In a frame that is cut off the stream ends. -/
theorem readStream_cut {data rest : Bytes} {out out' : Array UInt8} {h : FrameHeader} {window : Nat}
    (hstart : readFrameStart data = .frame h rest)
    (hblocks : readBlocks h out.size 0 {} rest out = (out', .cut window)) :
    readStream data out = (out', if window = 0 then .complete else .cut window) := by
  rw [readStream]
  split <;> rename_i he <;> rw [hstart] at he <;> cases he
  split <;> rename_i he <;> rw [hblocks] at he <;> cases he
  rfl

/-- A stream ends where nothing is left. -/
theorem readStream_nil (out : Array UInt8) : readStream [] out = (out, .complete) := by
  rw [readStream]
  split <;> rename_i he <;> cases he
  rfl

/-- Stored bytes are given again, and the stream ends behind them. -/
theorem inflate_stored (h : content.length < 256) :
    inflate (stored content) = Source.ofBytes content := by
  have hstream : readStream (stored content) #[] = readStream [] content.toArray :=
    readStream_frame (readFrameStart_stored h) (readBlocks_stored h)
  unfold inflate
  rw [hstream, readStream_nil]
  rfl

/-- What a stream has been flushed to is given as a whole, but for what a read leaves of it. -/
theorem inflate_flushed (h : content.length < 256) (hlong : 1 < content.length) :
    inflate (flushed content) = ⟨content, .cut (content.length - 1)⟩ := by
  have hne : content ≠ [] := List.ne_nil_of_length_pos (by omega)
  have hwindow : content.length - 1 ≠ 0 := by omega
  have hstream := @readStream_cut _ _ #[] _ _ _ (readFrameStart_flushed content)
    (readBlocks_flushed h hne)
  unfold inflate
  rw [hstream, if_neg hwindow]

end MetricCapture.Compression
