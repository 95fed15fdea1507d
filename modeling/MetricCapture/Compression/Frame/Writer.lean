import MetricCapture.Compression.Block.Writer
import MetricCapture.Compression.Frame
/-! Writing frames. -/
namespace MetricCapture.Compression

def blockSize : Nat := 128 * 1024

def withHeader (last : Bool) (kind size : Nat) (body : Array UInt8) : Array UInt8 :=
  BitString.ofFields [(last.toNat, 1), (kind, 2), (size, 21)] ++ body

/-- Writes blocks from a position on. A block that does not get shorter is stored as it is. One
byte many times makes a block of its own kind, but not the first of a frame. -/
def writeBlocks (plan : SearchPlan) (data : Array UInt8) (start : Nat) (s : SearchState)
    (out : Array UInt8) : Array UInt8 :=
  let stop := min data.size (start + blockSize)
  let last : Bool := stop = data.size
  let plain := data.extract start stop
  let size := stop - start
  let (block, s') :=
    if size < 7 then (withHeader last 0 size plain, s)
    else
      let (sequences, s') := searchBlock plan data start stop s
      match compressBlock data start stop sequences with
      | none => (withHeader last 0 size plain, { s with places := s'.places })
      | some body =>
        let first := plain.getD 0 0
        if 0 < start && body.size < 25 && plain.all (· == first) then
          (withHeader last 1 size #[first], { s with places := s'.places })
        else (withHeader last 2 body.size body, s')
  if _h : data.size ≤ stop then out ++ block
  else writeBlocks plan data stop s' (out ++ block)
termination_by data.size - start
decreasing_by
  have : 0 < blockSize := by decide
  omega

def writeFrameHeader (plan : SearchPlan) (size : Nat) : Array UInt8 :=
  let oneSegment : Bool := size ≤ 2 ^ plan.windowLog
  let (form, width, stored) :=
    if size < 256 then (0, if oneSegment then 8 else 0, size)
    else if size < 65536 + 256 then (1, 16, size - 256)
    else if size < 0xFFFFFFFF then (2, 32, size)
    else (3, 64, size)
  BitString.ofFields
    ([(0, 5), (oneSegment.toNat, 1), (form, 2)] ++
      (if oneSegment then [] else [(0, 3), (plan.windowLog - 10, 5)]) ++ [(stored, width)])

def deflate (bytes : Bytes) : Bytes :=
  let data := bytes.toArray
  let plan := SearchPlan.ofSize data.size
  frameMarker ++
    (writeBlocks plan data 0 (SearchState.start plan) (writeFrameHeader plan data.size)).toList

end MetricCapture.Compression
