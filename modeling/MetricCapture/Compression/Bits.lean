import MetricCapture.Number.Core
/-! Bits of a run of bytes, the lowest bit of the first byte first, read forwards and
backwards. Bits outside the run are zero. -/
namespace MetricCapture.Compression

def bytesAt (data : Array UInt8) : Nat → Nat → Nat
  | 0, _ => 0
  | count + 1, i => (data.getD i 0).toNat + 256 * bytesAt data count (i + 1)

def wordAt (data : Array UInt8) (i : Nat) : Nat → UInt64
  | 0 => 0
  | count + 1 => (data.getD i 0).toUInt64 + 256 * wordAt data (i + 1) count

def bitsAt (data : Array UInt8) (start count : Nat) : Nat :=
  bytesAt data ((start % 8 + count + 7) / 8) (start / 8) / 2 ^ (start % 8) % 2 ^ count

/-- A reader that takes bits from the end of its data. Once more bits have been taken than
there are, fewer than none are left. -/
structure BackwardReader where
  data : Array UInt8
  left : Int

namespace BackwardReader

/-- The reader of some bytes. The highest set bit of the last byte marks the end. -/
def open? (data : Array UInt8) : Option BackwardReader :=
  match data.back? with
  | none => none
  | some last =>
    if last = 0 then none
    else some ⟨data, (8 * (data.size - 1) + Nat.log2 last.toNat : Nat)⟩

def peek (r : BackwardReader) (count : Nat) : Nat :=
  let low := r.left - count
  if 0 ≤ low then bitsAt r.data low.toNat count
  else bitsAt r.data 0 r.left.toNat * 2 ^ (count - r.left.toNat)

def skip (r : BackwardReader) (count : Nat) : BackwardReader :=
  { r with left := r.left - count }

def read (r : BackwardReader) (count : Nat) : Nat × BackwardReader :=
  (r.peek count, r.skip count)

def finished (r : BackwardReader) : Bool :=
  r.left == 0

def overrun (r : BackwardReader) : Bool :=
  r.left < 0

end BackwardReader
end MetricCapture.Compression
