import MetricCapture.Compression.Bits
/-! Bits written one number after another, the lowest bit of each number first. -/
namespace MetricCapture.Compression

/-- Bits written so far: whole bytes, and fewer than eight bits behind them as a number. -/
structure BitString where
  bytes : Array UInt8 := #[]
  rest : Nat := 0
  count : Nat := 0

namespace BitString

def settle (bytes : Array UInt8) (rest count : Nat) : BitString :=
  if 8 ≤ count then settle (bytes.push (UInt8.ofNat rest)) (rest / 256) (count - 8)
  else ⟨bytes, rest, count⟩
termination_by count

def push (s : BitString) (value width : Nat) : BitString :=
  settle s.bytes (s.rest + value % 2 ^ width * 2 ^ s.count) (s.count + width)

def toBytes (s : BitString) : Array UInt8 :=
  if s.count = 0 then s.bytes else s.bytes.push (UInt8.ofNat s.rest)

def closed (s : BitString) : Array UInt8 := (s.push 1 1).toBytes

def ofFields (fields : List (Nat × Nat)) : Array UInt8 :=
  (fields.foldl (fun (s : BitString) f => s.push f.1 f.2) {}).toBytes

end BitString
end MetricCapture.Compression
