/-! Byte strings, and whole numbers written in a fixed number of bytes. -/
namespace MetricCapture

abbrev Bytes := List UInt8

namespace Bytes

def little : Nat → Nat → Bytes
  | 0, _ => []
  | width + 1, n => UInt8.ofNat (n % 256) :: little width (n / 256)

def ofLittle : Bytes → Nat
  | [] => 0
  | b :: r => b.toNat + 256 * ofLittle r

def ofBig (bs : Bytes) : Nat :=
  bs.foldl (fun n b => 256 * n + b.toNat) 0

def number (big : Bool) (bs : Bytes) : Nat :=
  if big then ofBig bs else ofLittle bs

def slice (offset length : Nat) (bs : Bytes) : Bytes :=
  (bs.drop offset).take length

def bigAt (offset length : Nat) (bs : Bytes) : Nat :=
  ofBig (slice offset length bs)

def numberAt (big : Bool) (offset length : Nat) (bs : Bytes) : Nat :=
  number big (slice offset length bs)

def wrap64 (n : Int) : Nat :=
  (n % 0x10000000000000000).toNat

def unwrap64 (n : Nat) : Int :=
  if n < 0x8000000000000000 then n else (n : Int) - 0x10000000000000000

private def hexDigit (n : Nat) : Char :=
  if n < 10 then Char.ofNat (48 + n) else Char.ofNat (87 + n)

def hex (bs : Bytes) : String :=
  String.ofList (bs.flatMap fun b => [hexDigit (b.toNat / 16), hexDigit (b.toNat % 16)])

end Bytes
end MetricCapture
