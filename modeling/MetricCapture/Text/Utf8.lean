/-! UTF-8: bytes of characters, and characters of bytes with every ill-formed run marked. -/
namespace MetricCapture.Text.Utf8

def encode (cs : List Char) : List UInt8 :=
  cs.flatMap String.utf8EncodeChar

def ofString (s : String) : List UInt8 :=
  encode s.toList

inductive Cause where
  | invalidStart
  | invalidContinuation
  | unexpectedEnd
  deriving Repr, DecidableEq

structure Fault where
  lead : UInt8
  start : Nat
  length : Nat
  cause : Cause
  deriving Repr, DecidableEq

inductive Piece where
  | char (c : Char)
  | fault (f : Fault)
  deriving Repr, DecidableEq

/-- A character begun: its first byte and where that stands, the bytes seen, the value so
far, the bytes to come, and the bounds on the next of them. -/
structure Pending where
  lead : UInt8
  start : Nat
  seen : Nat
  value : Nat
  missing : Nat
  low : Nat
  high : Nat
  deriving Repr, DecidableEq

def Pending.fault (p : Pending) (cause : Cause) : Piece :=
  .fault ⟨p.lead, p.start, p.seen, cause⟩

/-- A decoder between two bytes: its position, the character begun, and what it has decoded,
the last piece first. -/
structure Decoder where
  position : Nat
  pending : Option Pending
  pieces : List Piece
  deriving Repr, DecidableEq

namespace Decoder

def empty : Decoder := ⟨0, none, []⟩

/-- The character a byte begins: how many bytes follow it, the bits it brings, and the bounds
on the byte after it, which keep out overlong forms, surrogates and what is beyond the last
code point. -/
def opening? (n : Nat) : Option (Nat × Nat × Nat × Nat) :=
  if 0xC2 ≤ n && n ≤ 0xDF then some (1, n - 0xC0, 0x80, 0xBF)
  else if 0xE0 ≤ n && n ≤ 0xEF then
    some (2, n - 0xE0, if n = 0xE0 then 0xA0 else 0x80, if n = 0xED then 0x9F else 0xBF)
  else if 0xF0 ≤ n && n ≤ 0xF4 then
    some (3, n - 0xF0, if n = 0xF0 then 0x90 else 0x80, if n = 0xF4 then 0x8F else 0xBF)
  else none

def start (d : Decoder) (b : UInt8) : Decoder :=
  let n := b.toNat
  if n < 0x80 then ⟨d.position + 1, none, .char (Char.ofNat n) :: d.pieces⟩
  else
    match opening? n with
    | some (missing, value, low, high) =>
      ⟨d.position + 1, some ⟨b, d.position, 1, value, missing, low, high⟩, d.pieces⟩
    | none => ⟨d.position + 1, none, .fault ⟨b, d.position, 1, .invalidStart⟩ :: d.pieces⟩

/-- One more byte. A byte that cannot continue the character begun ends it as an ill-formed
run, and begins another. -/
def step (d : Decoder) (b : UInt8) : Decoder :=
  match d.pending with
  | none => d.start b
  | some p =>
    let n := b.toNat
    if p.low ≤ n && n ≤ p.high then
      let value := 64 * p.value + (n - 0x80)
      if p.missing = 1 then ⟨d.position + 1, none, .char (Char.ofNat value) :: d.pieces⟩
      else
        ⟨d.position + 1, some ⟨p.lead, p.start, p.seen + 1, value, p.missing - 1, 0x80, 0xBF⟩,
          d.pieces⟩
    else
      ({ d with pending := none, pieces := p.fault .invalidContinuation :: d.pieces }).start b

def finish (d : Decoder) : List Piece :=
  match d.pending with
  | none => d.pieces.reverse
  | some p => (p.fault .unexpectedEnd :: d.pieces).reverse

end Decoder

def pieces (bytes : List UInt8) : List Piece :=
  (bytes.foldl Decoder.step Decoder.empty).finish

def replacement : Char := Char.ofNat 0xFFFD

def Piece.toChar : Piece → Char
  | .char c => c
  | .fault _ => replacement

def decodeLossy (bytes : List UInt8) : List Char :=
  (pieces bytes).map Piece.toChar

def Piece.fault? : Piece → Option Fault
  | .char _ => none
  | .fault f => some f

def decode (bytes : List UInt8) : Except Fault (List Char) :=
  let ps := pieces bytes
  match ps.findSome? Piece.fault? with
  | some f => .error f
  | none => .ok (ps.map Piece.toChar)

end MetricCapture.Text.Utf8
