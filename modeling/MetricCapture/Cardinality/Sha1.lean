import MetricCapture.Bytes.Order
/-! The SHA-1 digest of a byte string: blocks of sixteen words, each mixed into five words of state
in eighty rounds. -/
namespace MetricCapture.Sha1

def rotate (places : UInt32) (w : UInt32) : UInt32 :=
  (w <<< places) ||| (w >>> (32 - places))

structure State where
  a : UInt32
  b : UInt32
  c : UInt32
  d : UInt32
  e : UInt32
  deriving Repr, DecidableEq

def State.initial : State :=
  ⟨0x67452301, 0xEFCDAB89, 0x98BADCFE, 0x10325476, 0xC3D2E1F0⟩

def mixing (round : Nat) (b c d : UInt32) : UInt32 :=
  if round < 20 then ((b &&& c) ||| (~~~b &&& d)) + 0x5A827999
  else if round < 40 then (b ^^^ c ^^^ d) + 0x6ED9EBA1
  else if round < 60 then ((b &&& c) ||| (b &&& d) ||| (c &&& d)) + 0x8F1BBCDC
  else (b ^^^ c ^^^ d) + 0xCA62C1D6

def State.round (s : State) (step : Nat × UInt32) : State :=
  ⟨rotate 5 s.a + mixing step.1 s.b s.c s.d + s.e + step.2, s.a, rotate 30 s.b, s.c, s.d⟩

def extend : Nat → List UInt32 → List UInt32
  | 0, words => words
  | more + 1, words =>
    let word := words.getD 2 0 ^^^ words.getD 7 0 ^^^ words.getD 13 0 ^^^ words.getD 15 0
    extend more (rotate 1 word :: words)

def schedule (block : List UInt32) : List UInt32 :=
  (extend 64 block.reverse).reverse

def State.absorb (s : State) (block : List UInt32) : State :=
  let t := ((List.range 80).zip (schedule block)).foldl State.round s
  ⟨s.a + t.a, s.b + t.b, s.c + t.c, s.d + t.d, s.e + t.e⟩

def words : Nat → Bytes → List UInt32
  | 0, _ => []
  | count + 1, bs => UInt32.ofNat (Bytes.bigAt 0 4 bs) :: words count (bs.drop 4)

def wordBytes (w : UInt32) : Bytes :=
  (Bytes.little 4 w.toNat).reverse

def padding (length : Nat) : Bytes :=
  0x80 :: (List.replicate ((119 - length % 64) % 64) 0 ++ (Bytes.little 8 (8 * length)).reverse)

def absorbAll : Nat → State → Bytes → State
  | 0, s, _ => s
  | blocks + 1, s, bs => absorbAll blocks (s.absorb (words 16 bs)) (bs.drop 64)

def digest (bs : Bytes) : Bytes :=
  let padded := bs ++ padding bs.length
  let s := absorbAll (padded.length / 64) State.initial padded
  [s.a, s.b, s.c, s.d, s.e].flatMap wordBytes

end MetricCapture.Sha1
