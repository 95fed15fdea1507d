import MetricCapture.Compression.Bits
/-! The 64-bit checksum of a frame's content. -/
namespace MetricCapture.Compression.Checksum

private def p1 : UInt64 := 0x9E3779B185EBCA87
private def p2 : UInt64 := 0xC2B2AE3D27D4EB4F
private def p3 : UInt64 := 0x165667B19E3779F9
private def p4 : UInt64 := 0x85EBCA77C2B2AE63
private def p5 : UInt64 := 0x27D4EB2F165667C5

private def rotate (x : UInt64) (n : UInt64) : UInt64 :=
  (x <<< n) ||| (x >>> (64 - n))

private def round (acc input : UInt64) : UInt64 :=
  rotate (acc + input * p2) 31 * p1

private def merge (acc lane : UInt64) : UInt64 :=
  (acc ^^^ round 0 lane) * p1 + p4

structure Lanes where
  a : UInt64
  b : UInt64
  c : UInt64
  d : UInt64

private def stripes (data : Array UInt8) : Nat → Nat → Lanes → Lanes
  | 0, _, l => l
  | n + 1, i, l =>
    stripes data n (i + 32)
      ⟨round l.a (wordAt data i 8), round l.b (wordAt data (i + 8) 8),
        round l.c (wordAt data (i + 16) 8), round l.d (wordAt data (i + 24) 8)⟩

private def eights (data : Array UInt8) : Nat → Nat → UInt64 → UInt64
  | 0, _, h => h
  | n + 1, i, h =>
    eights data n (i + 8) (rotate (h ^^^ round 0 (wordAt data i 8)) 27 * p1 + p4)

private def ones (data : Array UInt8) : Nat → Nat → UInt64 → UInt64
  | 0, _, h => h
  | n + 1, i, h =>
    ones data n (i + 1) (rotate (h ^^^ ((data.getD i 0).toUInt64 * p5)) 11 * p1)

def hash (data : Array UInt8) : UInt64 :=
  let n := data.size
  let full := n / 32
  let start : UInt64 :=
    if full = 0 then p5
    else
      let l := stripes data full 0 ⟨p1 + p2, p2, 0, 0 - p1⟩
      let sum := rotate l.a 1 + rotate l.b 7 + rotate l.c 12 + rotate l.d 18
      merge (merge (merge (merge sum l.a) l.b) l.c) l.d
  let at8 := 32 * full
  let count8 := (n - at8) / 8
  let h8 := eights data count8 at8 (start + n.toUInt64)
  let at4 := at8 + 8 * count8
  let h4 :=
    if 4 ≤ n - at4 then rotate (h8 ^^^ (wordAt data at4 4 * p1)) 23 * p2 + p3 else h8
  let at1 := if 4 ≤ n - at4 then at4 + 4 else at4
  let h1 := ones data (n - at1) at1 h4
  let x := (h1 ^^^ (h1 >>> 33)) * p2
  let y := (x ^^^ (x >>> 29)) * p3
  y ^^^ (y >>> 32)

end MetricCapture.Compression.Checksum
