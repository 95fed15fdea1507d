import MetricCapture.Compression.Fse
/-! Huffman tables of literals: the weights that describe them, and reading symbols by them. -/
namespace MetricCapture.Compression

/-- A table by which a symbol is read from the next `log` bits. Each cell holds a symbol and
the length of its code. -/
structure HuffmanTable where
  log : Nat
  cells : Array (UInt8 × Nat)

namespace HuffmanTable

def maxLog : Nat := 12

/-- Weights read by two states in turn, until the bits run out. The state that has not been
used then gives the last weight. -/
def readWeights (t : FseTable) : Nat → Nat → Nat → BackwardReader → List Nat → Option (List Nat)
  | 0, _, _, _, _ => none
  | fuel + 1, current, other, r, done =>
    let done' := (t.cell current).symbol :: done
    let (current', r') := t.next current r
    if r'.overrun then some ((t.cell other).symbol :: done').reverse
    else readWeights t fuel other current' r' done'

def decompressWeights (data : Array UInt8) : Option (List Nat) :=
  match FseTable.readDescription data 255 6 with
  | none => none
  | some (log, shares, used) =>
    match BackwardReader.open? (data.extract used data.size) with
    | none => none
    | some r =>
      let t := FseTable.ofShares log shares
      let (first, r1) := t.start r
      let (second, r2) := t.start r1
      readWeights t 254 first second r2 []

def plainWeights (data : Array UInt8) (count : Nat) : List Nat :=
  (data.toList.flatMap fun b => [b.toNat / 16, b.toNat % 16]).take count

def readDescription (data : Array UInt8) : Option (List Nat × Nat) :=
  match data[0]? with
  | none => none
  | some head =>
    let n := head.toNat
    if 128 ≤ n then
      let count := n - 127
      let size := (count + 1) / 2
      if data.size < size + 1 then none
      else some (plainWeights (data.extract 1 (size + 1)) count, size + 1)
    else if data.size < n + 1 then none
    else (decompressWeights (data.extract 1 (n + 1))).map fun ws => (ws, n + 1)

def weightShare (w : Nat) : Nat := if w = 0 then 0 else 2 ^ (w - 1)

/-- All weights, with that of the last symbol, which takes what the others leave of the next
power of two; and the length of the longest code. -/
def completeWeights (ws : List Nat) : Option (List Nat × Nat) :=
  let total := (ws.map weightShare).sum
  if ws.any (maxLog < ·) || total = 0 then none
  else
    let log := Nat.log2 total + 1
    let rest := 2 ^ log - total
    if maxLog < log || rest ≠ 2 ^ Nat.log2 rest then none
    else
      let all := ws ++ [Nat.log2 rest + 1]
      let ones := all.count 1
      if ones < 2 || ones % 2 = 1 then none else some (all, log)

def ofWeights (weights : List Nat) (log : Nat) : HuffmanTable :=
  let cells := (List.range log).flatMap fun i =>
    weights.zipIdx.flatMap fun p =>
      if p.1 = i + 1 then List.replicate (2 ^ i) (UInt8.ofNat p.2, log - i) else []
  ⟨log, cells.toArray⟩

def read? (data : Array UInt8) : Option (HuffmanTable × Nat) :=
  match readDescription data with
  | none => none
  | some (ws, used) => (completeWeights ws).map fun p => (ofWeights p.1 p.2, used)

def readSymbols (t : HuffmanTable) :
    Nat → BackwardReader → Array UInt8 → Array UInt8 × BackwardReader
  | 0, r, out => (out, r)
  | count + 1, r, out =>
    let (symbol, bits) := t.cells.getD (r.peek t.log) (0, 0)
    readSymbols t count (r.skip bits) (out.push symbol)

def readStream (t : HuffmanTable) (data : Array UInt8) (count : Nat) (out : Array UInt8) :
    Option (Array UInt8) :=
  match BackwardReader.open? data with
  | none => none
  | some r =>
    let (out', r') := readSymbols t count r out
    if r'.finished then some out' else none

/-- Reads four streams of `count` symbols together. Their lengths stand in front, but for that
of the last. -/
def readFourStreams (t : HuffmanTable) (data : Array UInt8) (count : Nat) :
    Option (Array UInt8) :=
  if data.size < 10 then none
  else
    let l1 := bytesAt data 2 0
    let l2 := bytesAt data 2 2
    let l3 := bytesAt data 2 4
    let each := (count + 3) / 4
    if data.size < 6 + l1 + l2 + l3 || count < 3 * each then none
    else do
      let a ← readStream t (data.extract 6 (6 + l1)) each #[]
      let b ← readStream t (data.extract (6 + l1) (6 + l1 + l2)) each a
      let c ← readStream t (data.extract (6 + l1 + l2) (6 + l1 + l2 + l3)) each b
      readStream t (data.extract (6 + l1 + l2 + l3) data.size) (count - 3 * each) c

end HuffmanTable
end MetricCapture.Compression
