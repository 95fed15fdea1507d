import MetricCapture.Compression.Block
import MetricCapture.Compression.Huffman.Writer
import MetricCapture.Compression.Search
/-! Writing compressed blocks: literals and sequences. -/
namespace MetricCapture.Compression

def leastGain (size : Nat) : Nat := size / 64 + 2

namespace Literals

def plainHeader (kind size : Nat) : Array UInt8 :=
  BitString.ofFields
    (if size < 32 then [(kind, 2), (0, 1), (size, 5)]
    else if size < 4096 then [(kind, 2), (1, 2), (size, 12)]
    else [(kind, 2), (3, 2), (size, 20)])

def codedHeader (oneStream : Bool) (size coded : Nat) : Array UInt8 :=
  let (form, width) :=
    if size < 1024 then (if oneStream then 0 else 1, 10)
    else if size < 16 * 1024 then (2, 14)
    else (3, 18)
  BitString.ofFields [(2, 2), (form, 2), (size, width), (coded, width)]

/-- Writes literals in the shortest of three ways. A few are always written as they are. -/
def write (bytes : Array UInt8) : Array UInt8 :=
  let size := bytes.size
  let plain := plainHeader 0 size ++ bytes
  let first := bytes.getD 0 0
  if size < 64 then plain
  else if bytes.all (· == first) then (plainHeader 1 size).push first
  else
    let oneStream : Bool := size < 256
    match HuffmanTable.compress bytes oneStream with
    | none => plain
    | some coded =>
      if size ≤ coded.size + leastGain size then plain
      else codedHeader oneStream size coded.size ++ coded

end Literals

structure TableChoice where
  mode : Nat
  table : FseTable
  description : Array UInt8

/-- The table for some symbols: the usual one unless there are many symbols of which some are
frequent. The last symbol costs nothing and is not counted. -/
def Alphabet.choose (a : Alphabet) (symbols : List Nat) : TableChoice :=
  let size := symbols.length
  let highest := symbols.foldl max 0
  let counts := (List.range (highest + 1)).map (symbols.count ·)
  let most := counts.foldl max 0
  let last := symbols.getLastD 0
  if most = size && 2 < size then ⟨1, FseTable.single last, #[UInt8.ofNat last]⟩
  else if size < a.usual.cells.size || most < size / (a.usual.cells.size / 2) then
    ⟨0, a.usual, #[]⟩
  else
    let log := FseTable.fittingLog a.maxLog size highest 2
    let repeated : Bool := 1 < counts.getD last 0
    let counts' := if repeated then counts.modify last (· - 1) else counts
    let shares := FseTable.sharesOf log counts' (if 2048 ≤ counts'.sum then -1 else 1)
    ⟨2, FseTable.ofShares log shares, FseTable.describe log shares⟩

def codeOf (codes : Array (Nat × Nat)) (value : Nat) : Nat × Nat × Nat :=
  let code := (codes.toList.takeWhile (·.1 ≤ value)).length - 1
  let (base, width) := codes.getD code (0, 0)
  (code, value - base, width)

structure CodedSequence where
  literals : Nat × Nat × Nat
  offset : Nat × Nat × Nat
  copied : Nat × Nat × Nat

/-- The codes of a sequence. The code of an offset is the logarithm of its number. -/
def CodedSequence.of (q : NumberedSequence) : CodedSequence :=
  let log := Nat.log2 q.number
  ⟨codeOf literalLengthCodes q.literals, (log, q.number - 2 ^ log, log),
    codeOf copyLengthCodes q.copied⟩

structure SequenceWriter where
  lengths : FseTable
  offsets : FseTable
  copies : FseTable
  lengthState : Nat
  offsetState : Nat
  copyState : Nat
  bits : BitString

namespace SequenceWriter

def writeExtras (w : SequenceWriter) (q : CodedSequence) : SequenceWriter :=
  { w with bits := ((w.bits.push q.literals.2.1 q.literals.2.2).push q.copied.2.1
      q.copied.2.2).push q.offset.2.1 q.offset.2.2 }

def writeBefore (w : SequenceWriter) (q : CodedSequence) : SequenceWriter :=
  let (o, b1) := w.offsets.writeBefore q.offset.1 w.offsetState w.bits
  let (m, b2) := w.copies.writeBefore q.copied.1 w.copyState b1
  let (l, b3) := w.lengths.writeBefore q.literals.1 w.lengthState b2
  writeExtras { w with lengthState := l, offsetState := o, copyState := m, bits := b3 } q

def finish (w : SequenceWriter) : Array UInt8 :=
  (((w.bits.push w.copyState w.copies.log).push w.offsetState w.offsets.log).push w.lengthState
    w.lengths.log).closed

end SequenceWriter

def sequenceCount (n : Nat) : Array UInt8 :=
  if n < 128 then #[UInt8.ofNat n]
  else if n < 0x7F00 then #[UInt8.ofNat (n / 256 + 128), UInt8.ofNat n]
  else BitString.ofFields [(255, 8), (n - 0x7F00, 16)]

def writeSequences (sequences : List NumberedSequence) : Array UInt8 :=
  let coded := sequences.map CodedSequence.of
  let head := sequenceCount coded.length
  match coded.reverse with
  | [] => head
  | last :: before =>
    let lengths := Alphabet.literalLengths.choose (coded.map (·.literals.1))
    let offsets := Alphabet.offsets.choose (coded.map (·.offset.1))
    let copies := Alphabet.copyLengths.choose (coded.map (·.copied.1))
    let start : SequenceWriter :=
      { lengths := lengths.table
        offsets := offsets.table
        copies := copies.table
        lengthState := lengths.table.lastState last.literals.1
        offsetState := offsets.table.lastState last.offset.1
        copyState := copies.table.lastState last.copied.1
        bits := {} }
    let w := before.foldl SequenceWriter.writeBefore (start.writeExtras last)
    head.push (UInt8.ofNat (64 * lengths.mode + 16 * offsets.mode + 4 * copies.mode)) ++
      lengths.description ++ offsets.description ++ copies.description ++ w.finish

def literalsOf (data : Array UInt8) (stop : Nat) :
    List NumberedSequence → Nat → Array UInt8 → Array UInt8
  | [], i, done => done ++ data.extract i stop
  | q :: rest, i, done =>
    literalsOf data stop rest (i + q.literals + q.copied) (done ++ data.extract i (i + q.literals))

def compressBlock (data : Array UInt8) (start stop : Nat) (sequences : List NumberedSequence) :
    Option (Array UInt8) :=
  let size := stop - start
  let block := Literals.write (literalsOf data stop sequences start #[]) ++ writeSequences sequences
  if size ≤ block.size + leastGain size then none else some block

end MetricCapture.Compression
