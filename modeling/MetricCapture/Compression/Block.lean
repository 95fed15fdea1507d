import MetricCapture.Compression.Huffman
/-! Compressed blocks: literals, and the sequences that weave them with copies of what has
been decompressed before. -/
namespace MetricCapture.Compression

/-- What blocks of a frame hand on: the tables last used, and the last three offsets. -/
structure BlockState where
  huffman : Option HuffmanTable := none
  tables : Option (FseTable × FseTable × FseTable) := none
  offsets : Nat × Nat × Nat := (1, 4, 8)

/-- The literals of a block, the table they were read by if there is one to hand on, and how
many bytes of the block they take up. -/
structure Literals where
  bytes : Array UInt8
  huffman : Option HuffmanTable
  used : Nat

namespace Literals

def readPlain (s : BlockState) (data : Array UInt8) (repeated : Bool) : Option Literals :=
  let size := bitsAt data 2 2
  let (header, count) :=
    if size = 1 then (2, bitsAt data 4 12)
    else if size = 3 then (3, bitsAt data 4 20)
    else (1, bitsAt data 3 5)
  if repeated then
    match data[header]? with
    | none => none
    | some b => some ⟨Array.replicate count b, s.huffman, header + 1⟩
  else if data.size < header + count then none
  else some ⟨data.extract header (header + count), s.huffman, header + count⟩

def readCoded (s : BlockState) (data : Array UInt8) (reuse : Bool) : Option Literals :=
  if data.size < 5 then none
  else
    let size := bitsAt data 2 2
    let (header, width) := if size = 2 then (4, 14) else if size = 3 then (5, 18) else (3, 10)
    let count := bitsAt data 4 width
    let coded := bitsAt data (4 + width) width
    if data.size < header + coded || (size ≠ 0 && count < 6) then none
    else
      let body := data.extract header (header + coded)
      let table :=
        if reuse then s.huffman.map fun t => (t, 0) else HuffmanTable.read? body
      match table with
      | none => none
      | some (t, used) =>
        let streams := body.extract used body.size
        let bytes :=
          if size = 0 then t.readStream streams count #[] else t.readFourStreams streams count
        bytes.map fun bs => ⟨bs, some t, header + coded⟩

def read? (s : BlockState) (limit : Nat) (data : Array UInt8) : Option Literals :=
  if data.size < 2 then none
  else
    let read :=
      match bitsAt data 0 2 with
      | 0 => readPlain s data false
      | 1 => readPlain s data true
      | 2 => readCoded s data false
      | _ => readCoded s data true
    read.filter fun l => l.bytes.size ≤ limit

end Literals

/-- The three alphabets of sequences: their highest symbols, the largest logarithms of their
tables, and the tables to use when none is given. -/
structure Alphabet where
  maxSymbol : Nat
  maxLog : Nat
  usual : FseTable

namespace Alphabet

def literalLengths : Alphabet :=
  ⟨35, 9, FseTable.ofShares 6
    [4, 3, 2, 2, 2, 2, 2, 2, 2, 2, 2, 2, 2, 1, 1, 1, 2, 2, 2, 2, 2, 2, 2, 2, 2, 3, 2, 1, 1, 1, 1,
      1, -1, -1, -1, -1]⟩

def offsets : Alphabet :=
  ⟨31, 8, FseTable.ofShares 5
    [1, 1, 1, 1, 1, 1, 2, 2, 2, 1, 1, 1, 1, 1, 1, 1, 1, 1, 1, 1, 1, 1, 1, 1, -1, -1, -1, -1,
      -1]⟩

def copyLengths : Alphabet :=
  ⟨52, 9, FseTable.ofShares 6
    [1, 4, 3, 2, 2, 2, 2, 2, 2, 1, 1, 1, 1, 1, 1, 1, 1, 1, 1, 1, 1, 1, 1, 1, 1, 1, 1, 1, 1, 1, 1,
      1, 1, 1, 1, 1, 1, 1, 1, 1, 1, 1, 1, 1, 1, 1, -1, -1, -1, -1, -1, -1, -1]⟩

def table? (a : Alphabet) (mode : Nat) (last : Option FseTable) (data : Array UInt8) :
    Option (FseTable × Array UInt8) :=
  match mode with
  | 0 => some (a.usual, data)
  | 1 =>
    match data[0]? with
    | none => none
    | some b =>
      if a.maxSymbol < b.toNat then none
      else some (FseTable.single b.toNat, data.extract 1 data.size)
  | 2 =>
    (FseTable.readDescription data a.maxSymbol a.maxLog).map fun (log, shares, used) =>
      (FseTable.ofShares log shares, data.extract used data.size)
  | _ => last.map fun t => (t, data)

end Alphabet

def literalLengthCodes : Array (Nat × Nat) :=
  #[(0, 0), (1, 0), (2, 0), (3, 0), (4, 0), (5, 0), (6, 0), (7, 0), (8, 0), (9, 0), (10, 0),
    (11, 0), (12, 0), (13, 0), (14, 0), (15, 0), (16, 1), (18, 1), (20, 1), (22, 1), (24, 2),
    (28, 2), (32, 3), (40, 3), (48, 4), (64, 6), (128, 7), (256, 8), (512, 9), (1024, 10),
    (2048, 11), (4096, 12), (8192, 13), (16384, 14), (32768, 15), (65536, 16)]

def copyLengthCodes : Array (Nat × Nat) :=
  #[(3, 0), (4, 0), (5, 0), (6, 0), (7, 0), (8, 0), (9, 0), (10, 0), (11, 0), (12, 0), (13, 0),
    (14, 0), (15, 0), (16, 0), (17, 0), (18, 0), (19, 0), (20, 0), (21, 0), (22, 0), (23, 0),
    (24, 0), (25, 0), (26, 0), (27, 0), (28, 0), (29, 0), (30, 0), (31, 0), (32, 0), (33, 0),
    (34, 0), (35, 1), (37, 1), (39, 1), (41, 1), (43, 2), (47, 2), (51, 3), (59, 3), (67, 4),
    (83, 4), (99, 5), (131, 7), (259, 8), (515, 9), (1027, 10), (2051, 11), (4099, 12),
    (8195, 13), (16387, 14), (32771, 15), (65539, 16)]

structure Sequence where
  literals : Nat
  copied : Nat
  offset : Nat

/-- The offset that a number stands for, and the last three then. The numbers up to three
repeat one of the last offsets. Without literals in front, the most recent one is passed
over, and the last number means one less than it. -/
def resolveOffset (recent : Nat × Nat × Nat) (number literals : Nat) :
    Nat × (Nat × Nat × Nat) :=
  let (a, b, c) := recent
  let place := if literals = 0 then number + 1 else number
  if 3 < number then (number - 3, number - 3, a, b)
  else if place = 1 then (a, a, b, c)
  else if place = 2 then (b, b, a, c)
  else if place = 3 then (c, c, a, b)
  else (a - 1, a - 1, a, b)

structure SequenceReader where
  lengths : FseTable
  offsets : FseTable
  copies : FseTable
  lengthState : Nat
  offsetState : Nat
  copyState : Nat
  bits : BackwardReader
  recent : Nat × Nat × Nat

namespace SequenceReader

def current (s : SequenceReader) : Sequence × SequenceReader :=
  let offsetCode := (s.offsets.cell s.offsetState).symbol
  let (copyBase, copyBits) :=
    copyLengthCodes.getD (s.copies.cell s.copyState).symbol (3, 0)
  let (lengthBase, lengthBits) :=
    literalLengthCodes.getD (s.lengths.cell s.lengthState).symbol (0, 0)
  let (offsetExtra, r1) := s.bits.read offsetCode
  let (copyExtra, r2) := r1.read copyBits
  let (lengthExtra, r3) := r2.read lengthBits
  let literals := lengthBase + lengthExtra
  let (offset, recent) := resolveOffset s.recent (2 ^ offsetCode + offsetExtra) literals
  (⟨literals, copyBase + copyExtra, offset⟩, { s with bits := r3, recent })

def advance (s : SequenceReader) : SequenceReader :=
  let (l, r1) := s.lengths.next s.lengthState s.bits
  let (m, r2) := s.copies.next s.copyState r1
  let (o, r3) := s.offsets.next s.offsetState r2
  { s with lengthState := l, copyState := m, offsetState := o, bits := r3 }

def readAll : Nat → SequenceReader → List Sequence → List Sequence × SequenceReader
  | 0, s, done => (done.reverse, s)
  | 1, s, done =>
    let (q, s') := s.current
    ((q :: done).reverse, s')
  | count + 2, s, done =>
    let (q, s') := s.current
    readAll (count + 1) s'.advance (q :: done)

end SequenceReader

def readSequenceCount (data : Array UInt8) : Option (Nat × Array UInt8) :=
  match data[0]? with
  | none => none
  | some b =>
    let n := b.toNat
    if n < 128 then some (n, data.extract 1 data.size)
    else if n < 255 then
      if data.size < 2 then none
      else some ((n - 128) * 256 + bytesAt data 1 1, data.extract 2 data.size)
    else if data.size < 3 then none
    else some (bytesAt data 2 1 + 0x7F00, data.extract 3 data.size)

/-- Copies `count` bytes that came `offset` bytes before the end, which grows as it copies. -/
def copyBack (offset : Nat) : Nat → Array UInt8 → Array UInt8
  | 0, out => out
  | count + 1, out => copyBack offset count (out.push (out.getD (out.size - offset) 0))

/-- Carries out sequences behind what has been decompressed, which begins at `start`. The
literals left over come last. No copy reaches back before the start, and the block keeps to
its limit. -/
def execute (start limit : Nat) (literals : Array UInt8) :
    List Sequence → Nat → Array UInt8 → Option (Array UInt8)
  | [], taken, out =>
    if limit < out.size + (literals.size - taken) then none
    else some (out ++ literals.extract taken literals.size)
  | q :: rest, taken, out =>
    if literals.size < taken + q.literals || limit < out.size + q.literals + q.copied then none
    else
      let out1 := out ++ literals.extract taken (taken + q.literals)
      if q.offset = 0 || out1.size - start < q.offset then none
      else execute start limit literals rest (taken + q.literals) (copyBack q.offset q.copied out1)

def readSequences (s : BlockState) (count : Nat) (data : Array UInt8) :
    Option (List Sequence × BlockState) := do
  let modes ← data[0]?
  let body := data.extract 1 data.size
  if modes.toNat % 4 ≠ 0 then none
  else
    let (lengths, d1) ← Alphabet.literalLengths.table? (modes.toNat / 64)
      (s.tables.map (·.1)) body
    let (offsets, d2) ← Alphabet.offsets.table? (modes.toNat / 16 % 4) (s.tables.map (·.2.1)) d1
    let (copies, d3) ← Alphabet.copyLengths.table? (modes.toNat / 4 % 4)
      (s.tables.map (·.2.2)) d2
    let r ← BackwardReader.open? d3
    let (l, r1) := lengths.start r
    let (o, r2) := offsets.start r1
    let (m, r3) := copies.start r2
    let (sequences, final) := SequenceReader.readAll count
      ⟨lengths, offsets, copies, l, o, m, r3, s.offsets⟩ []
    if final.bits.finished then
      some (sequences,
        { s with tables := some (lengths, offsets, copies), offsets := final.recent })
    else none

def decompressBlock (start limit : Nat) (s : BlockState) (data : Array UInt8)
    (out : Array UInt8) : Option (BlockState × Array UInt8) := do
  let literals ← Literals.read? s limit data
  let s1 := { s with huffman := literals.huffman }
  let (count, body) ← readSequenceCount (data.extract literals.used data.size)
  let most := out.size + limit
  if count = 0 then
    if body.isEmpty then
      let out' ← execute start most literals.bytes [] 0 out
      some (s1, out')
    else none
  else
    let (sequences, s2) ← readSequences s1 count body
    let out' ← execute start most literals.bytes sequences 0 out
    some (s2, out')

end MetricCapture.Compression
