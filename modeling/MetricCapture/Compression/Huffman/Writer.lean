import MetricCapture.Compression.Fse.Writer
import MetricCapture.Compression.Huffman
/-! Huffman codes made for literals, and the literals written by them. -/
namespace MetricCapture.Compression

def byteCounts (bytes : Array UInt8) : Array Nat :=
  bytes.foldl (fun counts b => counts.modify b.toNat (· + 1)) (Array.replicate 256 0)

inductive CodeTree where
  | leaf (symbol : Nat)
  | node (left right : CodeTree)

namespace CodeTree

def lengths (depth : Nat) : CodeTree → List (Nat × Nat)
  | leaf symbol => [(symbol, depth)]
  | node left right => left.lengths (depth + 1) ++ right.lengths (depth + 1)

/-- Takes the lighter of the first trees of two rows. Of equally heavy ones it takes that of
the second row. -/
def takeLighter (single joined : List (Nat × CodeTree)) :
    Option ((Nat × CodeTree) × List (Nat × CodeTree) × List (Nat × CodeTree)) :=
  match single, joined with
  | [], [] => none
  | [], j :: js => some (j, [], js)
  | s :: ss, [] => some (s, ss, [])
  | s :: ss, j :: js => if s.1 < j.1 then some (s, ss, j :: js) else some (j, s :: ss, js)

/-- Joins the two lightest trees as long as there are two. The rows hold trees from light to
heavy, the second one those that have been joined. -/
def join : Nat → List (Nat × CodeTree) → List (Nat × CodeTree) → Option CodeTree
  | 0, _, _ => none
  | fuel + 1, single, joined =>
    match takeLighter single joined with
    | none => none
    | some (a, single1, joined1) =>
      match takeLighter single1 joined1 with
      | none => some a.2
      | some (b, single2, joined2) =>
        join fuel single2 (joined2 ++ [(a.1 + b.1, node a.2 b.2)])

end CodeTree

def byFrequency (counts : Array Nat) : List (Nat × Nat) :=
  (counts.toList.zipIdx.filter (0 < ·.1)).mergeSort fun a b => b.1 ≤ a.1

def codeLengths (symbols : List (Nat × Nat)) : List Nat :=
  let leaves := symbols.reverse.map fun p => (p.1, CodeTree.leaf p.2)
  let lengths := ((CodeTree.join symbols.length leaves []).map (·.lengths 0)).getD []
  symbols.map fun p => (lengths.lookup p.2).getD 0

namespace CodeLimit

def lastOf (lengths : Array Nat) (length : Nat) : Option Nat :=
  ((List.range lengths.size).reverse).find? fun i => lengths.getD i 0 == length

/-- The rank, which is how far a length lies below the limit, whose last code is made longer. It
is the highest up to the given one that pays, as long as two codes of the next rank would not be
cheaper. -/
def chooseRank (counts lengths : Array Nat) (limit : Nat) : Nat → Nat
  | 0 => 1
  | 1 => 1
  | rank + 2 =>
    match lastOf lengths (limit - (rank + 2)) with
    | none => chooseRank counts lengths limit (rank + 1)
    | some high =>
      match lastOf lengths (limit - (rank + 1)) with
      | none => rank + 2
      | some low =>
        if counts.getD high 0 ≤ 2 * counts.getD low 0 then rank + 2
        else chooseRank counts lengths limit (rank + 1)

def nextRank (lengths : Array Nat) (limit : Nat) : Nat → Nat → Nat
  | 0, rank => rank
  | fuel + 1, rank =>
    if (lastOf lengths (limit - rank)).isSome then rank
    else nextRank lengths limit fuel (rank + 1)

def repay (counts : Array Nat) (limit : Nat) : Nat → Int → Array Nat → Array Nat
  | 0, _, lengths => lengths
  | fuel + 1, cost, lengths =>
    if cost = 0 then lengths
    else if cost < 0 then
      match lengths.findIdx? (· == limit) with
      | none => lengths
      | some i => repay counts limit fuel (cost + 1) (lengths.setIfInBounds i (limit - 1))
    else
      let rank := nextRank lengths limit limit
        (chooseRank counts lengths limit (min limit (Nat.log2 cost.toNat + 1)))
      match lastOf lengths (limit - rank) with
      | none => lengths
      | some i => repay counts limit fuel (cost - 2 ^ (rank - 1)) (lengths.modify i (· + 1))

end CodeLimit

/-- Code lengths of which none is above the limit. They are given from the most frequent symbol
on. -/
def limitLengths (limit : Nat) (counts lengths : List Nat) : List Nat :=
  let longest := lengths.foldl max 0
  if longest ≤ limit then lengths
  else
    let cost := (lengths.map fun l => if limit < l then 2 ^ (longest - limit) - 2 ^ (longest - l)
      else 0).sum / 2 ^ (longest - limit)
    (CodeLimit.repay counts.toArray limit (2 ^ limit) cost
      (lengths.map (min limit)).toArray).toList

namespace HuffmanTable

def weightsFor (counts : Array Nat) (limit : Nat) : List Nat × Nat :=
  let symbols := byFrequency counts
  let lengths := limitLengths limit (symbols.map (·.1)) (codeLengths symbols)
  let longest := lengths.foldl max 0
  let weights := (symbols.zip lengths).foldl
    (fun (ws : Array Nat) p => ws.setIfInBounds p.1.2 (longest + 1 - p.2))
    (Array.replicate ((symbols.map (·.2)).foldl max 0 + 1) 0)
  (weights.toList, longest)

def writeWeights (t : FseTable) (weights : List Nat) : Array UInt8 :=
  let start : (Option Nat × Option Nat) × BitString := ((none, none), {})
  let ((even, odd), s) := weights.zipIdx.reverse.foldl
    (fun (acc : (Option Nat × Option Nat) × BitString) p =>
      let ((even, odd), s) := acc
      let step (state : Option Nat) : Nat × BitString :=
        match state with
        | none => (t.lastState p.1, s)
        | some state => t.writeBefore p.1 state s
      if p.2 % 2 = 0 then
        let (state, s') := step even
        ((some state, odd), s')
      else
        let (state, s') := step odd
        ((even, some state), s'))
    start
  ((s.push (odd.getD 0) t.log).push (even.getD 0) t.log).closed

def compressWeights (weights : List Nat) : Option (Array UInt8) :=
  let highest := weights.foldl max 0
  let counts := (List.range (highest + 1)).map (weights.count ·)
  let most := counts.foldl max 0
  if weights.length ≤ 2 || most = weights.length || most = 1 then none
  else
    let log := FseTable.fittingLog 6 weights.length highest 2
    let shares := FseTable.sharesOf log counts 1
    some (FseTable.describe log shares ++ writeWeights (FseTable.ofShares log shares) weights)

/-- The description of a table by the weights of all its symbols but the last. It is as short
as compression makes it, or has four bits for each weight. -/
def describe (weights : List Nat) : Option (Array UInt8) :=
  match (compressWeights weights).filter fun bs => 1 < bs.size && bs.size < weights.length / 2 with
  | some bs => some (#[UInt8.ofNat bs.size] ++ bs)
  | none =>
    if 128 < weights.length then none
    else
      let padded := weights.toArray.push 0
      let halves := (List.range ((weights.length + 1) / 2)).map fun i =>
        UInt8.ofNat (padded.getD (2 * i) 0 * 16 + padded.getD (2 * i + 1) 0)
      some (#[UInt8.ofNat (127 + weights.length)] ++ halves.toArray)

def codes (t : HuffmanTable) : Array (Nat × Nat) :=
  (t.cells.toList.zipIdx.reverse).foldl
    (fun codes p => codes.setIfInBounds p.1.1.toNat (p.2 / 2 ^ (t.log - p.1.2), p.1.2))
    (Array.replicate 256 (0, 0))

def writeStream (codes : Array (Nat × Nat)) (bytes : Array UInt8) : Array UInt8 :=
  (bytes.foldr
    (fun b (s : BitString) =>
      let (code, width) := codes.getD b.toNat (0, 0)
      s.push code width) {}).closed

def writeFourStreams (codes : Array (Nat × Nat)) (bytes : Array UInt8) : Option (Array UInt8) :=
  let each := (bytes.size + 3) / 4
  let stream (i : Nat) := writeStream codes (bytes.extract (i * each) ((i + 1) * each))
  let sizes := [0, 1, 2].map fun i => ((stream i).size, 16)
  if bytes.size < 12 || sizes.any (0x10000 ≤ ·.1) then none
  else some (BitString.ofFields sizes ++ stream 0 ++ stream 1 ++ stream 2 ++ stream 3)

def compress (bytes : Array UInt8) (oneStream : Bool) : Option (Array UInt8) := do
  let counts := byteCounts bytes
  let largest := counts.foldl max 0
  if largest ≤ bytes.size / 128 + 4 then none
  else
    let highest := (counts.toList.zipIdx.filter (0 < ·.1)).foldl (fun h p => max h p.2) 0
    let (weights, log) :=
      weightsFor counts (FseTable.fittingLog 11 bytes.size highest 1)
    let description ← describe weights.dropLast
    if bytes.size ≤ description.size + 12 then none
    else
      let codes := (ofWeights weights log).codes
      let streams ←
        if oneStream then some (writeStream codes bytes) else writeFourStreams codes bytes
      let all := description ++ streams
      if bytes.size ≤ all.size + 1 then none else some all

end HuffmanTable
end MetricCapture.Compression
