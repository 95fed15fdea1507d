import MetricCapture.Compression.Bits
/-! Finite state entropy tables: their descriptions, and the states that symbols are read by. -/
namespace MetricCapture.Compression

/-- A state: the symbol it stands for, how many bits lead on from it, and where to. -/
structure FseCell where
  symbol : Nat
  bits : Nat
  base : Nat
  deriving Inhabited

structure FseTable where
  log : Nat
  cells : Array FseCell

namespace FseTable

def single (symbol : Nat) : FseTable := ⟨0, #[⟨symbol, 0, 0⟩]⟩

/-- How many symbols without a share follow, and the position behind them. Each full pair of
bits announces another pair. -/
def zeroRun (data : Array UInt8) : Nat → Nat → Nat × Nat
  | 0, pos => (0, pos)
  | fuel + 1, pos =>
    let pair := bitsAt data pos 2
    if pair = 3 then
      let (more, pos') := zeroRun data fuel (pos + 2)
      (3 + more, pos')
    else (pair, pos + 2)

/-- One share: what is left to be shared out decides how many bits it has. -/
def readShare (data : Array UInt8) (pos remaining : Nat) : Int × Nat :=
  let width := Nat.log2 remaining
  let threshold := 2 ^ width
  let spare := 2 * threshold - 1 - remaining
  let low := bitsAt data pos width
  if low < spare then ((low : Int) - 1, pos + width)
  else
    let full := bitsAt data pos (width + 1)
    (((if threshold ≤ full then full - spare else full : Nat) : Int) - 1, pos + width + 1)

/-- The shares from a position on, after those already read, the last of them first. A share
of minus one is the smallest there is. -/
def readShares (data : Array UInt8) (maxSymbol : Nat) :
    Nat → Nat → Nat → List Int → Bool → Option (List Int × Nat)
  | 0, _, _, _, _ => none
  | fuel + 1, pos, remaining, done, afterZero =>
    let (run, pos1) := if afterZero then zeroRun data 128 pos else (0, pos)
    let done1 := List.replicate run (0 : Int) ++ done
    if maxSymbol < done1.length then none
    else
      let (share, pos2) := readShare data pos1 remaining
      let used := share.natAbs
      let done2 := share :: done1
      if remaining < used + 1 then none
      else if remaining - used = 1 then some (done2.reverse, pos2)
      else if maxSymbol < done2.length then none
      else readShares data maxSymbol fuel pos2 (remaining - used) done2 (share == 0)

def readDescription (data : Array UInt8) (maxSymbol maxLog : Nat) :
    Option (Nat × List Int × Nat) :=
  let log := bitsAt data 0 4 + 5
  if maxLog < log then none
  else
    match readShares data maxSymbol (maxSymbol + 1) 4 (2 ^ log + 1) [] false with
    | none => none
    | some (shares, pos) =>
      let used := (pos + 7) / 8
      if data.size < used then none else some (log, shares, used)

def rareSymbols (shares : List Int) : List Nat :=
  (shares.zipIdx.filter fun p => p.1 == -1).map (·.2)

def commonSymbols (shares : List Int) : List Nat :=
  shares.zipIdx.flatMap fun p => List.replicate p.1.toNat p.2

/-- The states in the order in which the common symbols take them. The rare ones hold the last
states. -/
def spread (log rare : Nat) : List Nat :=
  let size := 2 ^ log
  let step := size / 2 + size / 8 + 3
  ((List.range size).map fun i => i * step % size).filter (· < size - rare)

def symbolsOf (log : Nat) (shares : List Int) : Array Nat :=
  let size := 2 ^ log
  let rare := rareSymbols shares
  let start := rare.zipIdx.foldl (fun a p => a.setIfInBounds (size - 1 - p.2) p.1)
    (Array.replicate size 0)
  ((spread log rare.length).zip (commonSymbols shares)).foldl
    (fun a p => a.setIfInBounds p.1 p.2) start

/-- The cells of some states in order. The states of a symbol are numbered from its share on,
and the number decides how many bits lead on. -/
def cellsOf (log : Nat) (numbers : Array Nat) (symbols : List Nat) : Array FseCell :=
  (symbols.foldl
    (fun (acc : Array FseCell × Array Nat) symbol =>
      let (cells, next) := acc
      let number := next.getD symbol 1
      let bits := log - Nat.log2 number
      (cells.push ⟨symbol, bits, number * 2 ^ bits - 2 ^ log⟩,
        next.setIfInBounds symbol (number + 1)))
    (#[], numbers)).1

def ofShares (log : Nat) (shares : List Int) : FseTable :=
  ⟨log, cellsOf log (shares.map Int.natAbs).toArray (symbolsOf log shares).toList⟩

def cell (t : FseTable) (state : Nat) : FseCell :=
  t.cells.getD state ⟨0, 0, 0⟩

def start (t : FseTable) (r : BackwardReader) : Nat × BackwardReader :=
  r.read t.log

def next (t : FseTable) (state : Nat) (r : BackwardReader) : Nat × BackwardReader :=
  let c := t.cell state
  let (n, r') := r.read c.bits
  (c.base + n, r')

end FseTable
end MetricCapture.Compression
