import MetricCapture.Compression.BitString
import MetricCapture.Compression.Fse
/-! Finite state entropy tables made for counts of symbols, their descriptions, and the steps
by which a run of symbols is written from its end. -/
namespace MetricCapture.Compression.FseTable

/-- The logarithm of a table for `count` symbols up to `highest`. It is no larger than the count
calls for, `spare` bits taken off, and gives every symbol room. -/
def fittingLog (maxLog count highest spare : Nat) : Nat :=
  let called := Nat.log2 (count - 1)
  let wanted := if called < spare then maxLog else min maxLog (called - spare)
  let needed := min (Nat.log2 count + 1) (Nat.log2 highest + 2)
  min 12 (max 5 (max needed wanted))

def roundingMarks : List Nat := [0, 473195, 504333, 520860, 550000, 700000, 750000, 830000]

def proportion (log total count : Nat) : Nat :=
  let scale := 62 - log
  let exact := count * (0x4000000000000000 / total)
  let floor := exact / 2 ^ scale
  if floor < 8 && 2 ^ (scale - 20) * roundingMarks.getD floor 0 < exact - floor * 2 ^ scale then
    floor + 1
  else floor

def remainder (log : Nat) (shares : List Int) : Int :=
  2 ^ log - ((shares.map Int.natAbs).sum : Nat)

def addAt (shares : List Int) (place : Nat) (n : Int) : List Int :=
  shares.set place (shares.getD place 0 + n)

def placeOfLargest (ns : List Int) : Nat :=
  (ns.zipIdx.foldl (fun best p => if best.1 < p.1 then p else best) ((0 : Int), 0)).2

def giveOnes (most : Nat) (counts : List Nat) (shares : List (Option Int)) : List (Option Int) :=
  (counts.zip shares).map fun (c, s) => if s.isNone && c ≤ most then some 1 else s

def openTotal (counts : List Nat) (shares : List (Option Int)) : Nat :=
  ((counts.zip shares).map fun (c, s) => if s.isNone then c else 0).sum

def shareRunning (log left total : Nat) (counts : List Nat) (shares : List (Option Int)) :
    List Int :=
  let scale := 62 - log
  let middle := 2 ^ (scale - 1) - 1
  let unit := (2 ^ scale * left + middle) / total
  ((counts.zip shares).foldl
    (fun (acc : List Int × Nat) p =>
      match p.2 with
      | some s => (s :: acc.1, acc.2)
      | none =>
        let sum := acc.2 + p.1 * unit
        (((sum / 2 ^ scale - acc.2 / 2 ^ scale : Nat) : Int) :: acc.1, sum))
    ([], middle)).1.reverse

def dealOut : Nat → Nat → List Int → List Int
  | 0, _, shares => shares
  | left + 1, turn, shares =>
    let held := shares.zipIdx.filter fun p => 0 < p.1
    match held[turn % held.length]? with
    | none => shares
    | some p => dealOut left (turn + 1) (addAt shares p.2 1)

def secondShares (log : Nat) (counts : List Nat) (rare : Int) : List Int :=
  let total := counts.sum
  let low := total / 2 ^ log
  let few := total * 3 / 2 ^ (log + 1)
  let first : List (Option Int) := counts.map fun c =>
    if c = 0 then some 0 else if c ≤ low then some rare else if c ≤ few then some 1 else none
  let given (s : List (Option Int)) := (s.filter fun x => x.any (· ≠ 0)).length
  let left := 2 ^ log - given first
  if left = 0 then first.map (·.getD 0)
  else
    let rest := openTotal counts first
    let second :=
      if few < rest / left then giveOnes (rest * 3 / (left * 2)) counts first else first
    let left' := 2 ^ log - given second
    let rest' := openTotal counts second
    let settled := second.map (·.getD 0)
    if given second = counts.length then
      addAt settled (placeOfLargest (counts.map Int.ofNat)) left'
    else if rest' = 0 then dealOut left' 0 settled
    else shareRunning log left' rest' counts second

/-- The shares of `2 ^ log` states for some counts. Rare symbols get the share `rare`, and the
largest share takes what is left. If that is too much, the shares are made in another way. -/
def sharesOf (log : Nat) (counts : List Nat) (rare : Int) : List Int :=
  let total := counts.sum
  let low := total / 2 ^ log
  let shares : List Int := counts.map fun c =>
    if c = 0 then 0 else if c ≤ low then rare else (proportion log total c : Nat)
  let largest :=
    placeOfLargest ((counts.zip shares).map fun (c, s) => if c ≤ low then 0 else s)
  let left := remainder log shares
  if shares.getD largest 0 / 2 ≤ -left then secondShares log counts rare
  else addAt shares largest left

/-- Writes shares: how many bits each has follows from what is left to be shared out. A share
of zero tells how many more follow it. -/
def writeShares (shares : List Int) (remaining : Nat) (s : BitString) : BitString :=
  match shares with
  | [] => s
  | share :: rest =>
    if remaining ≤ 1 then s
    else
      let width := Nat.log2 remaining
      let spare := 2 * 2 ^ width - 1 - remaining
      let low := (share + 1).toNat
      let value := if 2 ^ width ≤ low then low + spare else low
      let s1 := s.push value (if value < spare then width else width + 1)
      if share = 0 then
        let zeros := (rest.takeWhile (· == 0)).length
        let s2 := (List.range (zeros / 3)).foldl (fun s _ => s.push 3 2) s1
        writeShares (rest.drop zeros) remaining (s2.push (zeros % 3) 2)
      else writeShares rest (remaining - share.natAbs) s1
termination_by shares.length
decreasing_by
  all_goals
    simp only [List.length_drop, List.length_cons]
    omega

def describe (log : Nat) (shares : List Int) : Array UInt8 :=
  (writeShares shares (2 ^ log + 1) (BitString.push {} (log - 5) 4)).toBytes

def lastState (t : FseTable) (symbol : Nat) : Nat :=
  (t.cells.findIdx? fun c => c.symbol == symbol).getD 0

def stateBefore (t : FseTable) (symbol state : Nat) : Nat :=
  (t.cells.findIdx? fun c =>
    c.symbol == symbol && c.base ≤ state && state < c.base + 2 ^ c.bits).getD 0

def writeBefore (t : FseTable) (symbol state : Nat) (s : BitString) : Nat × BitString :=
  let i := t.stateBefore symbol state
  let c := t.cell i
  (i, s.push (state - c.base) c.bits)

end MetricCapture.Compression.FseTable
