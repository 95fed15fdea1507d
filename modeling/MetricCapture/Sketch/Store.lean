import MetricCapture.Number.Core
/-! Stores: counts by key in a bounded run of bins. When the keys spread wider than the bins
reach, the lowest bins become one. -/
namespace MetricCapture.Sketch

structure Window where
  offset : Int := 0
  bins : Array Nat := #[]
  deriving Repr, DecidableEq

namespace Window

/-- The count of a key. Outside of the run nothing is counted. -/
def get (w : Window) (key : Int) : Nat :=
  if key < w.offset then 0 else w.bins.getD (key - w.offset).toNat 0

def move (w : Window) (offset : Int) (length : Nat) : Window :=
  ⟨offset, Array.ofFn fun i : Fin length => w.get (offset + i.val)⟩

def addAt (w : Window) (position n : Nat) : Window :=
  { w with bins := w.bins.modify position (· + n) }

def total (w : Window) (first stop : Int) : Nat :=
  ((List.range (stop - first).toNat).map fun (i : Nat) => w.get (first + i)).sum

end Window

structure KeyRange where
  low : Int
  high : Int
  deriving Repr, DecidableEq

namespace KeyRange

def width (r : KeyRange) : Nat :=
  (r.high - r.low + 1).toNat

def around (first second : Int) : Option KeyRange → KeyRange
  | none => ⟨min first second, max first second⟩
  | some r => ⟨min first (min second r.low), max first (max second r.high)⟩

end KeyRange

structure Store where
  binLimit : Nat
  window : Window := {}
  /-- The range of the keys met, as far as the bins reach down. -/
  keys : Option KeyRange := none
  count : Nat := 0
  /-- Whether the lowest bins have become one. From then on the first bin holds all that lies
  below. -/
  collapsed : Bool := false
  deriving Repr, DecidableEq

namespace Store

/-- The number of bins for a range of keys: whole chunks of 128, as far as the limit allows. -/
def lengthFor (s : Store) (r : KeyRange) : Nat :=
  min ((r.width + 127) / 128 * 128) s.binLimit

def collapse (s : Store) (low : Int) (length : Nat) : Window :=
  match s.keys with
  | none => (Window.move {} low length).addAt 0 s.count
  | some r =>
    if r.high ≤ low then (Window.move {} low length).addAt 0 s.count
    else if s.window.offset < low then
      (s.window.move low length).addAt 0 (s.window.total r.low low)
    else s.window.move low length

/-- Moves the bins, of which there are `length`, to a range of keys: so that it lies in their
middle if it fits, and else down from its upper end. -/
def adjust (s : Store) (length : Nat) (r : KeyRange) : Store :=
  if length < r.width then
    let low := r.high - length + 1
    { s with window := s.collapse low length, keys := some ⟨low, r.high⟩, collapsed := true }
  else
    let middle := r.low + r.width / 2
    { s with window := s.window.move (middle - length / 2) length, keys := some r }

def widen (s : Store) (first second : Int) : Store :=
  let r := KeyRange.around first second s.keys
  let fits :=
    match s.keys with
    | none => false
    | some old => old.low ≤ r.low && r.high < s.window.offset + s.window.bins.size
  if fits then { s with keys := some r }
  else s.adjust (max s.window.bins.size (s.lengthFor r)) r

def below (s : Store) (key : Int) : Bool :=
  match s.keys with
  | none => true
  | some r => key < r.low

def above (s : Store) (key : Int) : Bool :=
  match s.keys with
  | none => true
  | some r => r.high < key

/-- Counts a key. One below the range of a collapsed store falls into the first bin. -/
def add (s : Store) (key : Int) : Store :=
  let wide := if (s.below key && !s.collapsed) || s.above key then s.widen key key else s
  let position := if s.below key && wide.collapsed then 0 else (key - wide.window.offset).toNat
  { wide with window := wide.window.addAt position 1, count := wide.count + 1 }

def widenFor (s : Store) (r : KeyRange) : Store :=
  if s.below r.low || s.above r.high then s.widen r.low r.high else s

/-- Counts what another store has counted: keys below the range in the first bin, all others in
their own. A store that has counted nothing takes over the other one as it is. -/
def merge (s other : Store) : Store :=
  match other.keys with
  | none => s
  | some r =>
    if s.count = 0 then other
    else
      let wide := s.widenFor r
      let lowest := (wide.keys.getD r).low
      let first := max r.low (min lowest (r.high + 1))
      let based := wide.window.addAt 0 (other.window.total r.low first)
      let keys := (List.range (r.high + 1 - first).toNat).map fun (i : Nat) => first + i
      { wide with
        window := keys.foldl
          (fun w key => w.addAt (key - based.offset).toNat (other.window.get key)) based
        count := wide.count + other.count }

/-- The first key up to which enough values are counted. If there never are, the highest key. -/
def firstKey (s : Store) (enough : Nat → Bool) : Option Int :=
  go s.window.offset 0 s.window.bins.toList
where
  /-- Goes up through the bins and counts. -/
  go (key : Int) (running : Nat) : List Nat → Option Int
    | [] => s.keys.map (·.high)
    | n :: rest => if enough (running + n) then some key else go (key + 1) (running + n) rest

end Store
end MetricCapture.Sketch
