import MetricCapture.Bytes.Order
/-! Lookahead over a source that answers a read with fewer bytes than it was asked for: each
peek puts a layer in front that gives the bytes seen once more. -/
namespace MetricCapture.Lookahead

/-- How a source of some state is read: up to a number of bytes, or all of them if none is given. -/
abbrev Reader (σ : Type) : Type := σ → Option Int → Bytes × σ

structure Peeked (σ : Type) where
  head : Bytes
  below : σ

variable {σ : Type}

def fill (read : Reader σ) (need : Nat) (s : σ) : Bytes × σ :=
  if need = 0 then ([], s)
  else
    let (piece, s') := read s (some need)
    if piece = [] then ([], s')
    else
      let (more, s'') := fill read (need - piece.length) s'
      (piece ++ more, s'')
termination_by need
decreasing_by
  rename_i hneed hpiece
  have := List.length_pos_iff.mpr hpiece
  omega

/-- Reads the bytes in front and then those below. No amount means everything, and so does a
negative one. -/
def Peeked.read (below : Reader σ) : Reader (Peeked σ)
  | p, some (.ofNat n) =>
    let piece := p.head.take n
    let (more, s) := fill below (n - piece.length) p.below
    (piece ++ more, ⟨p.head.drop n, s⟩)
  | p, _ =>
    let (bs, s) := below p.below none
    (p.head ++ bs, ⟨[], s⟩)

def Layers (σ : Type) : Nat → Type
  | 0 => Peeked σ
  | more + 1 => Peeked (Layers σ more)

def Layers.read (raw : Reader σ) : (more : Nat) → Reader (Layers σ more)
  | 0 => Peeked.read raw
  | more + 1 => Peeked.read (Layers.read raw more)

def Layers.peek (raw : Reader σ) {more : Nat} (s : Layers σ more) (amount : Option Int) :
    Bytes × Layers σ (more + 1) :=
  let (head, rest) := Layers.read raw more s amount
  (head, ⟨head, rest⟩)

inductive Step where
  | peek (amount : Option Int)
  | read (amount : Option Int)

/-- The bytes each step gives. After a peek it is the new layer that is read. -/
def run (raw : Reader σ) : (more : Nat) → Layers σ more → List Step → List Bytes
  | _, _, [] => []
  | more, s, .peek amount :: rest =>
    let (bs, s') := s.peek raw amount
    bs :: run raw (more + 1) s' rest
  | more, s, .read amount :: rest =>
    let (bs, s') := Layers.read raw more s amount
    bs :: run raw more s' rest

/-- A source that answers short: what it holds, and the most it gives to each sized read to come.
When the list runs out, a read is answered in full. A grant of zero counts as one. -/
structure Granting where
  bytes : Bytes
  grants : List Nat

def Granting.read : Reader Granting
  | s, some (.ofNat n) =>
    let most :=
      match s.grants with
      | [] => n
      | g :: _ => min n (max g 1)
    (s.bytes.take most, ⟨s.bytes.drop most, s.grants.drop 1⟩)
  | s, _ => (s.bytes, { s with bytes := [] })

end MetricCapture.Lookahead
