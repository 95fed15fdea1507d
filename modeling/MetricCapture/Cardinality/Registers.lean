import MetricCapture.Cardinality.Sha1
import MetricCapture.Number.Logarithm
/-! Cardinality: how many different byte strings there are, estimated from registers that each
keep the highest rank of the hashes falling to it. -/
namespace MetricCapture

open MetricCapture.Number

structure Registers where
  precision : Nat
  ranks : Array Nat
  deriving Repr, DecidableEq

namespace Registers

def create (precision : Nat) : Registers :=
  ⟨precision, Array.replicate (2 ^ precision) 0⟩

def hash (bs : Bytes) : Nat :=
  Bytes.ofLittle ((Sha1.digest bs).take 4)

def bitLength (n : Nat) : Nat :=
  if n = 0 then 0 else Nat.log2 n + 1

/-- One more than the zeros that lead the bits of a hash which do not choose the register. -/
def rank (precision hash : Nat) : Nat :=
  32 - precision - bitLength (hash / 2 ^ precision) + 1

def observe (r : Registers) (bs : Bytes) : Registers :=
  let h := hash bs
  { r with ranks := r.ranks.modify (h % 2 ^ r.precision) (max · (rank r.precision h)) }

def merge (r other : Registers) : Option Registers :=
  if r.precision = other.precision then
    some { r with ranks := r.ranks.zipWith max other.ranks }
  else none

def correction (precision : Nat) : Float :=
  match precision with
  | 4 => 0.673
  | 5 => 0.697
  | 6 => 0.709
  | p => 0.7213 / (1.0 + 1.079 / Float.ofNat (2 ^ p))

def raw (r : Registers) : Float :=
  let size := 2 ^ r.precision
  let sum := r.ranks.foldl (fun total k => total + 1.0 / Float.ofNat (2 ^ k)) 0.0
  correction r.precision * Float.ofNat (size * size) / sum

def isSmall (r : Registers) : Bool :=
  r.raw ≤ 5.0 / 2.0 * Float.ofNat (2 ^ r.precision)

/-- The estimated number of different byte strings. Small ones are told by the registers that
are still empty, of which there has to be one. Large ones are corrected for hashes that are the
same, and may not reach the number of all hashes. -/
def estimate (r : Registers) : Option Int :=
  let m := Float.ofNat (2 ^ r.precision)
  let whole := Float.ofNat 0x100000000
  if r.isSmall then
    let empty := r.ranks.count 0
    if empty = 0 then none
    else some (roundInteger (m * log (m / Float.ofNat empty)))
  else if r.raw ≤ 1.0 / 30.0 * whole then some (roundInteger r.raw)
  else if r.raw < whole then some (roundInteger (-whole * log (1.0 - r.raw / whole)))
  else none

end Registers
end MetricCapture
