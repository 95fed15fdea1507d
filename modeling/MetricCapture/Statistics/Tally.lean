import MetricCapture.Number.Core
/-! Tallies: a count for each of some things, in a fixed order. -/
namespace MetricCapture

structure Tally (α : Type) where
  entries : List (α × Nat)

namespace Tally

variable {α : Type} [BEq α]

def zero (things : List α) : Tally α :=
  ⟨things.map (·, 0)⟩

def count (t : Tally α) (a : α) : Nat :=
  (t.entries.lookup a).getD 0

def bump (t : Tally α) (a : α) : Tally α :=
  ⟨t.entries.map fun (b, n) => (b, if b == a then n + 1 else n)⟩

def merge (t other : Tally α) : Tally α :=
  ⟨t.entries.map fun (a, n) => (a, n + other.count a)⟩

def total (t : Tally α) : Nat :=
  (t.entries.map (·.2)).sum

end Tally
end MetricCapture
