import MetricCapture.Number.Binary64
/-! Decimal digits of a double: a given number of significant ones, or the fewest that read
back as the same double. -/
namespace MetricCapture.Number

/-- A positive decimal number with its point after the first digit: the digits as one
natural number, and the power of ten of the first of them. -/
structure Scientific where
  digits : Nat
  exponent : Int
  deriving Repr, DecidableEq

def powerAtMost (e : Int) (num den : Nat) : Bool :=
  if 0 ≤ e then den * 10 ^ e.toNat ≤ num else den ≤ num * 10 ^ (-e).toNat

/-- The power of ten of the first significant digit of a positive quotient. The binary
logarithms give it up to one step. -/
def leadingExponent (num den : Nat) : Int :=
  let binary : Int := (Nat.log2 num : Int) - Nat.log2 den
  let guess := binary * 30103 / 100000
  if powerAtMost (guess + 1) num den then guess + 1
  else if powerAtMost guess num den then guess
  else guess - 1

def scaled (num den : Nat) (power : Int) : Nat × Nat :=
  if 0 ≤ power then (num * 10 ^ power.toNat, den) else (num, den * 10 ^ (-power).toNat)

def Scientific.ofRatio (count num den : Nat) : Scientific :=
  let e := leadingExponent num den
  let (a, b) := scaled num den (count - 1 - e)
  let d := roundHalfEven a b
  if d = 10 ^ count then ⟨10 ^ (count - 1), e + 1⟩ else ⟨d, e⟩

/-- The numbers that round to a double with the given significand and exponent, in quarters
of its last place: from `low` to `high`, with the ends exactly if the significand is even.
Below a power of two the neighbours are closer. -/
structure RoundingInterval where
  low : Nat
  value : Nat
  high : Nat
  closed : Bool

def RoundingInterval.around (significand : Nat) (exponent : Int) : RoundingInterval where
  low := if significand = leadingDigit && -1074 < exponent then 4 * significand - 1
    else 4 * significand - 2
  value := 4 * significand
  high := 4 * significand + 2
  closed := significand % 2 == 0

def RoundingInterval.holds (i : RoundingInterval) (num den : Nat) : Bool :=
  if i.closed then i.low * den ≤ 4 * num && 4 * num ≤ i.high * den
  else i.low * den < 4 * num && 4 * num < i.high * den

/-- The decimal neighbour with `count` significant digits that reads back as the double, if
one of the two does, and the nearer one if both do. -/
def neighbour? (significand : Nat) (exponent leading : Int) (count : Nat) :
    Option Scientific :=
  let interval := RoundingInterval.around significand exponent
  let power : Int := count - 1 - leading
  let (num, den) := Exact.ratio significand exponent
  let (a, b) := scaled num den power
  let holds (d : Nat) : Bool :=
    let (n, m) := scaled d 1 (-power)
    if 0 ≤ exponent then interval.holds n (m * 2 ^ exponent.toNat)
    else interval.holds (n * 2 ^ (-exponent).toNat) m
  let below := a / b
  let pick :=
    match holds below, holds (below + 1) with
    | true, true => some (roundHalfEven a b)
    | true, false => some below
    | false, true => some (below + 1)
    | false, false => none
  pick.map fun d => if d = 10 ^ count then ⟨10 ^ (count - 1), leading + 1⟩ else ⟨d, leading⟩

/-- The decimal number with the fewest digits that reads back as the positive double
`significand * 2 ^ exponent`, and the nearest to it of those. Seventeen digits always do. -/
def Scientific.shortest (significand : Nat) (exponent : Int) : Scientific :=
  let (num, den) := Exact.ratio significand exponent
  let leading := leadingExponent num den
  ((List.range 16).findSome? fun n => neighbour? significand exponent leading (n + 1)).getD
    (Scientific.ofRatio 17 num den)

end MetricCapture.Number
