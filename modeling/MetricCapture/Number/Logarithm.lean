import MetricCapture.Number.Binary64
/-! Logarithms. That of one plus a positive number is exact to the last places also where the number
is small. One plus it is split into a power of two and a factor near one, and the logarithm of
that factor is a polynomial in the square of a quotient. -/
namespace MetricCapture.Number

def logOfTwo : Float :=
  Float.ofBits 0x3FE62E42FEFA39EF

/-- The natural logarithm. Those of one and two are the nearest doubles on every machine, all others
as the machine has them. -/
def log (x : Float) : Float :=
  if x == 1.0 then 0.0
  else if x == 2.0 then logOfTwo
  else Float.log x

def upperBits (x : Float) : Nat :=
  x.toBits.toNat / 0x100000000

def withUpperBits (x : Float) (upper : Nat) : Float :=
  Float.ofBits (UInt64.ofNat (upper * 0x100000000 + x.toBits.toNat % 0x100000000))

/-- The part of the logarithm that the quotient `f / (2 + f)` adds to `f` less half its square. -/
def logTail (z : Float) : Float :=
  let z2 := z * z
  let z4 := z2 * z2
  let z6 := z4 * z2
  let r1 := z * Float.ofBits 0x3FE5555555555593
  let r2 := Float.ofBits 0x3FD999999997FA04 + z * Float.ofBits 0x3FD2492494229359
  let r3 := Float.ofBits 0x3FCC71C51D8E78AF + z * Float.ofBits 0x3FC7466496CB03DE
  let r4 := Float.ofBits 0x3FC39A09D078C69F + z * Float.ofBits 0x3FC2F112DF3E5244
  r1 + z2 * r2 + z4 * r3 + z6 * r4

/-- One plus a number as `2 ^ power * (1 + factor)`, with what rounding has lost on the way. The
factor is `close` when it is below one millionth. -/
structure Reduction where
  power : Nat
  factor : Float
  lost : Float
  close : Bool

def Reduction.ofAddend (x : Float) : Reduction :=
  let large : Bool := 0x43400000 ≤ upperBits x
  let u := if large then x else 1.0 + x
  let power := upperBits u / 0x100000 - 1023
  let lost :=
    if large then 0.0
    else (if 0 < power then 1.0 - (u - x) else x - (u - 1.0)) / u
  let digits := upperBits u % 0x100000
  if digits < 0x6A09E then
    ⟨power, withUpperBits u (digits + 0x3FF00000) - 1.0, lost, digits = 0⟩
  else
    ⟨power + 1, withUpperBits u (digits + 0x3FE00000) - 1.0, lost, (0x100000 - digits) / 4 = 0⟩

def Reduction.log (r : Reduction) : Float :=
  let k := Float.ofNat r.power
  let upper := Float.ofBits 0x3FE62E42FEE00000
  let rest := k * Float.ofBits 0x3DEA39EF35793C76
  let f := r.factor
  let half := 0.5 * f * f
  if r.close then
    if f == 0.0 then k * upper + (r.lost + rest)
    else k * upper - (half * (1.0 - 0.66666666666666666 * f) - (rest + r.lost) - f)
  else
    let s := f / (2.0 + f)
    k * upper - ((half - (s * (half + logTail (s * s)) + (rest + r.lost))) - f)

def logOnePlus (x : Float) : Float :=
  let upper := upperBits x
  if upper < 0x3C900000 then x
  else if upper < 0x3E200000 then x - x * x * 0.5
  else if upper < 0x3FDA827A then
    let half := 0.5 * x * x
    let s := x / (2.0 + x)
    x - (half - s * (half + logTail (s * s)))
  else (Reduction.ofAddend x).log

end MetricCapture.Number
