import MetricCapture.Number.Rounding
/-! Doubles as exact numbers: a double taken apart into integers, and the double nearest to
a quotient. -/
namespace MetricCapture.Number

/-- The number a double stands for: a signed `significand * 2 ^ exponent`, an infinity, or
none at all. -/
inductive Exact where
  | undefined
  | infinite (negative : Bool)
  | finite (negative : Bool) (significand : Nat) (exponent : Int)
  deriving Repr, DecidableEq

def leadingDigit : Nat := 0x10000000000000

def signBit : Nat := 0x8000000000000000

namespace Exact

def ofWord (word : Nat) : Exact :=
  let fraction : Nat := word % leadingDigit
  let field : Nat := word / leadingDigit % 2048
  let negative : Bool := signBit ≤ word
  if field = 2047 then
    if fraction = 0 then .infinite negative else .undefined
  else if field = 0 then .finite negative fraction (-1074)
  else .finite negative (leadingDigit + fraction) ((field : Int) - 1075)

def ofFloat (x : Float) : Exact :=
  ofWord x.toBits.toNat

def ratio (significand : Nat) (exponent : Int) : Nat × Nat :=
  if 0 ≤ exponent then (significand * 2 ^ exponent.toNat, 1)
  else (significand, 2 ^ (-exponent).toNat)

end Exact

/-- The magnitude's word of the double nearest to a positive quotient. The exponent is the
one that leaves 53 bits before the point, but no smaller than that of the subnormals. A
carry out of the significand moves into the exponent by itself. -/
def nearestWord (num den : Nat) : Nat :=
  let guess : Int := (Nat.log2 num : Int) - Nat.log2 den - 52
  let full (e : Int) : Bool :=
    if 0 ≤ e then den * leadingDigit * 2 ^ e.toNat ≤ num
    else den * leadingDigit ≤ num * 2 ^ (-e).toNat
  let exponent := max (if full guess then guess else guess - 1) (-1074)
  let significand :=
    if 0 ≤ exponent then roundHalfEven num (den * 2 ^ exponent.toNat)
    else roundHalfEven (num * 2 ^ (-exponent).toNat) den
  min ((exponent + 1074).toNat * leadingDigit + significand) (2047 * leadingDigit)

def ofMagnitude (negative : Bool) (word : Nat) : Float :=
  Float.ofBits (UInt64.ofNat (if negative then word + signBit else word))

def infinity (negative : Bool) : Float :=
  ofMagnitude negative (2047 * leadingDigit)

def nearest (negative : Bool) (num den : Nat) : Float :=
  ofMagnitude negative (if num = 0 then 0 else nearestWord num den)

/-- The double nearest to `digits * 10 ^ exponent`. Beyond the 310th power of ten lies
infinity, and below the 330th negative one zero, whatever the digits. -/
def nearestDecimal (negative : Bool) (digits : Nat) (exponent : Int) : Float :=
  let places : Int := (Nat.log2 digits * 30103 / 100000 : Nat)
  if digits = 0 then nearest negative 0 1
  else if 310 < places + exponent then infinity negative
  else if places + exponent < -330 then nearest negative 0 1
  else if 0 ≤ exponent then nearest negative (digits * 10 ^ exponent.toNat) 1
  else nearest negative digits (10 ^ (-exponent).toNat)

def isFinite (x : Float) : Bool :=
  match Exact.ofFloat x with
  | .finite .. => true
  | _ => false

def truncate (x : Float) : Int :=
  match Exact.ofFloat x with
  | .finite negative s e =>
    let (num, den) := Exact.ratio s e
    if negative then -(num / den : Nat) else (num / den : Nat)
  | _ => 0

def isIntegral (x : Float) : Bool :=
  match Exact.ofFloat x with
  | .finite _ s e =>
    let (num, den) := Exact.ratio s e
    num % den == 0
  | _ => false

def ceiling (x : Float) : Int :=
  match Exact.ofFloat x with
  | .finite negative s e =>
    let (num, den) := Exact.ratio s e
    if negative then -(num / den : Nat) else ((num + den - 1) / den : Nat)
  | _ => 0

def roundInteger (x : Float) : Int :=
  match Exact.ofFloat x with
  | .finite negative s e =>
    let (num, den) := Exact.ratio s e
    if negative then -(roundHalfEven num den : Nat) else (roundHalfEven num den : Nat)
  | _ => 0

def ofInt (n : Int) : Float :=
  nearest (n < 0) n.natAbs 1

end MetricCapture.Number
