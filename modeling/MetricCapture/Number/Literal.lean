import MetricCapture.Number.Binary64
import MetricCapture.Text.Blank
import MetricCapture.Text.Digit
import MetricCapture.Text.Quoted
/-! Numbers in a message: plain decimal notation for values, and runs of digits for integers. -/
namespace MetricCapture.Number
open MetricCapture.Text

structure Literal where
  negative : Bool
  whole : List Char
  fraction : List Char
  exponent : Int

namespace Literal

def splitSign : List Char → Bool × List Char
  | '-' :: r => (true, r)
  | '+' :: r => (false, r)
  | r => (false, r)

def splitDigits (cs : List Char) : List Char × List Char :=
  (cs.takeWhile isDecimal, cs.dropWhile isDecimal)

/-- A power of ten that takes up all of the text; none at all is the power zero. -/
def readExponent? : List Char → Option Int
  | [] => some 0
  | c :: r =>
    if c = 'e' || c = 'E' then
      let (negative, ds) := splitSign r
      if !ds.isEmpty && ds.all isDecimal then
        some (if negative then -(decimalRun ds : Int) else (decimalRun ds : Int))
      else none
    else none

/-- Reads a whole text as a literal. At least one digit stands before or after the point. -/
def read? (cs : List Char) : Option Literal :=
  let (negative, afterSign) := splitSign cs
  let (whole, rest) := splitDigits afterSign
  let (fraction, tail) :=
    match rest with
    | '.' :: r => splitDigits r
    | r => ([], r)
  if whole.isEmpty && fraction.isEmpty then none
  else (readExponent? tail).map fun e => ⟨negative, whole, fraction, e⟩

def value (l : Literal) : Float :=
  nearestDecimal l.negative (decimalRun (l.whole ++ l.fraction)) (l.exponent - l.fraction.length)

end Literal

/-- The number a text writes in plain decimal notation, if it does and if a double can hold
it. Infinities and separators between digits are no part of the notation. -/
def read? (cs : List Char) : Option Float :=
  (Literal.read? cs).bind fun l => if isFinite l.value then some l.value else none

/-- A text without its separators. Each stands singly and between two digits. -/
def dropSeparators? : List Char → Option (List Char)
  | [] => some []
  | c :: '_' :: d :: rest =>
    if isDecimal c && isDecimal d then (dropSeparators? (d :: rest)).map (c :: ·)
    else none
  | c :: rest => if c = '_' then none else (dropSeparators? rest).map (c :: ·)

/-- The number a text writes in a freer notation: white space around it, separators between
digits, and words for what is not finite. -/
def readFree? (cs : List Char) : Option Float := do
  let body ← dropSeparators? (trimSpace cs)
  let (negative, unsigned) := Literal.splitSign body
  let word := String.ofList (unsigned.map Char.toLower)
  if word = "inf" || word = "infinity" then pure (infinity negative)
  else if word = "nan" then pure (0.0 / 0.0)
  else (Literal.read? body).map Literal.value

inductive IntegerError where
  /-- It begins with more digits than an integer may have. -/
  | tooLong (count : Nat)
  /-- It holds something else than decimal digits. -/
  | notDecimal (text : List Char)
  deriving Repr, DecidableEq

def maxIntegerDigits : Nat := 4300

/-- The wording of an integer error. Of a quoted text the first 200 characters are shown. -/
def IntegerError.message : IntegerError → String
  | .tooLong count =>
    "Exceeds the limit (" ++ toString maxIntegerDigits ++
      " digits) for integer string conversion: value has " ++ toString count ++
      " digits; use sys.set_int_max_str_digits() to increase the limit"
  | .notDecimal text =>
    "invalid literal for int() with base 10: " ++
      String.ofList ((Quoted.encode text).take 200)

/-- The integer a text of digits writes. The length is checked before the rest of the text. -/
def readInteger (cs : List Char) : Except IntegerError Nat :=
  let ds := cs.takeWhile isDecimal
  if maxIntegerDigits < ds.length then .error (.tooLong ds.length)
  else if ds.isEmpty || ds.length < cs.length then .error (.notDecimal cs)
  else .ok (decimalRun ds)

end MetricCapture.Number
