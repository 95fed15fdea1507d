import MetricCapture.Bytes.Order
import MetricCapture.Number.Binary64
import MetricCapture.Text.Blank
import MetricCapture.Text.Digit
/-! Loosely typed setting values, and the readings a setting accepts of them: a number may be
written as text, and a flag as a number or a word. -/
namespace MetricCapture.Settings
open MetricCapture.Number MetricCapture.Text

inductive Value where
  | none
  | flag (b : Bool)
  | integer (n : Int)
  | number (x : Float)
  | text (s : String)
  | bytes (bs : Bytes)
  | list (vs : List Value)
  deriving Inhabited

inductive Problem where
  | greaterThan
  | lessThan
  | greaterThanEqual
  | lessThanEqual
  | tooShort
  | bytesTooShort
  | bytesType
  | literalError
  | intType
  | intParsing
  | intParsingSize
  | intFromFloat
  | finiteNumber
  | boolType
  | boolParsing
  | floatType
  | floatParsing
  | tupleType
  | valueError
  deriving Repr, DecidableEq

def Problem.name : Problem → String
  | .greaterThan => "greater_than"
  | .lessThan => "less_than"
  | .greaterThanEqual => "greater_than_equal"
  | .lessThanEqual => "less_than_equal"
  | .tooShort => "too_short"
  | .bytesTooShort => "bytes_too_short"
  | .bytesType => "bytes_type"
  | .literalError => "literal_error"
  | .intType => "int_type"
  | .intParsing => "int_parsing"
  | .intParsingSize => "int_parsing_size"
  | .intFromFloat => "int_from_float"
  | .finiteNumber => "finite_number"
  | .boolType => "bool_type"
  | .boolParsing => "bool_parsing"
  | .floatType => "float_type"
  | .floatParsing => "float_parsing"
  | .tupleType => "tuple_type"
  | .valueError => "value_error"

/-- A problem and where it lies: the setting, and the place in it if that is a list. -/
structure Complaint where
  field : String
  index : Option Nat
  problem : Problem
  deriving Repr, DecidableEq

def Complaint.location (c : Complaint) : String :=
  match c.index with
  | .none => c.field
  | some i => c.field ++ "." ++ toString i

private def isAsciiDigit (c : Char) : Bool :=
  '0' ≤ c && c ≤ '9'

def dropSeparators? (cs : List Char) : Option (List Char) :=
  if cs.contains '_' then
    let parts := cs.splitOn '_'
    if parts.any List.isEmpty then .none else some parts.flatten
  else some cs

/-- A whole number as text: blanks around it, a sign, single separators between digits, and a
point with zeros only are accepted. -/
def readIntegerText (cs : List Char) : Option Int :=
  let body := trimSpace cs
  let (negative, unsigned) :=
    match body with
    | '-' :: r => (true, r)
    | '+' :: r => (false, r)
    | r => (false, r)
  let whole := unsigned.takeWhile (· != '.')
  let fraction := (unsigned.dropWhile (· != '.')).drop 1
  if fraction.all (· == '0') then
    match dropSeparators? whole with
    | some ds =>
      if ds.isEmpty || !ds.all isAsciiDigit then .none
      else some (if negative then -(decimalRun ds : Int) else (decimalRun ds : Int))
    | .none => .none
  else .none

def readSpecial? (negative : Bool) (cs : List Char) : Option Float :=
  let word := cs.map Char.toLower
  if word = "inf".toList || word = "infinity".toList then
    some (infinity negative)
  else if word = "nan".toList then some (0.0 / 0.0)
  else .none

def readPower? : List Char → Option Int
  | [] => some 0
  | c :: r =>
    if c = 'e' || c = 'E' then
      let (negative, ds) :=
        match r with
        | '-' :: t => (true, t)
        | '+' :: t => (false, t)
        | t => (false, t)
      if ds.isEmpty || !ds.all isAsciiDigit then .none
      else some (if negative then -(decimalRun ds : Int) else (decimalRun ds : Int))
    else .none

/-- A number as text: blanks around it, single separators, decimal notation with or without a
power of ten, or the words for what is not finite. -/
def readNumberText (cs : List Char) : Option Float := do
  let body ← dropSeparators? (trimSpace cs)
  let (negative, unsigned) :=
    match body with
    | '-' :: r => (true, r)
    | '+' :: r => (false, r)
    | r => (false, r)
  match readSpecial? negative unsigned with
  | some x => some x
  | .none =>
    let whole := unsigned.takeWhile isAsciiDigit
    let rest := unsigned.dropWhile isAsciiDigit
    let (fraction, tail) :=
      match rest with
      | '.' :: r => (r.takeWhile isAsciiDigit, r.dropWhile isAsciiDigit)
      | r => ([], r)
    if whole.isEmpty && fraction.isEmpty then .none
    else
      let e ← readPower? tail
      some (nearestDecimal negative (decimalRun (whole ++ fraction)) (e - fraction.length))

def integerOfNumber (x : Float) : Except Problem Int :=
  if !isFinite x then .error .finiteNumber
  else if !isIntegral x then .error .intFromFloat
  else
    let n := truncate x
    if -(0x8000000000000000 : Int) < n && n < 0x8000000000000000 then .ok n
    else .error .intParsingSize

namespace Value

def toInteger : Value → Except Problem Int
  | .integer n => .ok n
  | .flag b => .ok (if b then 1 else 0)
  | .number x => integerOfNumber x
  | .text s =>
    match readIntegerText s.toList with
    | some n => .ok n
    | Option.none => .error .intParsing
  | _ => .error .intType

def toNumber : Value → Except Problem Float
  | .number x => .ok x
  | .integer n => .ok (ofInt n)
  | .flag b => .ok (if b then 1.0 else 0.0)
  | .text s =>
    match readNumberText s.toList with
    | some x => .ok x
    | Option.none => .error .floatParsing
  | _ => .error .floatType

def flagOfInteger (n : Int) : Except Problem Bool :=
  if n = 0 then .ok false else if n = 1 then .ok true else .error .boolParsing

def toFlag : Value → Except Problem Bool
  | .flag b => .ok b
  | .integer n => flagOfInteger n
  | .number x =>
    match integerOfNumber x with
    | .ok n => flagOfInteger n
    | .error _ => .error .boolType
  | .text s =>
    let word := String.ofList (s.toList.map Char.toLower)
    if ["0", "off", "f", "false", "n", "no"].contains word then .ok false
    else if ["1", "on", "t", "true", "y", "yes"].contains word then .ok true
    else .error .boolParsing
  | _ => .error .boolType

def toBytes : Value → Except Problem Bytes
  | .bytes bs => .ok bs
  | _ => .error .bytesType

def toList : Value → Except Problem (List Value)
  | .list vs => .ok vs
  | _ => .error .tupleType

end Value

def field {α : Type} (given : List (String × Value)) (name : String) (default : α)
    (read : Value → Except (List Complaint) α) : Except (List Complaint) α :=
  match given.lookup name with
  | some v => read v
  | .none => .ok default

def plain {α : Type} (name : String) (read : Value → Except Problem α) (v : Value) :
    Except (List Complaint) α :=
  (read v).mapError fun p => [⟨name, .none, p⟩]

def members {α : Type} (name : String) (read : Value → Except Problem α) :
    Nat → List Value → Except (List Complaint) (List α)
  | _, [] => .ok []
  | i, v :: vs =>
    match read v, members name read (i + 1) vs with
    | .ok a, .ok as => .ok (a :: as)
    | .ok _, .error cs => .error cs
    | .error p, .ok _ => .error [⟨name, some i, p⟩]
    | .error p, .error cs => .error (⟨name, some i, p⟩ :: cs)

def nonEmptyList {α : Type} (name : String) (read : Value → Except Problem α) (v : Value) :
    Except (List Complaint) (List α) :=
  match v.toList with
  | .error p => .error [⟨name, .none, p⟩]
  | .ok vs =>
    match members name read 0 vs with
    | .error cs => .error cs
    | .ok [] => .error [⟨name, .none, .tooShort⟩]
    | .ok as => .ok as

def complaints {α : Type} : Except (List Complaint) α → List Complaint
  | .ok _ => []
  | .error cs => cs

end MetricCapture.Settings
