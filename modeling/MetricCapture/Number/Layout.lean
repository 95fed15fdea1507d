import MetricCapture.Number.Shortest
/-! Written doubles: the shortest text that reads back, a fixed number of places, and a fixed
number of significant digits. -/
namespace MetricCapture.Number

def digits (n : Nat) : List Char :=
  Nat.toDigits 10 n

def padded (width n : Nat) : List Char :=
  let ds := digits n
  List.replicate (width - ds.length) '0' ++ ds

def dropZeros (cs : List Char) : List Char :=
  (cs.reverse.dropWhile (· == '0')).reverse

def fixedPoint (places n : Nat) : List Char :=
  let ds := padded (places + 1) n
  if places = 0 then ds
  else ds.take (ds.length - places) ++ '.' :: ds.drop (ds.length - places)

def exponentText (e : Int) : List Char :=
  'e' :: (if e < 0 then '-' else '+') :: padded 2 e.natAbs

def exponentForm (ds : List Char) (e : Int) : List Char :=
  match ds with
  | [] => []
  | [d] => d :: exponentText e
  | d :: rest => d :: '.' :: (rest ++ exponentText e)

def positional (ds : List Char) (e : Int) : List Char × List Char :=
  if e < 0 then (['0'], List.replicate ((-e).toNat - 1) '0' ++ ds)
  else
    let width := e.toNat + 1
    (ds.take width ++ List.replicate (width - ds.length) '0', ds.drop width)

def signed (negative : Bool) (cs : List Char) : List Char :=
  if negative then '-' :: cs else cs

def special : Exact → Option (List Char)
  | .undefined => some "nan".toList
  | .infinite negative => some (signed negative "inf".toList)
  | .finite .. => none

/-- The fewest digits that read back, positional from `0.0001` up to below `10 ^ 16`, and with
at least one digit after the point there. -/
def shortestText (x : Float) : String :=
  let exact := Exact.ofFloat x
  match exact with
  | .finite negative s e =>
    let body :=
      if s = 0 then "0.0".toList
      else
        let d := Scientific.shortest s e
        let ds := dropZeros (digits d.digits)
        if -4 ≤ d.exponent && d.exponent < 16 then
          let (whole, fraction) := positional ds d.exponent
          whole ++ '.' :: (if fraction.isEmpty then ['0'] else fraction)
        else exponentForm ds d.exponent
    String.ofList (signed negative body)
  | _ => String.ofList ((special exact).getD [])

def fixedText (places : Nat) (x : Float) : List Char :=
  let exact := Exact.ofFloat x
  match exact with
  | .finite negative s e =>
    let (num, den) := Exact.ratio s e
    signed negative (fixedPoint places (roundHalfEven (num * 10 ^ places) den))
  | _ => (special exact).getD []

def tenDigits (x : Float) : String :=
  let exact := Exact.ofFloat x
  match exact with
  | .finite negative s e =>
    if s = 0 then String.ofList (exponentForm (List.replicate 10 '0') 0)
    else
      let (num, den) := Exact.ratio s e
      let d := Scientific.ofRatio 10 num den
      String.ofList (signed negative (exponentForm (digits d.digits) d.exponent))
  | _ => String.ofList ((special exact).getD [])

def compactText (count : Nat) (x : Float) : String :=
  let exact := Exact.ofFloat x
  match exact with
  | .finite negative s e =>
    let body :=
      if s = 0 then ['0']
      else
        let (num, den) := Exact.ratio s e
        let d := Scientific.ofRatio count num den
        let ds := dropZeros (digits d.digits)
        if -4 ≤ d.exponent && d.exponent < count then
          let (whole, fraction) := positional ds d.exponent
          if fraction.isEmpty then whole else whole ++ '.' :: fraction
        else exponentForm ds d.exponent
    String.ofList (signed negative body)
  | _ => String.ofList ((special exact).getD [])

def roundPlaces (places : Nat) (x : Float) : Float :=
  match Exact.ofFloat x with
  | .finite negative s e =>
    let (num, den) := Exact.ratio s e
    nearest negative (roundHalfEven (num * 10 ^ places) den) (10 ^ places)
  | _ => x

end MetricCapture.Number
