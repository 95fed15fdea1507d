import MetricCapture.Message.Section
/-! Metrics: `name:value:…|type` and then a rate, tags, a container, a timestamp and external
data in any order. -/
namespace MetricCapture.Message.Metric
open MetricCapture.Text MetricCapture.Number

def kindOf? : List Char → Option Kind
  | ['c'] => some .count
  | ['g'] => some .gauge
  | ['h'] => some .histogram
  | ['d'] => some .distribution
  | ['s'] => some .set
  | ['m', 's'] => some .timer
  | _ => none

def readValue (all token : List Char) : Except Trouble Float :=
  if token.isEmpty then reject .missingValue ("empty value in " ++ Quoted.text all)
  else
    match read? token with
    | some v => .ok v
    | none => reject .badNumericValue ("not a number: " ++ Quoted.text token)

structure Extensions where
  rate : Option Float := none
  tags : Option (List String) := none
  container : Option String := none
  timestamp : Option Nat := none
  external : Option String := none

def readRate (token : List Char) : Except Trouble Float :=
  match read? token with
  | some r =>
    if 0.0 < r && r ≤ 1.0 then .ok r
    else reject .malformedTagSection ("bad sample rate " ++ Quoted.text token)
  | none => reject .malformedTagSection ("bad sample rate " ++ Quoted.text token)

def readTimestamp (token : List Char) : Except Trouble Nat :=
  if !token.isEmpty && token.all isDigit then integer token
  else reject .malformedTagSection ("bad timestamp " ++ Quoted.text token)

def fill {α : Type} (field : Option α) (whole : List Char) (value : Except Trouble α) :
    Except Trouble (Option α) :=
  if field.isSome then
    reject .malformedTagSection ("repeated section " ++ Quoted.text whole)
  else value.map some

def Extensions.add (x : Extensions) (body : List Char) : Except Trouble Extensions :=
  match body with
  | '@' :: r => (fill x.rate body (readRate r)).map ({ x with rate := · })
  | '#' :: r => (fill x.tags body (tagList r)).map ({ x with tags := · })
  | 'c' :: ':' :: r =>
    (fill x.container body (.ok (String.ofList r))).map ({ x with container := · })
  | 'T' :: r => (fill x.timestamp body (readTimestamp r)).map ({ x with timestamp := · })
  | 'e' :: ':' :: r =>
    (fill x.external body (.ok (String.ofList r))).map ({ x with external := · })
  | _ => reject .malformedTagSection ("unrecognized section " ++ Quoted.text body)

def readKind : List (List Char) → Except Trouble Kind
  | [] => reject .unknownType "missing type section"
  | code :: _ =>
    match kindOf? code with
    | some k => .ok k
    | none => reject .unknownType ("unknown type code " ++ Quoted.text code)

def readHead (head : List Char) : Except Trouble (List Char × List Float) := do
  let name := head.takeWhile (· != ':')
  let values := (head.dropWhile (· != ':')).drop 1
  if name.isEmpty then reject .missingName "empty metric name"
  else if values.isEmpty then reject .missingValue ("no value for " ++ Quoted.text name)
  else
    let read ← (values.splitOn ':').mapM (readValue values)
    pure (name, read)

def parse (text : List Char) : Except Trouble Message := do
  let sections := text.splitOn '|'
  let (name, values) ← readHead (sections.headD [])
  let kind ← readKind (sections.drop 1)
  let ext ← (sections.drop 2).foldlM Extensions.add {}
  pure
    { name := String.ofList name
      values
      kind
      rate := ext.rate
      tags := ext.tags.getD []
      container := ext.container
      timestamp := ext.timestamp }

end MetricCapture.Message.Metric
