import MetricCapture.Message.Section
/-! Service checks: `_sc|name|status` and then annotations, of which a message is the last. -/
namespace MetricCapture.Message.ServiceCheck
open MetricCapture.Text MetricCapture.Number

def opening : List Char := ['_', 's', 'c', '|']

def keys : List (List Char) := [['d', ':'], ['h', ':'], ['m', ':']]

def isMessage (body : List Char) : Bool :=
  ['m', ':'].isPrefixOf body

def readStatus (status : List Char) : Except Trouble Float := do
  let bad := reject .badNumericValue ("bad service check status " ++ Quoted.text status)
  if status.all isDigit then
    let n ← integer status
    if n ≤ 3 then pure (Float.ofNat n) else bad
  else bad

def parse (text : List Char) : Except Trouble Message := do
  let sections := text.splitOn '|'
  let name := sections.getD 1 []
  let status := sections.getD 2 []
  if name.isEmpty then reject .missingName "service check without a name"
  else if status.isEmpty then
    reject .missingValue ("service check " ++ Quoted.text name ++ " without a status")
  else
    let value ← readStatus status
    let notes ← annotations keys "service check" ((sections.drop 3).takeWhile (!isMessage ·))
    pure
      { name := String.ofList name, values := [value], kind := .serviceCheck, tags := notes.tags }

end MetricCapture.Message.ServiceCheck
