import MetricCapture.Message.Section
import MetricCapture.Text.Utf8
/-! Events: `_e{title bytes,text bytes}:title|text` and then annotations. The declared lengths
count bytes, so title and text may hold bars. -/
namespace MetricCapture.Message.Notice
open MetricCapture.Text MetricCapture.Number

def opening : List Char := ['_', 'e', '{']

def keys : List (List Char) :=
  [['d', ':'], ['h', ':'], ['p', ':'], ['t', ':'], ['s', ':'], ['k', ':']]

def splitHeader? (text : List Char) : Option (List Char × List Char × List Char) :=
  let title := (text.drop opening.length).takeWhile isDecimal
  match (text.drop opening.length).dropWhile isDecimal with
  | ',' :: rest =>
    let body := rest.takeWhile isDecimal
    match rest.dropWhile isDecimal with
    | '}' :: ':' :: after =>
      if title.isEmpty || body.isEmpty then none else some (title, body, after)
    | _ => none
  | _ => none

def bar : UInt8 := 124

def trailerSections (trailer : List Char) : List (List Char) :=
  if trailer.isEmpty then [] else trailer.splitOn '|'

def split (titleLength textLength : Nat) (body : List UInt8) :
    Except Trouble (List Char × List Char) :=
  let title := body.take titleLength
  let afterTitle := body.drop titleLength
  let rest := afterTitle.drop 1
  let text := rest.take textLength
  let afterText := rest.drop textLength
  if title.length < titleLength || afterTitle.head? != some bar then
    reject .malformedTagSection "event title length mismatch"
  else if text.length < textLength || (afterText.head?.any (· != bar)) then
    reject .malformedTagSection "event text length mismatch"
  else if title.isEmpty then reject .missingName "event without a title"
  else
    match Utf8.decode title, Utf8.decode (afterText.drop 1) with
    | .ok t, .ok trailer => .ok (t, trailer)
    | _, _ => reject .malformedTagSection "event length splits a character"

def parse (text : List Char) : Except Trouble Message := do
  match splitHeader? text with
  | none => reject .malformedTagSection "bad event length header"
  | some (titleDigits, textDigits, after) =>
    let titleLength ← integer titleDigits
    let textLength ← integer textDigits
    let (title, trailer) ← split titleLength textLength (Utf8.encode after)
    let notes ← annotations keys "event" (trailerSections trailer)
    pure { name := String.ofList title, values := [1.0], kind := .event, tags := notes.tags }

end MetricCapture.Message.Notice
