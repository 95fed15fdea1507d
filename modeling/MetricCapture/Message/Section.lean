import MetricCapture.Message.Basic
import MetricCapture.Number.Literal
/-! Sections of a line: the parts between its bars, and the annotations they hold. -/
namespace MetricCapture.Message
open MetricCapture.Text MetricCapture.Number

/-- A defect of a line: the reason it counts under, and what is wrong in its own words. -/
structure Defect where
  reason : Reason
  detail : String
  deriving DecidableEq

/-- Why a line has no message: a defect of the line, or an integer that cannot be read. -/
inductive Trouble where
  | defect (d : Defect)
  | integer (e : IntegerError)
  deriving DecidableEq

def reject {α : Type} (reason : Reason) (detail : String) : Except Trouble α :=
  .error (.defect ⟨reason, detail⟩)

def integer (cs : List Char) : Except Trouble Nat :=
  (readInteger cs).mapError .integer

def tagList (body : List Char) : Except Trouble (List String) :=
  let tags := body.splitOn ','
  if tags.any List.isEmpty then
    reject .malformedTagSection ("empty tag in " ++ Quoted.text body)
  else .ok (tags.map String.ofList)

structure Annotations where
  seen : List (List Char) := []
  tags : List String := []

/-- What an annotation is known by: the mark of the tags, or its first two characters. -/
def annotationKey : List Char → List Char
  | '#' :: _ => ['#']
  | cs => cs.take 2

/-- One more annotation. Its key is the mark of the tags or one of those allowed, and is new. -/
def Annotations.add (allowed : List (List Char)) (subject : String) (a : Annotations)
    (body : List Char) : Except Trouble Annotations := do
  let key := annotationKey body
  if a.seen.contains key || (key != ['#'] && !allowed.contains key) then
    reject .malformedTagSection ("bad " ++ subject ++ " section " ++ Quoted.text body)
  else if key = ['#'] then
    let tags ← tagList (body.drop 1)
    pure ⟨key :: a.seen, tags⟩
  else pure { a with seen := key :: a.seen }

def annotations (allowed : List (List Char)) (subject : String)
    (sections : List (List Char)) : Except Trouble Annotations :=
  sections.foldlM (Annotations.add allowed subject) {}

end MetricCapture.Message
