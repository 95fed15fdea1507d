/-! Outcomes: a value after a change, and the error that has stopped the change halfway, if one
has. What was done before the error stays done. -/
namespace MetricCapture

structure Outcome (ε α : Type) where
  value : α
  error : Option ε := none

namespace Outcome

variable {ε α β : Type}

def andThen (o : Outcome ε α) (change : α → Outcome ε α) : Outcome ε α :=
  match o.error with
  | some _ => o
  | none => change o.value

def ofExcept (before : α) : Except ε α → Outcome ε α
  | .ok after => ⟨after, none⟩
  | .error e => ⟨before, some e⟩

def sequence (value : α) (changes : List (α → Outcome ε α)) : Outcome ε α :=
  changes.foldl andThen ⟨value, none⟩

def each {ι : Type} (change : α → ι → Outcome ε α) (value : α) (items : List ι) : Outcome ε α :=
  items.foldl (fun o i => o.andThen (change · i)) ⟨value, none⟩

def within (get : β → α) (put : β → α → β) (change : α → Outcome ε α) (whole : β) :
    Outcome ε β :=
  let o := change (get whole)
  ⟨put whole o.value, o.error⟩

end Outcome
end MetricCapture
