import MetricCapture.Message.Trace
import MetricCapture.Proofs.Text.Line
/-! Lines and their readings: a carriage return at the end of a line tells nothing, and a blank
line has no reading that counts. -/
namespace MetricCapture
open MetricCapture.Text

namespace Text

theorem trimEnd_append_blank (cs : List Char) {c : Char} (h : isBlank c = true) :
    trimEnd (cs ++ [c]) = trimEnd cs := by
  unfold trimEnd
  rw [List.reverse_append, List.reverse_singleton, List.singleton_append,
    List.dropWhile_cons_of_pos h]

theorem trimEnd_chomp (cs : List Char) : trimEnd (chomp cs) = trimEnd cs := by
  by_cases h : cs.getLast? = some '\r'
  · obtain ⟨ds, rfl⟩ := List.getLast?_eq_some_iff.mp h
    unfold chomp
    rw [if_pos h, List.dropLast_concat, trimEnd_append_blank ds (by decide)]
  · rw [chomp_of_ne h]

private theorem dropWhile_eq_nil_iff (p : Char → Bool) (cs : List Char) :
    cs.dropWhile p = [] ↔ cs.all p = true := by
  induction cs with
  | nil => exact ⟨fun _ => rfl, fun _ => rfl⟩
  | cons c cs ih =>
    by_cases hc : p c = true
    · rw [List.dropWhile_cons_of_pos hc, ih, List.all_cons, hc, Bool.true_and]
    · rw [List.dropWhile_cons_of_neg hc, List.all_cons]
      simp [hc]

/-- Nothing is left of a text without its blanks only if all of it is blank. -/
theorem trimEnd_eq_nil_iff (cs : List Char) : trimEnd cs = [] ↔ allBlank cs = true := by
  unfold trimEnd allBlank
  rw [List.reverse_eq_nil_iff, dropWhile_eq_nil_iff, List.all_reverse]

theorem mem_trimEnd {cs : List Char} {c : Char} (h : c ∈ trimEnd cs) : c ∈ cs := by
  unfold trimEnd at h
  simpa using (List.dropWhile_sublist _).mem (List.mem_reverse.mp h)

end Text

def Readable (line : String) : Prop := ∃ r, Reading.ofLine line = .ok r

theorem Message.parseTrimmed_of_ofLine {line : String} {m : Message}
    (h : Reading.ofLine line = .ok (.message m)) : parseTrimmed (trimEnd line.toList) = .ok m := by
  unfold Reading.ofLine at h
  grind

namespace Reading

/-- What counts of a reading: a failure counts by its reason alone. -/
def bare : Reading → Reading
  | .message m => .message m
  | .failure f => .failure ⟨f.reason, "", none⟩

def counted (line : String) : List Reading :=
  match ofLine line with
  | .ok (.message m) => [.message m]
  | .ok (.failure f) => if f.reason = .emptyLine then [] else [.failure f]
  | .error _ => []

theorem ofLine_blank {line : String} (h : allBlank line.toList = true) :
    ofLine line = .ok (.failure ⟨.emptyLine, line, none⟩) := by
  unfold ofLine
  dsimp only
  rw [(trimEnd_eq_nil_iff _).mpr h]
  rfl

theorem counted_blank {line : String} (h : allBlank line.toList = true) : counted line = [] := by
  unfold counted
  rw [ofLine_blank h]
  rfl

/-- Blank lines do not count. -/
theorem counted_filter (ls : List String) :
    (ls.filter fun line => !allBlank line.toList).flatMap counted = ls.flatMap counted := by
  induction ls with
  | nil => rfl
  | cons line ls ih =>
    rw [List.flatMap_cons]
    by_cases hb : allBlank line.toList = true
    · rw [List.filter_cons_of_neg (by rw [hb]; exact Bool.false_ne_true), counted_blank hb, ih]
      rfl
    · rw [List.filter_cons_of_pos (by rw [Bool.not_eq_true] at hb; rw [hb]; rfl),
        List.flatMap_cons, ih]

/-- Lines that are the same but for the blanks at their ends count the same. -/
theorem bare_counted {line line' : String} (h : trimEnd line.toList = trimEnd line'.toList) :
    (counted line).map bare = (counted line').map bare := by
  unfold counted ofLine
  rw [h]
  dsimp only
  by_cases he : (trimEnd line'.toList).isEmpty = true
  · rw [if_pos he, if_pos he]
    rfl
  · rw [if_neg he, if_neg he]
    cases Message.parseTrimmed (trimEnd line'.toList) with
    | ok m => rfl
    | error t =>
      cases t with
      | integer e => rfl
      | defect d =>
        dsimp only
        split <;> rfl

theorem readable_congr {line line' : String} (h : trimEnd line.toList = trimEnd line'.toList)
    (hr : Readable line) : Readable line' := by
  obtain ⟨r, hr⟩ := hr
  unfold ofLine at hr
  rw [h] at hr
  unfold Readable ofLine
  dsimp only at hr ⊢
  split at hr
  · rename_i he
    rw [if_pos he]
    exact ⟨_, rfl⟩
  · rename_i he
    rw [if_neg he]
    cases hp : Message.parseTrimmed (trimEnd line'.toList) with
    | ok m => exact ⟨_, rfl⟩
    | error t =>
      cases t with
      | defect d => exact ⟨_, rfl⟩
      | integer e =>
        rw [hp] at hr
        cases hr

end Reading

end MetricCapture
