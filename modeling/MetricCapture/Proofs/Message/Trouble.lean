import MetricCapture.Message.Line
import MetricCapture.Proofs.Attempt
import MetricCapture.Proofs.Message.Lengths
/-! Troubles: how reading a part of a line breaks off. A line is refused in words that go with the reason
it counts under, none of which is that it is empty, and an integer is in the way only where a line counts
on one. -/
namespace MetricCapture
open MetricCapture.Text MetricCapture.Number MetricCapture.Message

def Message.Trouble.Counts : Trouble → Prop
  | .defect d => d.reason ∈ Reason.counted
  | .integer _ => False

def Message.Trouble.CountsOrInteger : Trouble → Prop
  | .defect d => d.reason ∈ Reason.counted
  | .integer _ => True

/-- What breaks off with defects alone does so with no integer. -/
theorem BreaksWith.ne_integer {α : Type} {x : Except Trouble α} (h : BreaksWith Trouble.Counts x)
    (e : IntegerError) : x ≠ .error (.integer e) :=
  fun hx => h _ hx

namespace Message

/-- The words that a refusal begins with, by the reason it counts under. What it quotes from the line
stands behind them. -/
def wordings : Reason → List String
  | .missingName => ["empty metric name", "service check without a name", "event without a title"]
  | .missingValue => ["empty value in ", "no value for ", "service check "]
  | .badNumericValue => ["not a number: ", "bad service check status "]
  | .unknownType => ["missing type section", "unknown type code "]
  | .malformedTagSection =>
    ["empty tag in ", "bad sample rate ", "bad timestamp ", "repeated section ", "unrecognized section ",
      "bad service check section ", "bad event section ", "bad event length header",
      "event title length mismatch", "event text length mismatch"]
  | .emptyLine => []

inductive Worded (reason : Reason) : String → Prop where
  | intro {words : String} (known : words ∈ wordings reason) (quoted : String) :
      Worded reason (words ++ quoted)

theorem Worded.bare {reason : Reason} {words : String} (known : words ∈ wordings reason) :
    Worded reason words := by
  have h := Worded.intro known ""
  rwa [String.append_empty] at h

/-- There are words for every reason but that a line is empty. -/
theorem Worded.counted {reason : Reason} {detail : String} (h : Worded reason detail) :
    reason ∈ Reason.counted := by
  obtain ⟨known, _⟩ := h
  cases reason with
  | emptyLine => exact absurd known List.not_mem_nil
  | _ => decide

def Allows (P : Trouble → Prop) (reason : Reason) : Prop :=
  ∀ detail, Worded reason detail → P (.defect ⟨reason, detail⟩)

theorem allows_counts (reason : Reason) : Allows Trouble.Counts reason :=
  fun _ h => h.counted

theorem allows_countsOrInteger (reason : Reason) : Allows Trouble.CountsOrInteger reason :=
  fun _ h => h.counted

def Refused {α : Type} (x : Except Trouble α) (reason : Reason) : Prop :=
  ∃ detail, x = .error (.defect ⟨reason, detail⟩)

theorem not_refused_ok {α : Type} (a : α) (reason : Reason) :
    ¬ Refused (.ok a : Except Trouble α) reason :=
  nofun

theorem refused_reject_iff {α : Type} {given reason : Reason} {detail : String} :
    Refused (reject given detail : Except Trouble α) reason ↔ given = reason := by
  constructor
  · rintro ⟨detail', h⟩
    cases h
    rfl
  · rintro rfl
    exact ⟨detail, rfl⟩

theorem refused_bind_iff {α β : Type} {x : Except Trouble α} {f : α → Except Trouble β}
    {reason : Reason} :
    Refused (x >>= f) reason ↔ Refused x reason ∨ ∃ a, x = .ok a ∧ Refused (f a) reason := by
  simp only [Refused, bind_eq_error_iff, exists_or]
  exact or_congr_right ⟨fun ⟨detail, a, hx, hf⟩ => ⟨a, hx, detail, hf⟩,
    fun ⟨a, hx, detail, hf⟩ => ⟨detail, a, hx, hf⟩⟩

section

variable {P : Trouble → Prop}

theorem Allows.reject {α : Type} {reason : Reason} (h : Allows P reason) {words : String}
    (known : words ∈ wordings reason) (quoted : String) :
    BreaksWith P (Message.reject reason (words ++ quoted) : Except Trouble α) :=
  breaksWith_error (h _ (.intro known quoted))

theorem Allows.reject_bare {α : Type} {reason : Reason} (h : Allows P reason) {words : String}
    (known : words ∈ wordings reason) :
    BreaksWith P (Message.reject reason words : Except Trouble α) :=
  breaksWith_error (h _ (.bare known))

theorem breaksWith_integer (unread : ∀ e, P (.integer e)) (cs : List Char) :
    BreaksWith P (integer cs) := by
  intro t ht
  unfold integer at ht
  cases hr : readInteger cs with
  | ok n =>
    rw [hr] at ht
    cases ht
  | error e =>
    rw [hr] at ht
    cases ht
    exact unread e

/-- Tags are refused for their form alone. -/
theorem breaksWith_tagList (malformed : Allows P .malformedTagSection) (body : List Char) :
    BreaksWith P (tagList body) :=
  (malformed.reject (by decide) _).ite (breaksWith_ok _)

/-- So are annotations, in words that name what they are annotations of. -/
theorem breaksWith_annotations (malformed : Allows P .malformedTagSection) {subject : String}
    (bad : ∀ quoted, P (.defect ⟨.malformedTagSection, "bad " ++ subject ++ " section " ++ quoted⟩))
    (allowed sections : List (List Char)) : BreaksWith P (annotations allowed subject sections) := by
  refine breaksWith_foldlM (fun a body => ?_) _ _
  refine (breaksWith_error (bad _)).ite (BreaksWith.ite ?_ (breaksWith_ok _))
  exact (breaksWith_tagList malformed _).bind fun tags => breaksWith_ok _

theorem Allows.annotations (malformed : Allows P .malformedTagSection) (subject : String)
    (known : "bad " ++ subject ++ " section " ∈ wordings .malformedTagSection)
    (allowed sections : List (List Char)) : BreaksWith P (annotations allowed subject sections) :=
  breaksWith_annotations malformed (fun quoted => malformed _ (.intro known quoted)) allowed sections

namespace Metric

section

variable (malformed : Allows P .malformedTagSection)

include malformed

theorem breaksWith_readRate (token : List Char) : BreaksWith P (readRate token) := by
  have hbad : BreaksWith P (reject .malformedTagSection ("bad sample rate " ++ Quoted.text token) :
      Except Trouble Float) := malformed.reject (by decide) _
  unfold readRate
  split
  · exact (breaksWith_ok _).ite hbad
  · exact hbad

theorem breaksWith_fill {α : Type} {value : Except Trouble α} (h : BreaksWith P value)
    (field : Option α) (whole : List Char) : BreaksWith P (fill field whole value) :=
  (malformed.reject (by decide) _).ite (h.map some)

variable (unread : ∀ e, P (.integer e))

include unread

theorem breaksWith_readTimestamp (token : List Char) : BreaksWith P (readTimestamp token) :=
  (breaksWith_integer unread token).ite (malformed.reject (by decide) _)

/-- A section behind the kind is refused for its form, or for an integer that cannot be read. -/
theorem breaksWith_add (x : Extensions) (body : List Char) : BreaksWith P (x.add body) := by
  unfold Extensions.add
  split
  · exact (breaksWith_fill malformed (breaksWith_readRate malformed _) _ _).map _
  · exact (breaksWith_fill malformed (breaksWith_tagList malformed _) _ _).map _
  · exact (breaksWith_fill malformed (breaksWith_ok _) _ _).map _
  · exact (breaksWith_fill malformed (breaksWith_readTimestamp malformed unread _) _ _).map _
  · exact (breaksWith_fill malformed (breaksWith_ok _) _ _).map _
  · exact malformed.reject (by decide) _

end

end Metric

section

variable (allows : ∀ reason, Allows P reason)

include allows

theorem Metric.breaksWith_readValue (all token : List Char) : BreaksWith P (readValue all token) := by
  refine ((allows _).reject (by decide) _).ite ?_
  split
  · exact breaksWith_ok _
  · exact (allows _).reject (by decide) _

theorem Metric.breaksWith_readHead (head : List Char) : BreaksWith P (readHead head) := by
  refine ((allows _).reject_bare (by decide)).ite (((allows _).reject (by decide) _).ite ?_)
  exact (breaksWith_mapM (breaksWith_readValue allows _) _).bind fun read => breaksWith_ok _

theorem Metric.breaksWith_readKind (sections : List (List Char)) :
    BreaksWith P (readKind sections) := by
  unfold readKind
  split
  · exact (allows _).reject_bare (by decide)
  · split
    · exact breaksWith_ok _
    · exact (allows _).reject (by decide) _

/-- Declared lengths are refused for not fitting, or for a title of no bytes. The bytes they cut out of a
text can always be decoded. -/
theorem Notice.breaksWith_split (titleLength textLength : Nat) (after : List Char) :
    BreaksWith P (split titleLength textLength (Utf8.encode after)) := by
  rcases split_cases titleLength textLength after with h | h | h | ⟨parts, h⟩
  · exact h ▸ (allows _).reject_bare (by decide)
  · exact h ▸ (allows _).reject_bare (by decide)
  · exact h ▸ (allows _).reject_bare (by decide)
  · exact h ▸ breaksWith_ok parts

variable (unread : ∀ e, P (.integer e))

include unread

theorem Metric.breaksWith_parse (text : List Char) : BreaksWith P (parse text) := by
  refine (breaksWith_readHead allows _).bind fun head => ?_
  refine (breaksWith_readKind allows _).bind fun kind => ?_
  exact (breaksWith_foldlM (breaksWith_add (allows _) unread) _ _).bind fun ext => breaksWith_ok _

theorem ServiceCheck.breaksWith_readStatus (status : List Char) : BreaksWith P (readStatus status) := by
  have hbad : BreaksWith P (reject .badNumericValue ("bad service check status " ++ Quoted.text status) :
      Except Trouble Float) := (allows _).reject (by decide) _
  exact ((breaksWith_integer unread status).bind fun n => (breaksWith_ok _).ite hbad).ite hbad

theorem ServiceCheck.breaksWith_parse (text : List Char) : BreaksWith P (parse text) := by
  refine ((allows _).reject_bare (by decide)).ite (BreaksWith.ite ?_ ?_)
  · rw [String.append_assoc]
    exact (allows _).reject (by decide) _
  · refine (breaksWith_readStatus allows unread _).bind fun value => ?_
    exact ((allows _).annotations "service check" (by decide) _ _).bind fun notes => breaksWith_ok _

theorem Notice.breaksWith_parse (text : List Char) : BreaksWith P (parse text) := by
  unfold parse
  split
  · exact (allows _).reject_bare (by decide)
  · refine (breaksWith_integer unread _).bind fun titleLength =>
      (breaksWith_integer unread _).bind fun textLength => ?_
    refine (breaksWith_split allows _ _ _).bind fun parts => ?_
    exact ((allows _).annotations "event" (by decide) _ _).bind fun notes => breaksWith_ok _

/-- A line that is not blank breaks off with a refusal that counts, or for an integer. -/
theorem breaksWith_parseTrimmed (text : List Char) : BreaksWith P (parseTrimmed text) :=
  (ServiceCheck.breaksWith_parse allows unread text).ite
    ((Notice.breaksWith_parse allows unread text).ite (Metric.breaksWith_parse allows unread text))

end

end

end Message

namespace Reading

/-- A line that is not blank is read as the text without the blanks at its end is. -/
theorem ofLine_cases {line : String} {r : Reading} (h : ofLine line = .ok r)
    (some_text : trimEnd line.toList ≠ []) :
    (∃ m, Message.parseTrimmed (trimEnd line.toList) = .ok m ∧ r = .message m) ∨
      ∃ d, Message.parseTrimmed (trimEnd line.toList) = .error (.defect d) ∧
        r = .failure ⟨d.reason, line, some d.detail⟩ := by
  unfold ofLine at h
  dsimp only at h
  rw [if_neg (mt List.isEmpty_iff.mp some_text)] at h
  cases hparse : Message.parseTrimmed (trimEnd line.toList) with
  | ok m =>
    rw [hparse] at h
    cases h
    exact .inl ⟨m, rfl, rfl⟩
  | error t =>
    rw [hparse] at h
    cases t with
    | integer e => cases h
    | defect d =>
      cases h
      exact .inr ⟨d, rfl, rfl⟩

/-- A line that is not blank is a message or a failure by what its text is read as. -/
theorem ofLine_grammar {line : String} {r : Reading} {written : Message → Prop} {flawed : Reason → Prop}
    (h : ofLine line = .ok r) (some_text : trimEnd line.toList ≠ [])
    (hwritten : ∀ m, Message.parseTrimmed (trimEnd line.toList) = .ok m ↔ written m)
    (hflawed : (∀ e, Message.parseTrimmed (trimEnd line.toList) ≠ .error (.integer e)) →
      ∀ reason, Refused (Message.parseTrimmed (trimEnd line.toList)) reason ↔ flawed reason) :
    (∀ m, r = .message m ↔ written m) ∧
      ((∀ m, ¬ written m) → ∃ reason detail, r = .failure ⟨reason, line, some detail⟩ ∧
        ∀ reason', flawed reason' ↔ reason' = reason) := by
  simp only [← hwritten]
  rcases ofLine_cases h some_text with ⟨m, hparse, rfl⟩ | ⟨d, hparse, rfl⟩
  · refine ⟨fun m' => ?_, fun hno => absurd hparse (hno m)⟩
    rw [hparse, Reading.message.injEq, Except.ok.injEq]
  · refine ⟨fun m => ?_, fun _ => ⟨d.reason, d.detail, rfl, fun reason => ?_⟩⟩
    · rw [hparse]
      exact ⟨nofun, nofun⟩
    · rw [← hflawed (fun e he => by cases hparse.symm.trans he), hparse]
      exact refused_reject_iff.trans eq_comm

end Reading
end MetricCapture
