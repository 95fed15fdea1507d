import MetricCapture.Proofs.Message.Line
import MetricCapture.Proofs.Message.Metric
/-! Integers of a line: which texts of digits a line counts on, and that nothing but one of them that
is no integer keeps the line from being read. -/
namespace MetricCapture
open MetricCapture.Text MetricCapture.Number

/-- A text writes an integer if all of it is decimal digits, and not too many. -/
theorem Number.exists_readInteger_iff {cs : List Char} :
    (∃ n, readInteger cs = .ok n) ↔
      cs ≠ [] ∧ cs.all isDecimal = true ∧ cs.length ≤ maxIntegerDigits := by
  have htake := (List.takeWhile_prefix isDecimal (l := cs)).length_le
  unfold readInteger
  constructor
  · rintro ⟨n, h⟩
    dsimp only at h
    split at h
    · cases h
    · rename_i hlong
      split at h
      · cases h
      · rename_i hshort
        simp only [Bool.or_eq_true, List.isEmpty_iff, decide_eq_true_eq, not_or] at hshort
        have hwhole : cs.takeWhile isDecimal = cs :=
          (List.takeWhile_prefix isDecimal).eq_of_length (by omega)
        rw [hwhole] at hshort hlong
        exact ⟨hshort.1, List.all_eq_true.mpr (List.takeWhile_eq_self_iff.mp hwhole), by omega⟩
  · rintro ⟨hne, hall, hlength⟩
    rw [List.takeWhile_eq_self_iff.mpr (List.all_eq_true.mp hall)]
    dsimp only
    rw [if_neg (by omega), if_neg (by simp [hne])]
    exact ⟨_, rfl⟩

namespace Message

def Digital (cs : List Char) : Prop := cs ≠ [] ∧ cs.all isDigit = true

structure Notice.Header (text title body after : List Char) : Prop where
  text_eq : text = opening ++ title ++ ',' :: body ++ '}' :: ':' :: after
  title : title ≠ [] ∧ title.all isDecimal = true
  body : body ≠ [] ∧ body.all isDecimal = true

/-- A metric with a timestamp, its first one, before which all can be read: the head, the kind, and
sections that each tell something of their own. -/
inductive Metric.Stamped (text digits : List Char) : Prop where
  | intro {head code name : List Char} {before after : List (List Char)} {values : List Float}
      {kind : Kind} {remarks : List Remark}
      (sections : text.splitOn '|' = head :: code :: (before ++ ('T' :: digits) :: after))
      (names : Names head name values) (kind_eq : kindOf? code = some kind)
      (told : List.Forall₂ Tells before remarks) (once : (remarks.map Remark.mark).Nodup)
      (first : ['T'] ∉ remarks.map Remark.mark)

/-- Reading a text counts on digits to write an integer: the status of a service check with a name,
a length of an event, or the timestamp of a metric. -/
inductive Wants (text : List Char) : List Char → Prop where
  | status {name digits : List Char} {rest : List (List Char)}
      (sections : text.splitOn '|' = ['_', 's', 'c'] :: name :: digits :: rest)
      (named : name ≠ []) (digital : Digital digits) : Wants text digits
  | titleLength {title body after : List Char} (header : Notice.Header text title body after) :
      Wants text title
  | textLength {title body after : List Char} (header : Notice.Header text title body after) :
      Wants text body
  | timestamp {digits : List Char} (metric : ¬ Notice.opening <+: text)
      (stamped : Metric.Stamped text digits) (digital : Digital digits) : Wants text digits

theorem integer_eq_ok_iff {cs : List Char} {n : Nat} :
    integer cs = .ok n ↔ readInteger cs = .ok n := by
  unfold integer
  cases readInteger cs <;> simp [Except.mapError]

theorem integer_eq_integer_iff {cs : List Char} {e : IntegerError} :
    integer cs = .error (.integer e) ↔ readInteger cs = .error e := by
  unfold integer
  cases readInteger cs <;> simp [Except.mapError]

namespace Metric

theorem readTimestamp_eq_integer_iff {token : List Char} {e : IntegerError} :
    readTimestamp token = .error (.integer e) ↔ Digital token ∧ readInteger token = .error e := by
  have hguard : (!token.isEmpty && token.all isDigit) = true ↔ Digital token := by simp [Digital]
  unfold readTimestamp
  by_cases h : Digital token
  · rw [if_pos (hguard.mpr h), integer_eq_integer_iff]
    simp [h]
  · rw [if_neg (hguard.not.mpr h)]
    exact ⟨nofun, fun h' => absurd h'.1 h⟩

theorem fill_eq_integer_iff {α : Type} {field : Option α} {whole : List Char}
    {value : Except Trouble α} {set : Option α → Extensions} {e : IntegerError} :
    (fill field whole value).map set = .error (.integer e) ↔
      field = none ∧ value = .error (.integer e) := by
  unfold fill
  cases field with
  | some v => exact ⟨nofun, nofun⟩
  | none => cases value <;> simp [Except.map]

/-- Only a timestamp that is the first of its line counts on an integer. -/
theorem add_eq_integer_iff {x : Extensions} {body : List Char} {e : IntegerError} :
    x.add body = .error (.integer e) ↔
      ∃ digits, body = 'T' :: digits ∧ x.timestamp = none ∧ Digital digits ∧
        readInteger digits = .error e := by
  unfold Extensions.add
  split
  · simp [fill_eq_integer_iff, (breaksWith_readRate (allows_counts _) _).ne_integer]
  · simp [fill_eq_integer_iff, (breaksWith_tagList (allows_counts _) _).ne_integer]
  · simp [fill_eq_integer_iff]
  · simp [fill_eq_integer_iff, readTimestamp_eq_integer_iff]
  · simp [fill_eq_integer_iff]
  · rename_i hother _
    refine ⟨nofun, ?_⟩
    rintro ⟨digits, rfl, _⟩
    exact absurd rfl (hother digits)

theorem parse_eq_integer_iff {text : List Char} {e : IntegerError} :
    parse text = .error (.integer e) ↔
      ∃ digits, Stamped text digits ∧ Digital digits ∧ readInteger digits = .error e := by
  unfold parse
  constructor
  · intro h
    rcases bind_eq_error_iff.mp h with h | ⟨⟨name, values⟩, hhead, h⟩
    · exact absurd h ((breaksWith_readHead allows_counts _).ne_integer e)
    rcases bind_eq_error_iff.mp h with h | ⟨kind, hkind, h⟩
    · exact absurd h ((breaksWith_readKind allows_counts _).ne_integer e)
    rcases bind_eq_error_iff.mp h with h | ⟨ext, _, h⟩
    · obtain ⟨before, body, after, x, hrest, hbefore, hadd⟩ := foldlM_eq_error_iff.mp h
      obtain ⟨digits, rfl, hfree, hdigital, hread⟩ := add_eq_integer_iff.mp hadd
      obtain ⟨remarks, htold, honce, _, rfl⟩ := foldlM_add_eq_ok_iff.mp hbefore
      obtain ⟨code, rest, hcode, hkind⟩ := readKind_eq_ok_iff.mp hkind
      obtain ⟨head, sections, hsplit⟩ := List.exists_cons_of_ne_nil (List.splitOn_ne_nil '|' text)
      rw [hsplit] at hhead hcode hrest
      obtain rfl : sections = code :: rest := hcode
      obtain rfl : rest = before ++ ('T' :: digits) :: after := hrest
      have hfirst : ['T'] ∉ remarks.map Remark.mark :=
        ((has_foldl_put {} remarks (.timestamp 0)).mp (Option.isSome_eq_false_iff.mpr
          (Option.isNone_iff_eq_none.mpr hfree))).1
      exact ⟨digits, ⟨hsplit, readHead_eq_ok_iff.mp hhead, hkind, htold, honce, hfirst⟩, hdigital, hread⟩
    · cases h
  · rintro ⟨digits, ⟨sections, names, kind_eq, told, once, first⟩, hdigital, hread⟩
    rw [sections]
    rename_i remarks
    refine bind_eq_error_iff.mpr (.inr ⟨_, readHead_eq_ok_iff.mpr names, ?_⟩)
    refine bind_eq_error_iff.mpr (.inr ⟨_, readKind_eq_ok_iff.mpr ⟨_, _, rfl, kind_eq⟩, ?_⟩)
    refine bind_eq_error_iff.mpr (.inl (foldlM_eq_error_iff.mpr ⟨_, _, _, _, rfl,
      foldlM_add_eq_ok_iff.mpr ⟨remarks, told, once, fun e _ => ?_, rfl⟩,
      add_eq_integer_iff.mpr ⟨digits, rfl, ?_, hdigital, hread⟩⟩))
    · cases e <;> rfl
    · have hfree := (has_foldl_put {} remarks (.timestamp 0)).mpr ⟨first, rfl⟩
      exact Option.isNone_iff_eq_none.mp (Option.isSome_eq_false_iff.mp hfree)

end Metric

namespace ServiceCheck

theorem readStatus_eq_integer_iff {status : List Char} {e : IntegerError} :
    readStatus status = .error (.integer e) ↔
      status.all isDigit = true ∧ readInteger status = .error e := by
  unfold readStatus
  dsimp only
  by_cases h : status.all isDigit = true
  · rw [if_pos h, bind_eq_error_iff, integer_eq_integer_iff]
    have hbad : ∀ n : Nat, (if n ≤ 3 then pure (Float.ofNat n) else
        reject .badNumericValue ("bad service check status " ++ Quoted.text status) :
          Except Trouble Float) ≠ .error (.integer e) :=
      fun n => ((breaksWith_ok _).ite ((allows_counts _).reject (by decide) _)).ne_integer e
    simp [h, hbad]
  · rw [if_neg h]
    exact ⟨nofun, fun h' => absurd h'.1 h⟩

theorem parse_eq_integer_iff {text : List Char} {e : IntegerError} :
    parse text = .error (.integer e) ↔
      ∃ head name digits rest, text.splitOn '|' = head :: name :: digits :: rest ∧ name ≠ [] ∧
        Digital digits ∧ readInteger digits = .error e := by
  unfold parse
  dsimp only
  constructor
  · intro h
    split at h
    · cases h
    rename_i hname
    split at h
    · cases h
    rename_i hstatus
    rcases bind_eq_error_iff.mp h with h | ⟨value, _, h⟩
    · obtain ⟨hall, hread⟩ := readStatus_eq_integer_iff.mp h
      match hsplit : text.splitOn '|' with
      | [] | [_] => exact absurd (by rw [hsplit]; rfl) hname
      | [_, _] => exact absurd (by rw [hsplit]; rfl) hstatus
      | head :: name :: digits :: rest =>
        rw [hsplit] at hname hstatus hall hread
        exact ⟨head, name, digits, rest, rfl, fun hn => hname (List.isEmpty_iff.mpr hn),
          ⟨fun hn => hstatus (List.isEmpty_iff.mpr hn), hall⟩, hread⟩
    · rcases bind_eq_error_iff.mp h with h | ⟨notes, _, h⟩
      · exact absurd h (((allows_counts _).annotations "service check" (by decide) _ _).ne_integer e)
      · cases h
  · rintro ⟨head, name, digits, rest, hsplit, hname, hdigital, hread⟩
    have hstatus : readStatus digits = .error (.integer e) :=
      readStatus_eq_integer_iff.mpr ⟨hdigital.2, hread⟩
    rw [hsplit]
    simp [hname, hdigital.1, hstatus, bind_eq_error_iff]

end ServiceCheck

namespace Notice

theorem splitHeader?_eq_some_iff {rest title body after : List Char} :
    splitHeader? (opening ++ rest) = some (title, body, after) ↔
      Header (opening ++ rest) title body after := by
  unfold splitHeader?
  rw [List.drop_left]
  constructor
  · intro h
    have htitle := (List.takeWhile_append_dropWhile (p := isDecimal) (l := rest)).symm
    dsimp only at h
    split at h
    · rename_i behind hbehind
      have hbody := (List.takeWhile_append_dropWhile (p := isDecimal) (l := behind)).symm
      split at h
      · rename_i after' hafter
        split at h
        · cases h
        · rename_i hne
          simp only [Bool.or_eq_true, List.isEmpty_iff, not_or] at hne
          cases h
          rw [hafter] at hbody
          rw [hbehind, hbody] at htitle
          refine ⟨?_, ⟨hne.1, List.all_takeWhile⟩, hne.2, List.all_takeWhile⟩
          rw [List.append_assoc, List.append_assoc, List.cons_append]
          exact congrArg (opening ++ ·) htitle
      · cases h
    · cases h
  · rintro ⟨htext, ⟨htitle, htitles⟩, hbody, hbodies⟩
    rw [List.append_assoc, List.append_assoc, List.cons_append] at htext
    obtain rfl := List.append_cancel_left htext
    have hcomma : isDecimal ',' = false := by decide
    have hbrace : isDecimal '}' = false := by decide
    simp only [takeWhile_append_cons htitles hcomma, dropWhile_append_cons htitles hcomma,
      takeWhile_append_cons hbodies hbrace, dropWhile_append_cons hbodies hbrace]
    simp [htitle, hbody]

/-- An event takes its integers from its header: the length of the title, and then that of the text. -/
theorem parse_eq_integer_iff {text : List Char} {e : IntegerError} :
    parse text = .error (.integer e) ↔
      ∃ title body after, splitHeader? text = some (title, body, after) ∧
        (readInteger title = .error e ∨
          (∃ n, readInteger title = .ok n) ∧ readInteger body = .error e) := by
  unfold parse
  cases splitHeader? text with
  | none => exact ⟨nofun, nofun⟩
  | some header =>
    obtain ⟨title, body, after⟩ := header
    constructor
    · intro h
      refine ⟨title, body, after, rfl, ?_⟩
      rcases bind_eq_error_iff.mp h with h | ⟨n, hn, h⟩
      · exact .inl (integer_eq_integer_iff.mp h)
      rcases bind_eq_error_iff.mp h with h | ⟨m, _, h⟩
      · exact .inr ⟨⟨n, integer_eq_ok_iff.mp hn⟩, integer_eq_integer_iff.mp h⟩
      · have hcounts := (breaksWith_split allows_counts n m after).bind fun parts =>
          ((allows_counts _).annotations "event" (by decide) keys (trailerSections parts.2)).bind fun notes =>
            breaksWith_ok (Message.mk (String.ofList parts.1) [1.0] .event none notes.tags none none)
        exact absurd h (hcounts.ne_integer e)
    · rintro ⟨_, _, _, hparts, h⟩
      cases hparts
      rcases h with h | ⟨⟨n, hn⟩, h⟩
      · exact bind_eq_error_iff.mpr (.inl (integer_eq_integer_iff.mpr h))
      · exact bind_eq_error_iff.mpr (.inr ⟨n, integer_eq_ok_iff.mpr hn,
          bind_eq_error_iff.mpr (.inl (integer_eq_integer_iff.mpr h))⟩)

end Notice

theorem parseTrimmed_serviceCheck (rest : List Char) :
    parseTrimmed (ServiceCheck.opening ++ rest) = ServiceCheck.parse (ServiceCheck.opening ++ rest) :=
  rfl

theorem parseTrimmed_notice (rest : List Char) :
    parseTrimmed (Notice.opening ++ rest) = Notice.parse (Notice.opening ++ rest) :=
  rfl

theorem parseTrimmed_metric {text : List Char} (hcheck : ¬ ServiceCheck.opening <+: text)
    (hnotice : ¬ Notice.opening <+: text) : parseTrimmed text = Metric.parse text := by
  unfold parseTrimmed
  rw [if_neg (List.isPrefixOf_iff_prefix.not.mpr hcheck),
    if_neg (List.isPrefixOf_iff_prefix.not.mpr hnotice)]

theorem splitOn_serviceCheck (rest : List Char) :
    (ServiceCheck.opening ++ rest).splitOn '|' = ['_', 's', 'c'] :: rest.splitOn '|' :=
  @List.splitOn_append_cons_self_of_not_mem _ ['_', 's', 'c'] _ _ '|' (by decide) rest

/-- A head has a colon in it, so that a service check is none. -/
theorem Metric.Names.ne_serviceCheck {head name : List Char} {values : List Float}
    (h : Names head name values) : head ≠ ['_', 's', 'c'] := by
  rintro rfl
  obtain ⟨tokens, hsplit, _, htokens, _⟩ := h
  rw [List.splitOn_eq_singleton (by decide)] at hsplit
  exact htokens (List.cons.inj hsplit).2.symm

theorem exists_wants {text : List Char} {e : IntegerError}
    (h : parseTrimmed text = .error (.integer e)) :
    ∃ digits, Wants text digits ∧ readInteger digits = .error e := by
  by_cases hcheck : ServiceCheck.opening <+: text
  · obtain ⟨rest, rfl⟩ := hcheck
    rw [parseTrimmed_serviceCheck] at h
    obtain ⟨head, name, digits, sections, hsplit, named, digital, hread⟩ :=
      ServiceCheck.parse_eq_integer_iff.mp h
    obtain rfl : head = ['_', 's', 'c'] :=
      (List.cons.inj ((splitOn_serviceCheck rest).symm.trans hsplit)).1.symm
    exact ⟨digits, .status hsplit named digital, hread⟩
  by_cases hnotice : Notice.opening <+: text
  · obtain ⟨rest, rfl⟩ := hnotice
    rw [parseTrimmed_notice] at h
    obtain ⟨title, body, after, hheader, h⟩ := Notice.parse_eq_integer_iff.mp h
    have header := Notice.splitHeader?_eq_some_iff.mp hheader
    rcases h with hread | ⟨_, hread⟩
    · exact ⟨title, .titleLength header, hread⟩
    · exact ⟨body, .textLength header, hread⟩
  · rw [parseTrimmed_metric hcheck hnotice] at h
    obtain ⟨digits, stamped, digital, hread⟩ := Metric.parse_eq_integer_iff.mp h
    exact ⟨digits, .timestamp hnotice stamped digital, hread⟩

theorem Notice.Header.exists_integer {text title body after : List Char} {e : IntegerError}
    (h : Header text title body after)
    (hread : readInteger title = .error e ∨ readInteger body = .error e) :
    ∃ e', parseTrimmed text = .error (.integer e') := by
  obtain ⟨rest, rfl⟩ : opening <+: text := by
    rw [h.text_eq, List.append_assoc]
    exact List.prefix_append _ _
  have hheader := splitHeader?_eq_some_iff.mpr h
  rw [parseTrimmed_notice]
  cases htitle : readInteger title with
  | error e' => exact ⟨e', parse_eq_integer_iff.mpr ⟨title, body, after, hheader, .inl htitle⟩⟩
  | ok n =>
    rw [htitle] at hread
    have hbody := hread.resolve_left nofun
    exact ⟨e, parse_eq_integer_iff.mpr ⟨title, body, after, hheader, .inr ⟨⟨n, htitle⟩, hbody⟩⟩⟩

theorem Wants.ne_nil {text digits : List Char} (h : Wants text digits) : digits ≠ [] := by
  cases h with
  | status _ _ digital => exact digital.1
  | titleLength header => exact header.title.1
  | textLength header => exact header.body.1
  | timestamp _ _ digital => exact digital.1

theorem Wants.exists_integer {text digits : List Char} {e : IntegerError} (h : Wants text digits)
    (hread : readInteger digits = .error e) : ∃ e', parseTrimmed text = .error (.integer e') := by
  cases h with
  | status sections named digital =>
    obtain ⟨rest, _, rfl, _⟩ := splitOn_eq_cons_cons_iff.mp sections
    exact ⟨e, ServiceCheck.parse_eq_integer_iff.mpr ⟨_, _, digits, _, sections, named, digital, hread⟩⟩
  | titleLength header => exact header.exists_integer (.inl hread)
  | textLength header => exact header.exists_integer (.inr hread)
  | timestamp metric stamped digital =>
    have hcheck : ¬ ServiceCheck.opening <+: text := by
      rintro ⟨rest, rfl⟩
      obtain ⟨sections, names, _⟩ := stamped
      rw [splitOn_serviceCheck] at sections
      exact names.ne_serviceCheck (List.cons.inj sections).1.symm
    rw [parseTrimmed_metric hcheck metric]
    exact ⟨e, Metric.parse_eq_integer_iff.mpr ⟨digits, stamped, digital, hread⟩⟩

end Message

namespace Reading

theorem readable_iff_ne_integer (line : String) :
    Readable line ↔ ∀ e, Message.parseTrimmed (trimEnd line.toList) ≠ .error (.integer e) := by
  unfold Readable ofLine
  dsimp only
  by_cases hblank : trimEnd line.toList = []
  · rw [hblank]
    exact ⟨fun _ => nofun, fun _ => ⟨_, rfl⟩⟩
  · rw [if_neg (List.isEmpty_iff.not.mpr hblank)]
    cases Message.parseTrimmed (trimEnd line.toList) with
    | ok m => simp
    | error t => cases t <;> simp

/-- A line is read, as a message or as a failure, unless a status, a length or a timestamp it counts on
for an integer has a digit that is no decimal one or has more than 4300 digits. -/
theorem readable_iff (line : String) :
    Readable line ↔ ∀ digits, Message.Wants (trimEnd line.toList) digits →
      digits.all isDecimal = true ∧ digits.length ≤ maxIntegerDigits := by
  rw [readable_iff_ne_integer]
  constructor
  · intro h digits hwants
    cases hread : readInteger digits with
    | ok n => exact (exists_readInteger_iff.mp ⟨n, hread⟩).2
    | error e =>
      obtain ⟨e', he⟩ := hwants.exists_integer hread
      exact absurd he (h e')
  · intro h e he
    obtain ⟨digits, hwants, hread⟩ := Message.exists_wants he
    obtain ⟨n, hn⟩ := exists_readInteger_iff.mpr ⟨hwants.ne_nil, h digits hwants⟩
    rw [hn] at hread
    cases hread

/-- A superscript is a digit to a timestamp but none to an integer. -/
example : ofLine "a:1|c|T²" = .error (.notDecimal ['²']) := by rfl

end Reading
end MetricCapture
