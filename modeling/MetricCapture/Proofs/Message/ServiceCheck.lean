import MetricCapture.Proofs.Message.Annotations
import MetricCapture.Proofs.Message.Integer
/-! The grammar of service checks, told without the reader: which texts write which check, which defect
of a text that writes none is its first, and that the message of a check is not looked at. -/
namespace MetricCapture
open MetricCapture.Text MetricCapture.Number

namespace Message.ServiceCheck

/-- A text that writes a service check: a name and a status, and annotations behind bars. A section that
begins a message may follow, and whatever is behind it. -/
inductive Written (text : List Char) (m : Message) : Prop where
  | intro {name status closing : List Char} {sections : List (List Char)} {n : Nat} {tags : List String}
      (text_eq : text = opening ++ ['|'].intercalate (name :: status :: sections) ++ closing)
      (named : name ≠ []) (plain : '|' ∉ name) (status_eq : readInteger status = .ok n)
      (status_le : n ≤ 3) (parted : ∀ s ∈ sections, '|' ∉ s ∧ ¬ ['m', ':'] <+: s)
      (annotated : Annotated keys sections tags) (closed : closing = [] ∨ ['|', 'm', ':'] <+: closing)
      (message_eq : m =
        { name := String.ofList name, values := [Float.ofNat n], kind := .serviceCheck, tags := tags })

/-- The first defect of a text: no name, no status, a status that is no number up to three, or else
sections before the message that are not annotations of different kinds. -/
inductive Flawed (text : List Char) : Reason → Prop where
  | nameless {rest : List (List Char)} (split : text.splitOn '|' = ['_', 's', 'c'] :: [] :: rest) :
      Flawed text .missingName
  | valueless {name : List Char} {rest : List (List Char)} (named : name ≠ [])
      (split : text.splitOn '|' = [['_', 's', 'c'], name] ∨
        text.splitOn '|' = ['_', 's', 'c'] :: name :: [] :: rest) : Flawed text .missingValue
  | status {name status : List Char} {rest : List (List Char)} (named : name ≠ [])
      (stated : status ≠ []) (split : text.splitOn '|' = ['_', 's', 'c'] :: name :: status :: rest)
      (no_status : ∀ n, readInteger status = .ok n → 3 < n) : Flawed text .badNumericValue
  | sections {name status : List Char} {rest : List (List Char)} {n : Nat} (named : name ≠ [])
      (split : text.splitOn '|' = ['_', 's', 'c'] :: name :: status :: rest)
      (status_eq : readInteger status = .ok n) (status_le : n ≤ 3)
      (clash : ∀ tags, ¬ Annotated keys (rest.takeWhile (!isMessage ·)) tags) :
      Flawed text .malformedTagSection

theorem keyed_keys : Keyed keys := by
  unfold Keyed
  decide

theorem isMessage_iff {s : List Char} : isMessage s = true ↔ ['m', ':'] <+: s :=
  List.isPrefixOf_iff_prefix

theorem ne_nil_of_integer {cs : List Char} {n : Nat} (h : readInteger cs = .ok n) : cs ≠ [] :=
  (exists_readInteger_iff.mp ⟨n, h⟩).1

theorem not_mem_of_integer {cs : List Char} {n : Nat} (h : readInteger cs = .ok n) {c : Char}
    (hc : isDecimal c = false) : c ∉ cs := by
  intro hmem
  have hall := List.all_eq_true.mp (exists_readInteger_iff.mp ⟨n, h⟩).2.1 c hmem
  rw [hc] at hall
  cases hall

theorem readStatus_eq_ok_iff {status : List Char} {v : Float} :
    readStatus status = .ok v ↔ ∃ n, readInteger status = .ok n ∧ n ≤ 3 ∧ v = Float.ofNat n := by
  unfold readStatus
  dsimp only
  constructor
  · intro h
    split at h
    · obtain ⟨n, hn, h⟩ := bind_eq_ok_iff.mp h
      split at h
      · rename_i hle
        cases h
        exact ⟨n, integer_eq_ok_iff.mp hn, hle, rfl⟩
      · cases h
    · cases h
  · rintro ⟨n, hn, hle, rfl⟩
    have hdigits : status.all isDigit = true := by
      refine List.all_eq_true.mpr fun c hc => ?_
      rw [isDigit, List.all_eq_true.mp (exists_readInteger_iff.mp ⟨n, hn⟩).2.1 c hc, Bool.true_or]
    rw [if_pos hdigits]
    exact bind_eq_ok_iff.mpr ⟨n, integer_eq_ok_iff.mpr hn, if_pos hle⟩

theorem reason_of_readStatus {status : List Char} {d : Defect}
    (h : readStatus status = .error (.defect d)) : d.reason = .badNumericValue := by
  have hbad : ∀ detail, BreaksWith (fun t => ∀ d, t = .defect d → d.reason = .badNumericValue)
      (reject .badNumericValue detail : Except Trouble Float) := by
    refine fun detail => breaksWith_error ?_
    rintro d ⟨⟩
    rfl
  have hbreaks : BreaksWith (fun t => ∀ d, t = .defect d → d.reason = .badNumericValue)
      (readStatus status) := by
    refine BreaksWith.ite (BreaksWith.bind ?_ fun n => (breaksWith_ok _).ite (hbad _)) (hbad _)
    exact breaksWith_integer (fun e d => nofun) status
  exact hbreaks _ h d rfl

theorem refused_readStatus_iff {status : List Char}
    (unread : ∀ e, readStatus status ≠ .error (.integer e)) {reason : Reason} :
    Refused (readStatus status) reason ↔
      .badNumericValue = reason ∧ ∀ n, readInteger status = .ok n → 3 < n := by
  cases hstatus : readStatus status with
  | ok v =>
    obtain ⟨n, hn, hle, _⟩ := readStatus_eq_ok_iff.mp hstatus
    refine iff_of_false (not_refused_ok v reason) ?_
    rintro ⟨_, hno⟩
    exact absurd (hno n hn) (Nat.not_lt_of_le hle)
  | error t =>
    cases t with
    | integer e => exact absurd hstatus (unread e)
    | defect d =>
      have hno : ∀ n, readInteger status = .ok n → 3 < n := by
        intro n hn
        by_contra hle
        cases hstatus.symm.trans (readStatus_eq_ok_iff.mpr ⟨n, hn, Nat.le_of_not_lt hle, rfl⟩)
      rw [← reason_of_readStatus hstatus, and_iff_left hno]
      exact refused_reject_iff

theorem parse_nameless {text head : List Char} {rest : List (List Char)}
    (h : text.splitOn '|' = head :: [] :: rest) :
    parse text = reject .missingName "service check without a name" := by
  unfold parse
  rw [h]
  rfl

theorem parse_valueless {text head name : List Char} {rest : List (List Char)} (named : name ≠ [])
    (h : text.splitOn '|' = [head, name] ∨ text.splitOn '|' = head :: name :: [] :: rest) :
    parse text = reject .missingValue ("service check " ++ Quoted.text name ++ " without a status") := by
  unfold parse
  rcases h with h | h <;> rw [h] <;> exact if_neg (mt List.isEmpty_iff.mp named)

theorem parse_stated {text head name status : List Char} {rest : List (List Char)} (named : name ≠ [])
    (stated : status ≠ []) (h : text.splitOn '|' = head :: name :: status :: rest) :
    parse text = readStatus status >>= fun value =>
      annotations keys "service check" (rest.takeWhile (!isMessage ·)) >>= fun notes =>
        pure
          { name := String.ofList name, values := [value], kind := .serviceCheck, tags := notes.tags } := by
  unfold parse
  rw [h]
  exact (if_neg (mt List.isEmpty_iff.mp named)).trans (if_neg (mt List.isEmpty_iff.mp stated))

/-- The sections of a text have no name, or a name and no status, or both. -/
theorem sections_cases {text : List Char} {head : List Char} {sections : List (List Char)}
    (h : text.splitOn '|' = head :: sections) (hne : sections ≠ []) :
    (∃ rest, text.splitOn '|' = head :: [] :: rest) ∨
      (∃ name rest, name ≠ [] ∧
        (text.splitOn '|' = [head, name] ∨ text.splitOn '|' = head :: name :: [] :: rest)) ∨
      ∃ name status rest, name ≠ [] ∧ status ≠ [] ∧
        text.splitOn '|' = head :: name :: status :: rest := by
  match sections with
  | [] => exact absurd rfl hne
  | [] :: rest => exact .inl ⟨rest, h⟩
  | [c :: name] => exact .inr (.inl ⟨c :: name, [], nofun, .inl h⟩)
  | (c :: name) :: [] :: rest => exact .inr (.inl ⟨c :: name, rest, nofun, .inr h⟩)
  | (c :: name) :: (d :: status) :: rest =>
    exact .inr (.inr ⟨c :: name, d :: status, rest, nofun, nofun, h⟩)

/-- A text that begins with a message has it in its first section. -/
theorem splitOn_message (said : List Char) :
    ∃ first others, ('m' :: ':' :: said).splitOn '|' = ('m' :: ':' :: first) :: others := by
  obtain ⟨first, others, h⟩ := List.exists_cons_of_ne_nil (List.splitOn_ne_nil '|' said)
  refine ⟨first, others, ?_⟩
  rw [List.splitOn_cons_eq_if_modifyHead, if_neg (by decide), List.splitOn_cons_eq_if_modifyHead,
    if_neg (by decide), h]
  rfl

/-- The sections of a text that is put together from them are those up to the message, and more. -/
theorem splitOn_closed {name status closing : List Char} {sections : List (List Char)}
    (plain : '|' ∉ name ∧ '|' ∉ status) (parted : ∀ s ∈ sections, '|' ∉ s ∧ ¬ ['m', ':'] <+: s)
    (closed : closing = [] ∨ ['|', 'm', ':'] <+: closing) :
    ∃ rest, (opening ++ ['|'].intercalate (name :: status :: sections) ++ closing).splitOn '|' =
      ['_', 's', 'c'] :: name :: status :: rest ∧ rest.takeWhile (!isMessage ·) = sections := by
  have hfront : opening ++ ['|'].intercalate (name :: status :: sections) =
      ['|'].intercalate (['_', 's', 'c'] :: name :: status :: sections) := by
    change (['_', 's', 'c'] ++ ['|']) ++ _ = _
    exact List.intercalate_cons_cons.symm
  have hsplit : (opening ++ ['|'].intercalate (name :: status :: sections)).splitOn '|' =
      ['_', 's', 'c'] :: name :: status :: sections := by
    refine splitOn_eq_cons_iff_intercalate.mpr ⟨hfront, ?_⟩
    exact List.forall_mem_cons.mpr ⟨by decide, List.forall_mem_cons.mpr ⟨plain.1,
      List.forall_mem_cons.mpr ⟨plain.2, fun s hs => (parted s hs).1⟩⟩⟩
  have hunclosed : sections.all (!isMessage ·) = true := by
    refine List.all_eq_true.mpr fun s hs => ?_
    rw [Bool.not_eq_true', ← Bool.not_eq_true, isMessage_iff]
    exact (parted s hs).2
  rcases closed with rfl | ⟨said, rfl⟩
  · refine ⟨sections, by rw [List.append_nil, hsplit], ?_⟩
    exact List.takeWhile_eq_self_iff.mpr (List.all_eq_true.mp hunclosed)
  · obtain ⟨first, others, hmessage⟩ := splitOn_message said
    refine ⟨sections ++ ('m' :: ':' :: first) :: others, ?_, takeWhile_append_cons hunclosed rfl others⟩
    change (_ ++ '|' :: 'm' :: ':' :: said).splitOn '|' = _
    rw [List.splitOn_append_cons_self, hsplit, hmessage]
    rfl

/-- What is behind the sections up to the message is nothing, or the message and all behind it. -/
theorem exists_closing {pieces : List (List Char)} (hne : pieces ≠ []) (rest : List (List Char)) :
    ∃ closing, (closing = [] ∨ ['|', 'm', ':'] <+: closing) ∧
      ['|'].intercalate (pieces ++ rest) =
        ['|'].intercalate (pieces ++ rest.takeWhile (!isMessage ·)) ++ closing := by
  have hrest := (List.takeWhile_append_dropWhile (p := (!isMessage ·)) (l := rest)).symm
  cases hdrop : rest.dropWhile (!isMessage ·) with
  | nil =>
    rw [hdrop, List.append_nil] at hrest
    rw [← hrest]
    exact ⟨[], .inl rfl, (List.append_nil _).symm⟩
  | cons body others =>
    have hmessage : isMessage body = true := by
      have h := List.head_dropWhile_not (!isMessage ·) (l := rest) (by simp [hdrop])
      simpa [hdrop] using h
    obtain ⟨said, rfl⟩ := isMessage_iff.mp hmessage
    refine ⟨'|' :: ['|'].intercalate ((['m', ':'] ++ said) :: others), .inr ?_, ?_⟩
    · cases others with
      | nil =>
        rw [List.intercalate_singleton]
        exact ⟨said, rfl⟩
      | cons next others =>
        rw [List.intercalate_cons_cons, List.append_assoc, List.append_assoc]
        exact ⟨_, rfl⟩
    · conv_lhs => rw [hrest, hdrop, ← List.append_assoc]
      exact intercalate_append (List.append_ne_nil_of_left_ne_nil hne _) (List.cons_ne_nil _ others)

/-- A service check is read exactly from a text that writes it. -/
theorem parse_eq_ok_iff {text : List Char} (begun : opening <+: text) {m : Message} :
    parse text = .ok m ↔ Written text m := by
  obtain ⟨rest, rfl⟩ := begun
  constructor
  · intro h
    rcases sections_cases (splitOn_serviceCheck rest) (List.splitOn_ne_nil '|' rest) with
      ⟨_, hsplit⟩ | ⟨name, _, named, hsplit⟩ | ⟨name, status, behind, named, stated, hsplit⟩
    · cases (parse_nameless hsplit).symm.trans h
    · cases (parse_valueless named hsplit).symm.trans h
    rw [parse_stated named stated hsplit] at h
    obtain ⟨v, hv, h⟩ := bind_eq_ok_iff.mp h
    obtain ⟨notes, hnotes, h⟩ := bind_eq_ok_iff.mp h
    cases h
    obtain ⟨n, status_eq, status_le, rfl⟩ := readStatus_eq_ok_iff.mp hv
    have annotated := (exists_annotations_iff keyed_keys).mp ⟨notes, hnotes, rfl⟩
    obtain ⟨closing, closed, hclosing⟩ := exists_closing (List.cons_ne_nil name [status]) behind
    rw [splitOn_serviceCheck] at hsplit
    obtain ⟨hrest, hbars⟩ := splitOn_eq_cons_iff_intercalate.mp (List.cons.inj hsplit).2
    have hsections : ∀ s ∈ behind.takeWhile (!isMessage ·), '|' ∉ s ∧ ¬ ['m', ':'] <+: s := by
      intro s hs
      refine ⟨hbars s ?_, fun hm => ?_⟩
      · exact List.mem_cons_of_mem _ (List.mem_cons_of_mem _ ((List.takeWhile_sublist _).subset hs))
      · have hno := List.all_eq_true.mp List.all_takeWhile s hs
        rw [isMessage_iff.mpr hm] at hno
        cases hno
    refine ⟨?_, named, hbars name List.mem_cons_self, status_eq, status_le, hsections, annotated,
      closed, rfl⟩
    rw [hrest, List.append_assoc]
    exact congrArg (opening ++ ·) hclosing
  · rintro ⟨text_eq, named, plain, status_eq, status_le, parted, annotated, closed, rfl⟩
    rename_i name status closing sections n tags
    have hbar : '|' ∉ status := not_mem_of_integer status_eq (by decide)
    obtain ⟨behind, hsplit, hsections⟩ := splitOn_closed ⟨plain, hbar⟩ parted closed
    rw [← text_eq] at hsplit
    obtain ⟨notes, hnotes, rfl⟩ : ∃ notes, annotations keys "service check" sections = .ok notes ∧
        notes.tags = tags := (exists_annotations_iff keyed_keys).mpr annotated
    rw [parse_stated named (ne_nil_of_integer status_eq) hsplit, hsections]
    exact bind_eq_ok_iff.mpr ⟨_, readStatus_eq_ok_iff.mpr ⟨n, status_eq, status_le, rfl⟩,
      bind_eq_ok_iff.mpr ⟨notes, hnotes, rfl⟩⟩

/-- A text that counts on no integer it cannot be given is refused for its first defect. -/
theorem refused_parse_iff {text : List Char} (begun : opening <+: text)
    (unread : ∀ e, parse text ≠ .error (.integer e)) {reason : Reason} :
    Refused (parse text) reason ↔ Flawed text reason := by
  obtain ⟨rest, rfl⟩ := begun
  have hstatus : ∀ {name status behind}, name ≠ [] → status ≠ [] →
      (opening ++ rest).splitOn '|' = ['_', 's', 'c'] :: name :: status :: behind →
      (Refused (readStatus status) reason ↔
        .badNumericValue = reason ∧ ∀ n, readInteger status = .ok n → 3 < n) := by
    intro name status behind named stated hsplit
    rw [parse_stated named stated hsplit] at unread
    exact refused_readStatus_iff fun e he => unread e (bind_eq_error_iff.mpr (.inl he))
  constructor
  · intro h
    rcases sections_cases (splitOn_serviceCheck rest) (List.splitOn_ne_nil '|' rest) with
      ⟨_, hsplit⟩ | ⟨name, _, named, hsplit⟩ | ⟨name, status, behind, named, stated, hsplit⟩
    -- The cases are those of the checks in their order, so each defect is the first.
    · rw [parse_nameless hsplit] at h
      cases refused_reject_iff.mp h
      exact .nameless hsplit
    · rw [parse_valueless named hsplit] at h
      cases refused_reject_iff.mp h
      exact .valueless named hsplit
    rw [parse_stated named stated hsplit] at h
    rcases refused_bind_iff.mp h with h | ⟨v, hv, h⟩
    · obtain ⟨rfl, no_status⟩ := (hstatus named stated hsplit).mp h
      exact .status named stated hsplit no_status
    obtain ⟨n, status_eq, status_le, _⟩ := readStatus_eq_ok_iff.mp hv
    rcases refused_bind_iff.mp h with h | ⟨_, _, h⟩
    · obtain ⟨rfl, clash⟩ := (refused_annotations_iff keyed_keys).mp h
      exact .sections named hsplit status_eq status_le clash
    · exact absurd h (not_refused_ok _ _)
  · intro h
    cases h with
    | nameless split =>
      rw [parse_nameless split]
      exact refused_reject_iff.mpr rfl
    | valueless named split =>
      rw [parse_valueless named split]
      exact refused_reject_iff.mpr rfl
    | status named stated split no_status =>
      rw [parse_stated named stated split]
      exact refused_bind_iff.mpr (.inl ((hstatus named stated split).mpr ⟨rfl, no_status⟩))
    | sections named split status_eq status_le clash =>
      rw [parse_stated named (ne_nil_of_integer status_eq) split]
      refine refused_bind_iff.mpr (.inr ⟨_, readStatus_eq_ok_iff.mpr ⟨_, status_eq, status_le, rfl⟩, ?_⟩)
      exact refused_bind_iff.mpr (.inl ((refused_annotations_iff keyed_keys).mpr ⟨rfl, clash⟩))

/-- A text is read by its name, its status and the sections up to the message. -/
theorem parse_congr {text text' head name status : List Char} {behind behind' : List (List Char)}
    (h : text.splitOn '|' = head :: name :: status :: behind)
    (h' : text'.splitOn '|' = head :: name :: status :: behind')
    (hbehind : behind.takeWhile (!isMessage ·) = behind'.takeWhile (!isMessage ·)) :
    parse text = parse text' := by
  unfold parse
  rw [h, h']
  simp only [List.getD_cons_succ, List.getD_cons_zero, List.drop_succ_cons, List.drop_zero, hbehind]

/-- The message behind a name and a status is not looked at. -/
theorem parse_append_message (name rest said : List Char) :
    parse (opening ++ name ++ '|' :: rest ++ '|' :: 'm' :: ':' :: said) =
      parse (opening ++ name ++ '|' :: rest) := by
  obtain ⟨first, others, hmessage⟩ := splitOn_message said
  have hfront : (opening ++ name ++ '|' :: rest).splitOn '|' =
      ['_', 's', 'c'] :: (name.splitOn '|' ++ rest.splitOn '|') := by
    rw [List.append_assoc, splitOn_serviceCheck, List.splitOn_append_cons_self]
  have hwhole : (opening ++ name ++ '|' :: rest ++ '|' :: 'm' :: ':' :: said).splitOn '|' =
      ['_', 's', 'c'] :: (name.splitOn '|' ++ rest.splitOn '|') ++ ('m' :: ':' :: first) :: others := by
    rw [List.splitOn_append_cons_self, hfront, hmessage]
  obtain ⟨n, status, behind, hpieces⟩ : ∃ n status behind,
      name.splitOn '|' ++ rest.splitOn '|' = n :: status :: behind := by
    obtain ⟨n, names, hn⟩ := List.exists_cons_of_ne_nil (List.splitOn_ne_nil '|' name)
    obtain ⟨r, rests, hr⟩ := List.exists_cons_of_ne_nil (List.splitOn_ne_nil '|' rest)
    rw [hn, hr]
    cases names with
    | nil => exact ⟨n, r, rests, rfl⟩
    | cons next names => exact ⟨n, next, names ++ r :: rests, rfl⟩
  rw [hpieces] at hfront hwhole
  refine parse_congr hwhole hfront ?_
  change (behind ++ ('m' :: ':' :: first) :: others).takeWhile _ = _
  rw [List.takeWhile_append]
  split
  · rename_i hlength
    rw [(List.takeWhile_prefix _).eq_of_length hlength]
    exact List.append_nil behind
  · rfl

end Message.ServiceCheck

namespace Reading

/-- Lines that are not blank count the same if their texts are read the same. -/
theorem ofLine_congr {line line' : String} {r : Reading} (h : ofLine line = .ok r)
    (some_text : trimEnd line.toList ≠ []) (some_text' : trimEnd line'.toList ≠ [])
    (hsame : Message.parseTrimmed (trimEnd line'.toList) = Message.parseTrimmed (trimEnd line.toList)) :
    ∃ r', ofLine line' = .ok r' ∧ r'.bare = r.bare := by
  unfold ofLine
  dsimp only
  rw [if_neg (List.isEmpty_iff.not.mpr some_text'), hsame]
  rcases ofLine_cases h some_text with ⟨m, hparse, rfl⟩ | ⟨d, hparse, rfl⟩
  · rw [hparse]
    exact ⟨_, rfl, rfl⟩
  · rw [hparse]
    exact ⟨_, rfl, rfl⟩

/-- A line that begins a service check is one exactly when it is written as one, with the name, the
status and the tags that are written. Else its failure keeps it and has the reason of its first defect.
In both cases what a message says does not matter. -/
theorem ofLine_serviceCheck {line : String} {r : Reading} (h : ofLine line = .ok r)
    (begun : Message.ServiceCheck.opening <+: trimEnd line.toList) :
    (∀ m, r = .message m ↔ Message.ServiceCheck.Written (trimEnd line.toList) m) ∧
      ((∀ m, ¬ Message.ServiceCheck.Written (trimEnd line.toList) m) → ∃ reason detail,
        r = .failure ⟨reason, line, some detail⟩ ∧
          ∀ reason', Message.ServiceCheck.Flawed (trimEnd line.toList) reason' ↔ reason' = reason) ∧
      ∀ (name rest said said' : List Char) (line' : String),
        trimEnd line.toList =
          Message.ServiceCheck.opening ++ name ++ '|' :: rest ++ '|' :: 'm' :: ':' :: said →
        trimEnd line'.toList =
          Message.ServiceCheck.opening ++ name ++ '|' :: rest ++ '|' :: 'm' :: ':' :: said' →
        ∃ r', ofLine line' = .ok r' ∧ r'.bare = r.bare := by
  have hparse : ∀ {text : List Char}, Message.ServiceCheck.opening <+: text →
      Message.parseTrimmed text = Message.ServiceCheck.parse text := by
    rintro _ ⟨behind, rfl⟩
    exact Message.parseTrimmed_serviceCheck behind
  have some_text := begun.ne_nil (List.cons_ne_nil _ _)
  have htext := hparse begun
  obtain ⟨hwritten, hflawed⟩ := ofLine_grammar h some_text
    (fun m => htext ▸ Message.ServiceCheck.parse_eq_ok_iff begun)
    (fun unread reason => htext ▸ Message.ServiceCheck.refused_parse_iff begun (htext ▸ unread))
  refine ⟨hwritten, hflawed, fun name rest said said' line' hline hline' => ?_⟩
  have begun' : Message.ServiceCheck.opening <+: trimEnd line'.toList := by
    rw [hline', List.append_assoc, List.append_assoc]
    exact List.prefix_append _ _
  refine ofLine_congr h some_text (begun'.ne_nil (List.cons_ne_nil _ _)) ?_
  rw [htext, hparse begun', hline, hline', Message.ServiceCheck.parse_append_message,
    Message.ServiceCheck.parse_append_message]

theorem ofLine_serviceCheck_sample :
    ∃ m, ofLine "_sc|up|2|#a,b|h:x|m:all #|#gone " = .ok (.message m) ∧
      Message.ServiceCheck.Written "_sc|up|2|#a,b|h:x|m:all #|#gone".toList m ∧
      ∃ r, ofLine "_sc|up|2|#a,b|h:x|m:" = .ok r ∧ r.bare = .message m := by
  obtain ⟨m, hm⟩ : ∃ m, ofLine "_sc|up|2|#a,b|h:x|m:all #|#gone " = .ok (.message m) := ⟨_, rfl⟩
  obtain ⟨hwritten, _, hsaid⟩ := ofLine_serviceCheck hm (by decide)
  exact ⟨m, hm, (hwritten m).mp rfl, hsaid ['u', 'p'] "2|#a,b|h:x".toList _ [] _ rfl rfl⟩

/-- A name that is missing comes before a status that is too high. -/
example : ofLine "_sc||4" =
    .ok (.failure ⟨.missingName, "_sc||4", some "service check without a name"⟩) := by rfl

end Reading
end MetricCapture
