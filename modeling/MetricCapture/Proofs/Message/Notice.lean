import MetricCapture.Proofs.Message.Annotations
import MetricCapture.Proofs.Message.Integer
import MetricCapture.Proofs.Message.Lengths
/-! The grammar of events, told without the reader: which texts write which event, and which of those
that write none lack nothing but a title. The lengths of a header count bytes, yet they can only cut a
text between two characters, since a bar must follow where they end. -/
namespace MetricCapture
open MetricCapture.Text MetricCapture.Number

namespace Message.Notice

/-- A text that its header cuts into a title and a text of the lengths declared, with a bar between
them, and nothing or another bar behind. -/
inductive Cut (text title said tail : List Char) : Prop where
  | intro {titleDigits textDigits : List Char}
      (header : Header text titleDigits textDigits (title ++ '|' :: said ++ tail))
      (title_length : readInteger titleDigits = .ok (Utf8.encode title).length)
      (said_length : readInteger textDigits = .ok (Utf8.encode said).length)
      (closed : ∀ c ∈ tail.head?, c = '|')

/-- What may stand behind the text of an event: nothing, or a bar and annotations with further bars
between them. Of no annotations the first bar is left alone. -/
inductive Trails : List Char → List String → Prop where
  | nothing : Trails [] []
  | behind {sections : List (List Char)} {tags : List String} (parted : ∀ s ∈ sections, '|' ∉ s)
      (annotated : Annotated keys sections tags) : Trails ('|' :: ['|'].intercalate sections) tags

inductive Written (text : List Char) (m : Message) : Prop where
  | intro {title said tail : List Char} {tags : List String} (cut : Cut text title said tail)
      (titled : 1 ≤ (Utf8.encode title).length) (trails : Trails tail tags)
      (message_eq : m =
        { name := String.ofList title, values := [1.0], kind := .event, tags := tags })

inductive Nameless (text : List Char) : Prop where
  | intro {titleDigits textDigits rest : List Char} {said tail : List UInt8}
      (header : Header text titleDigits textDigits ('|' :: rest))
      (untitled : readInteger titleDigits = .ok 0)
      (said_length : readInteger textDigits = .ok said.length)
      (bytes_eq : Utf8.encode rest = said ++ tail) (closed : ∀ b ∈ tail.head?, b = bar)

theorem Cut.closed {text title said tail : List Char} (h : Cut text title said tail) :
    ∀ c ∈ tail.head?, c = '|' := by
  obtain ⟨_, _, _, closed⟩ := h
  exact closed

theorem keyed_keys : Keyed keys := by
  unfold Keyed
  decide

/-- An event is read by its header, and by how that cuts what follows it. -/
theorem parse_of_header {text titleDigits textDigits after : List Char} {n k : Nat}
    (header : Header text titleDigits textDigits after) (title_length : readInteger titleDigits = .ok n)
    (said_length : readInteger textDigits = .ok k) :
    parse text = split n k (Utf8.encode after) >>= fun parts =>
      annotations keys "event" (trailerSections parts.2) >>= fun notes =>
        pure { name := String.ofList parts.1, values := [1.0], kind := .event, tags := notes.tags } := by
  obtain ⟨rest, rfl⟩ : opening <+: text := by
    rw [header.text_eq, List.append_assoc]
    exact List.prefix_append _ _
  unfold parse
  rw [splitHeader?_eq_some_iff.mpr header]
  dsimp only
  rw [integer_eq_ok_iff.mpr title_length, integer_eq_ok_iff.mpr said_length]
  rfl

theorem parse_of_cut {text title said tail : List Char} (cut : Cut text title said tail) :
    parse text =
      if title = [] then reject .missingName "event without a title"
      else annotations keys "event" (trailerSections (tail.drop 1)) >>= fun notes =>
        pure { name := String.ofList title, values := [1.0], kind := .event, tags := notes.tags } := by
  obtain ⟨header, title_length, said_length, closed⟩ := cut
  rw [parse_of_header header title_length said_length, split_encode closed]
  split
  · rfl
  · rfl

/-- A text is malformed, or its header cannot be read, or it is cut. -/
theorem parse_cases {text : List Char} (begun : opening <+: text) :
    (∃ detail, parse text = reject .malformedTagSection detail) ∨
      (∃ e, parse text = .error (.integer e)) ∨ ∃ title said tail, Cut text title said tail := by
  obtain ⟨rest, rfl⟩ := begun
  cases hheader : splitHeader? (opening ++ rest) with
  | none =>
    refine .inl ⟨"bad event length header", ?_⟩
    unfold parse
    rw [hheader]
  | some parts =>
    obtain ⟨titleDigits, textDigits, after⟩ := parts
    have header := splitHeader?_eq_some_iff.mp hheader
    cases htitle : readInteger titleDigits with
    | error e => exact .inr (.inl ⟨e, parse_eq_integer_iff.mpr ⟨_, _, _, hheader, .inl htitle⟩⟩)
    | ok n =>
    cases hsaid : readInteger textDigits with
    | error e =>
      have hread := parse_eq_integer_iff.mpr ⟨_, _, _, hheader, .inr ⟨⟨n, htitle⟩, hsaid⟩⟩
      exact .inr (.inl ⟨e, hread⟩)
    | ok k =>
    by_cases hfits : Fits n k (Utf8.encode after)
    · obtain ⟨title, said, tail, rfl, rfl, rfl, closed⟩ := hfits.exists_text
      exact .inr (.inr ⟨title, said, tail, ⟨header, htitle, hsaid, closed⟩⟩)
    · rw [parse_of_header header htitle hsaid]
      rcases split_of_not_fits hfits with hsplit | hsplit
      · exact .inl ⟨_, by rw [hsplit]; rfl⟩
      · exact .inl ⟨_, by rw [hsplit]; rfl⟩

/-- What stands behind the text of an event is read by its sections. -/
theorem trails_iff {tail : List Char} {tags : List String} :
    Trails tail tags ↔
      (∀ c ∈ tail.head?, c = '|') ∧ Annotated keys (trailerSections (tail.drop 1)) tags := by
  constructor
  · intro h
    cases h with
    | nothing => exact ⟨nofun, annotated_nil_iff.mpr rfl⟩
    | @behind sections _ parted annotated =>
      have hsections : trailerSections (['|'].intercalate sections) = sections := by
        cases sections with
        | nil => rfl
        | cons body sections =>
          -- A bar and nothing behind it would be one empty section, which is no annotation.
          have hsplit := List.splitOn_intercalate '|' parted (List.cons_ne_nil body sections)
          unfold trailerSections
          rw [hsplit, if_neg]
          intro hempty
          rw [List.isEmpty_iff.mp hempty] at hsplit
          cases hsplit
          obtain ⟨told, _⟩ := annotated
          cases told with
          | cons hbody _ => exact not_annotates_nil keyed_keys _ hbody
      refine ⟨fun c hc => (Option.some.inj hc).symm, ?_⟩
      rw [List.drop_succ_cons, List.drop_zero, hsections]
      exact annotated
  · rintro ⟨closed, annotated⟩
    cases tail with
    | nil =>
      rw [annotated_nil_iff.mp annotated]
      exact .nothing
    | cons c tail =>
      obtain rfl := closed c rfl
      rw [List.drop_succ_cons, List.drop_zero] at annotated
      unfold trailerSections at annotated
      split at annotated
      · rename_i hempty
        have h := Trails.behind (List.forall_mem_nil _) annotated
        rwa [List.isEmpty_iff.mp hempty]
      · have h := Trails.behind (fun s => not_mem_of_mem_splitOn) annotated
        rwa [List.intercalate_splitOn] at h

/-- An event is read exactly from a text that writes it. -/
theorem parse_eq_ok_iff {text : List Char} (begun : opening <+: text) {m : Message} :
    parse text = .ok m ↔ Written text m := by
  constructor
  · intro h
    rcases parse_cases begun with ⟨_, hbad⟩ | ⟨_, hbad⟩ | ⟨title, said, tail, cut⟩
    · cases hbad.symm.trans h
    · cases hbad.symm.trans h
    rw [parse_of_cut cut] at h
    split at h
    · cases h
    rename_i htitle
    obtain ⟨notes, hnotes, h⟩ := bind_eq_ok_iff.mp h
    cases h
    have annotated := (exists_annotations_iff keyed_keys).mp ⟨notes, hnotes, rfl⟩
    have trails := trails_iff.mpr ⟨cut.closed, annotated⟩
    exact ⟨cut, List.length_pos_iff.mpr (mt Utf8.encode_eq_nil_iff.mp htitle), trails, rfl⟩
  · rintro ⟨cut, titled, trails, rfl⟩
    rename_i title said tail tags
    obtain ⟨notes, hnotes, rfl⟩ : ∃ notes,
        annotations keys "event" (trailerSections (tail.drop 1)) = .ok notes ∧ notes.tags = tags :=
      (exists_annotations_iff keyed_keys).mpr (trails_iff.mp trails).2
    rw [parse_of_cut cut, if_neg (mt Utf8.encode_eq_nil_iff.mpr (List.length_pos_iff.mp titled))]
    exact bind_eq_ok_iff.mpr ⟨notes, hnotes, rfl⟩

theorem nameless_iff {text : List Char} : Nameless text ↔ ∃ said tail, Cut text [] said tail := by
  constructor
  · rintro ⟨header, untitled, said_length, bytes_eq, closed⟩
    obtain ⟨said, tail, rfl, rfl, rfl⟩ := Utf8.exists_of_encode_eq_append bytes_eq fun b hb => by
      rw [closed b hb]
      decide
    exact ⟨said, tail, header, untitled, said_length, closed_iff.mp closed⟩
  · rintro ⟨said, tail, header, untitled, said_length, closed⟩
    exact ⟨header, untitled, said_length, Utf8.encode_append said tail, closed_iff.mpr closed⟩

theorem parse_of_nameless {text : List Char} (h : Nameless text) :
    parse text = reject .missingName "event without a title" := by
  obtain ⟨said, tail, cut⟩ := nameless_iff.mp h
  rw [parse_of_cut cut, if_pos rfl]

theorem reason_of_refused {text : List Char} (begun : opening <+: text) {reason : Reason}
    (h : Refused (parse text) reason) :
    reason = .missingName ∧ Nameless text ∨ reason = .malformedTagSection := by
  rcases parse_cases begun with ⟨_, hbad⟩ | ⟨_, hbad⟩ | ⟨title, said, tail, cut⟩
  · rw [hbad] at h
    exact .inr (refused_reject_iff.mp h).symm
  · obtain ⟨_, h⟩ := h
    cases hbad.symm.trans h
  rw [parse_of_cut cut] at h
  split at h
  · rename_i htitle
    subst htitle
    exact .inl ⟨(refused_reject_iff.mp h).symm, nameless_iff.mpr ⟨said, tail, cut⟩⟩
  · rcases refused_bind_iff.mp h with h | ⟨_, _, h⟩
    · exact .inr ((refused_annotations_iff keyed_keys).mp h).1
    · exact absurd h (not_refused_ok _ _)

theorem Nameless.not_written {text : List Char} (h : Nameless text) (begun : opening <+: text)
    (m : Message) : ¬ Written text m := by
  intro hm
  cases ((parse_eq_ok_iff begun).mpr hm).symm.trans (parse_of_nameless h)

/-- A text that lacks nothing but a title is refused for that, and any other for its form. -/
theorem refused_parse_iff {text : List Char} (begun : opening <+: text)
    (unread : ∀ e, parse text ≠ .error (.integer e)) {reason : Reason} :
    Refused (parse text) reason ↔
      reason = .missingName ∧ Nameless text ∨
        reason = .malformedTagSection ∧ ¬ Nameless text ∧ ∀ m, ¬ Written text m := by
  constructor
  · intro h
    rcases reason_of_refused begun h with hname | rfl
    · exact .inl hname
    · obtain ⟨detail, h⟩ := h
      refine .inr ⟨rfl, fun hname => ?_, fun m hm => ?_⟩
      · cases (parse_of_nameless hname).symm.trans h
      · cases ((parse_eq_ok_iff begun).mpr hm).symm.trans h
  · rintro (⟨rfl, hname⟩ | ⟨rfl, hname, hno⟩)
    · rw [parse_of_nameless hname]
      exact refused_reject_iff.mpr rfl
    · cases hparse : parse text with
      | ok m => exact absurd ((parse_eq_ok_iff begun).mp hparse) (hno m)
      | error t =>
        cases t with
        | integer e => exact absurd hparse (unread e)
        | defect d =>
          rcases reason_of_refused begun ⟨d.detail, hparse⟩ with ⟨_, h⟩ | h
          · exact absurd h hname
          · exact ⟨d.detail, h ▸ rfl⟩

end Message.Notice

/-- A line that begins an event is one exactly when it is written as one, with the title and the tags
that are written. Else its failure keeps it: for want of a name exactly when the title has no bytes and
what follows is cut as it should be, and in every other case for its form. -/
theorem Reading.ofLine_notice {line : String} {r : Reading} (h : ofLine line = .ok r)
    (begun : Message.Notice.opening <+: trimEnd line.toList) :
    (∀ m, r = .message m ↔ Message.Notice.Written (trimEnd line.toList) m) ∧
      ((∃ detail, r = .failure ⟨.missingName, line, some detail⟩) ↔
        Message.Notice.Nameless (trimEnd line.toList)) ∧
      ((∀ m, ¬ Message.Notice.Written (trimEnd line.toList) m) →
        ¬ Message.Notice.Nameless (trimEnd line.toList) →
        ∃ detail, r = .failure ⟨.malformedTagSection, line, some detail⟩) := by
  have htext : Message.parseTrimmed (trimEnd line.toList) =
      Message.Notice.parse (trimEnd line.toList) := by
    obtain ⟨rest, hrest⟩ := begun
    rw [← hrest]
    exact Message.parseTrimmed_notice rest
  obtain ⟨hwritten, hflawed⟩ := ofLine_grammar h (begun.ne_nil (List.cons_ne_nil _ _))
    (fun m => htext ▸ Message.Notice.parse_eq_ok_iff begun)
    (fun unread reason => htext ▸ Message.Notice.refused_parse_iff begun (htext ▸ unread))
  refine ⟨hwritten, ⟨?_, fun hname => ?_⟩, fun hno hname => ?_⟩
  · rintro ⟨detail, hr⟩
    have hno : ∀ m, ¬ Message.Notice.Written (trimEnd line.toList) m :=
      fun m hm => by cases hr.symm.trans ((hwritten m).mpr hm)
    obtain ⟨reason, _, hr', hreason⟩ := hflawed hno
    cases hr.symm.trans hr'
    exact ((hreason .missingName).mpr rfl).elim And.right nofun
  · obtain ⟨reason, detail, hr, hreason⟩ := hflawed (hname.not_written begun)
    cases (hreason .missingName).mp (.inl ⟨rfl, hname⟩)
    exact ⟨detail, hr⟩
  · obtain ⟨reason, detail, hr, hreason⟩ := hflawed hno
    cases (hreason .malformedTagSection).mp (.inr ⟨rfl, hname, hno⟩)
    exact ⟨detail, hr⟩

theorem Reading.ofLine_notice_sample :
    ∃ m, ofLine "_e{4,3}:a|é|b|c|d:1|#x,y " = .ok (.message m) ∧
      Message.Notice.Written "_e{4,3}:a|é|b|c|d:1|#x,y".toList m := by
  obtain ⟨m, hm⟩ : ∃ m, ofLine "_e{4,3}:a|é|b|c|d:1|#x,y " = .ok (.message m) := ⟨_, rfl⟩
  exact ⟨m, hm, ((ofLine_notice hm (by decide)).1 m).mp rfl⟩

/-- A title of no bytes is wanting only where a text of the length declared stands behind it. -/
example : Reading.ofLine "_e{0,1}:|é" =
    .ok (.failure ⟨.malformedTagSection, "_e{0,1}:|é", some "event text length mismatch"⟩) := by rfl

end MetricCapture
