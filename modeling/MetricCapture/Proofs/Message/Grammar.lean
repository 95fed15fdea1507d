import MetricCapture.Proofs.Message.Integer
import MetricCapture.Proofs.Number.Literal
/-! The grammar of metrics, told without the reader: which texts write which message, and which defect
of a text that writes none is its first. -/
namespace MetricCapture
open MetricCapture.Text MetricCapture.Number

namespace Message
namespace Metric

/-- A message says what some remarks tell, and nothing else. Of tags there is at least one. -/
structure Bears (m : Message) (remarks : List Remark) : Prop where
  rate : ∀ r, m.rate = some r ↔ .rate r ∈ remarks
  tags : ∀ ts, ts ≠ [] → (m.tags = ts ↔ .tags ts ∈ remarks)
  container : ∀ id, m.container = some id ↔ .container id ∈ remarks
  timestamp : ∀ t, m.timestamp = some t ↔ .timestamp t ∈ remarks

/-- A text that writes a message: a name and values behind colons, a kind behind a bar, and sections
behind further bars, each with a remark of its own, in any order. -/
inductive Written (text : List Char) (m : Message) : Prop where
  | intro {name code : List Char} {tokens sections : List (List Char)} {remarks : List Remark}
      (text_eq : text = ['|'].intercalate ([':'].intercalate (name :: tokens) :: code :: sections))
      (named : name ≠ []) (plain : ':' ∉ name ∧ '|' ∉ name) (name_eq : m.name = String.ofList name)
      (valued : tokens ≠ [])
      (values : List.Forall₂ (fun token v => read? token = some v) tokens m.values)
      (kind_eq : kindOf? code = some m.kind) (parted : ∀ s ∈ sections, '|' ∉ s)
      (told : List.Forall₂ Tells sections remarks) (once : (remarks.map Remark.mark).Nodup)
      (bears : Bears m remarks)

/-- The first defect of a head: no name, nothing behind the name, or a value that is no number. -/
inductive HeadFlaw (head : List Char) : Reason → Prop where
  | nameless {tokens : List (List Char)} (split : head.splitOn ':' = [] :: tokens) :
      HeadFlaw head .missingName
  | valueless {name : List Char} (named : name ≠ [])
      (split : head.splitOn ':' = [name] ∨ head.splitOn ':' = [name, []]) : HeadFlaw head .missingValue
  | value {name bad : List Char} {good rest : List (List Char)} (named : name ≠ [])
      (split : head.splitOn ':' = name :: (good ++ bad :: rest))
      (numbers : ∀ token ∈ good, ∃ v, read? token = some v) (no_number : read? bad = none) :
      HeadFlaw head (if bad = [] then .missingValue else .badNumericValue)

/-- The first defect of a text: one of its head, a kind that is not there or not known, or else
sections that do not each have a remark of their own. -/
inductive Flawed (text : List Char) : Reason → Prop where
  | head {head : List Char} {sections : List (List Char)} {reason : Reason}
      (split : text.splitOn '|' = head :: sections) (flaw : HeadFlaw head reason) : Flawed text reason
  | kind {head name : List Char} {sections : List (List Char)} {values : List Float}
      (split : text.splitOn '|' = head :: sections) (names : Names head name values)
      (unknown : ∀ code ∈ sections.head?, kindOf? code = none) : Flawed text .unknownType
  | sections {head code name : List Char} {sections : List (List Char)} {values : List Float}
      {kind : Kind} (split : text.splitOn '|' = head :: code :: sections)
      (names : Names head name values) (kind_eq : kindOf? code = some kind)
      (clash : ∀ remarks, List.Forall₂ Tells sections remarks → ¬ (remarks.map Remark.mark).Nodup) :
      Flawed text .malformedTagSection

namespace Extensions

def Holds (x : Extensions) : Remark → Prop
  | .rate r => x.rate = some r
  | .tags ts => x.tags = some ts
  | .container id => x.container = some id
  | .timestamp t => x.timestamp = some t
  | .external data => x.external = some data

theorem holds_put (x : Extensions) (e e' : Remark) :
    (x.put e').Holds e ↔ e = e' ∨ e.mark ≠ e'.mark ∧ x.Holds e := by
  cases e <;> cases e' <;> simp [Holds, put, Remark.mark, eq_comm]

/-- After remarks of different marks a field holds one of them, or what it held before. -/
theorem holds_foldl_put {x : Extensions} {es : List Remark} (once : (es.map Remark.mark).Nodup)
    (e : Remark) :
    (es.foldl put x).Holds e ↔ e ∈ es ∨ e.mark ∉ es.map Remark.mark ∧ x.Holds e := by
  induction es generalizing x with
  | nil => simp
  | cons e' es ih =>
    obtain ⟨hmark, once⟩ := List.nodup_cons.mp once
    rw [List.foldl_cons, ih once, holds_put, List.mem_cons, List.map_cons, List.mem_cons, not_or]
    constructor
    · rintro (h | ⟨h, rfl | ⟨hne, hx⟩⟩)
      · exact .inl (.inr h)
      · exact .inl (.inl rfl)
      · exact .inr ⟨⟨hne, h⟩, hx⟩
    · rintro ((rfl | h) | ⟨⟨hne, h⟩, hx⟩)
      · exact .inr ⟨hmark, .inl rfl⟩
      · exact .inl h
      · exact .inr ⟨h, .inr ⟨hne, hx⟩⟩

theorem holds_remarks {es : List Remark} (once : (es.map Remark.mark).Nodup) (e : Remark) :
    (es.foldl put {}).Holds e ↔ e ∈ es := by
  rw [holds_foldl_put once]
  refine or_iff_left ?_
  rintro ⟨_, h⟩
  cases e <;> cases h

end Extensions

theorem bears_foldl_put {remarks : List Remark} (once : (remarks.map Remark.mark).Nodup) {m : Message}
    (rate : m.rate = (remarks.foldl Extensions.put {}).rate)
    (tags : m.tags = (remarks.foldl Extensions.put {}).tags.getD [])
    (container : m.container = (remarks.foldl Extensions.put {}).container)
    (timestamp : m.timestamp = (remarks.foldl Extensions.put {}).timestamp) : Bears m remarks := by
  have hremarks := Extensions.holds_remarks once
  refine ⟨fun r => ?_, fun ts hts => ?_, fun id => ?_, fun t => ?_⟩
  · rw [rate]
    exact hremarks (.rate r)
  · rw [tags, ← hremarks (.tags ts), Extensions.Holds]
    cases (remarks.foldl Extensions.put {}).tags with
    | none => simpa using hts.symm
    | some _ => simp
  · rw [container]
    exact hremarks (.container id)
  · rw [timestamp]
    exact hremarks (.timestamp t)

/-- A message is told by its name, its values, its kind and what it bears. -/
theorem Bears.unique {m m' : Message} {remarks : List Remark} (h : Bears m remarks)
    (h' : Bears m' remarks) (name : m.name = m'.name) (values : m.values = m'.values)
    (kind : m.kind = m'.kind) : m = m' := by
  have hrate : m.rate = m'.rate := Option.ext fun r => (h.rate r).trans (h'.rate r).symm
  have hcontainer : m.container = m'.container :=
    Option.ext fun id => (h.container id).trans (h'.container id).symm
  have htimestamp : m.timestamp = m'.timestamp :=
    Option.ext fun t => (h.timestamp t).trans (h'.timestamp t).symm
  have htags : m.tags = m'.tags := by
    by_cases hne : m.tags = []
    · by_contra hdiff
      have hne' : m'.tags ≠ [] := fun he => hdiff (hne.trans he.symm)
      exact hdiff ((h.tags _ hne').mpr ((h'.tags _ hne').mp rfl))
    · exact ((h'.tags _ hne).mpr ((h.tags _ hne).mp rfl)).symm
  cases m
  cases m'
  simp_all

/-- Sections behind the kind are read when each holds a remark and no two remarks have one mark. -/
theorem readRemarks_eq_ok_iff {sections : List (List Char)} {ext : Extensions} :
    sections.foldlM Extensions.add {} = .ok ext ↔
      ∃ remarks, List.Forall₂ Tells sections remarks ∧ (remarks.map Remark.mark).Nodup ∧
        ext = remarks.foldl Extensions.put {} := by
  have hfree : ∀ e : Remark, ({} : Extensions).has e = false := by
    intro e
    cases e <;> rfl
  simp [foldlM_add_eq_ok_iff, hfree]

theorem not_mem_of_kindOf? {code : List Char} {kind : Kind} (h : kindOf? code = some kind) :
    '|' ∉ code := by
  unfold kindOf? at h
  split at h <;> first | decide | cases h

theorem not_notational_bar : ¬ Literal.Notational '|' := by
  simp only [Literal.Notational]
  decide

theorem not_notational_colon : ¬ Literal.Notational ':' := by
  simp only [Literal.Notational]
  decide

theorem not_mem_of_numbers {tokens : List (List Char)} {values : List Float}
    (h : List.Forall₂ (fun token v => read? token = some v) tokens values) {c : Char}
    (hc : ¬ Literal.Notational c) : ∀ token ∈ tokens, c ∉ token := by
  induction h with
  | nil => exact nofun
  | cons hv _ ih => exact List.forall_mem_cons.mpr ⟨not_mem_of_read? hv hc, ih⟩

/-- The sections of a text are the head, the kind and what follows, if it is put together from them. -/
theorem Written.splitOn {name code : List Char} {tokens sections : List (List Char)}
    {values : List Float} {kind : Kind} (plain : ':' ∉ name ∧ '|' ∉ name)
    (numbers : List.Forall₂ (fun token v => read? token = some v) tokens values)
    (kind_eq : kindOf? code = some kind) (parted : ∀ s ∈ sections, '|' ∉ s) :
    (['|'].intercalate ([':'].intercalate (name :: tokens) :: code :: sections)).splitOn '|' =
        [':'].intercalate (name :: tokens) :: code :: sections ∧
      ([':'].intercalate (name :: tokens)).splitOn ':' = name :: tokens := by
  have hhead : '|' ∉ [':'].intercalate (name :: tokens) := by
    intro hmem
    rcases mem_intercalate_singleton hmem with h | ⟨piece, hpiece, h⟩
    · exact absurd h (by decide)
    · rcases List.mem_cons.mp hpiece with rfl | hpiece
      · exact plain.2 h
      · exact not_mem_of_numbers numbers not_notational_bar piece hpiece h
  constructor
  · refine splitOn_eq_cons_iff_intercalate.mpr ⟨rfl, ?_⟩
    exact List.forall_mem_cons.mpr ⟨hhead, List.forall_mem_cons.mpr ⟨not_mem_of_kindOf? kind_eq, parted⟩⟩
  · refine splitOn_eq_cons_iff_intercalate.mpr ⟨rfl, ?_⟩
    exact List.forall_mem_cons.mpr ⟨plain.1, not_mem_of_numbers numbers not_notational_colon⟩

/-- A metric is read exactly from a text that writes it. -/
theorem parse_eq_ok_iff {text : List Char} {m : Message} : parse text = .ok m ↔ Written text m := by
  constructor
  · intro h
    obtain ⟨⟨name, values⟩, hhead, h⟩ := bind_eq_ok_iff.mp h
    obtain ⟨kind, hkind, h⟩ := bind_eq_ok_iff.mp h
    obtain ⟨ext, hext, h⟩ := bind_eq_ok_iff.mp h
    cases h
    obtain ⟨head, others, hsplit⟩ := List.exists_cons_of_ne_nil (List.splitOn_ne_nil '|' text)
    rw [hsplit] at hhead hkind hext
    obtain ⟨code, sections, rfl, hcode⟩ := readKind_eq_ok_iff.mp hkind
    obtain ⟨tokens, hnames, hname, htokens, hvalues⟩ := readHead_eq_ok_iff.mp hhead
    obtain ⟨remarks, told, once, rfl⟩ := readRemarks_eq_ok_iff.mp hext
    obtain ⟨rfl, hbars⟩ := splitOn_eq_cons_iff_intercalate.mp hsplit
    obtain ⟨rfl, hcolons⟩ := splitOn_eq_cons_iff_intercalate.mp hnames
    obtain ⟨hbar, hbars⟩ := List.forall_mem_cons.mp hbars
    have hbar_name : '|' ∉ name := by
      obtain ⟨token, tokens, rfl⟩ := List.exists_cons_of_ne_nil htokens
      rw [List.intercalate_cons_cons, List.append_assoc] at hbar
      exact fun hmem => hbar (List.mem_append_left _ hmem)
    exact ⟨rfl, hname, ⟨hcolons name List.mem_cons_self, hbar_name⟩, rfl, htokens, hvalues, hcode,
      (List.forall_mem_cons.mp hbars).2, told, once, bears_foldl_put once rfl rfl rfl rfl⟩
  · rintro ⟨rfl, named, plain, name_eq, valued, values, kind_eq, parted, told, once, bears⟩
    rename_i name code tokens sections remarks
    obtain ⟨hsplit, hnames⟩ := Written.splitOn plain values kind_eq parted
    have hhead : readHead ([':'].intercalate (name :: tokens)) = .ok (name, m.values) :=
      readHead_eq_ok_iff.mpr ⟨tokens, hnames, named, valued, values⟩
    have hkind : readKind (code :: sections) = .ok m.kind :=
      readKind_eq_ok_iff.mpr ⟨code, sections, rfl, kind_eq⟩
    have hext : sections.foldlM Extensions.add {} = .ok (remarks.foldl Extensions.put {}) :=
      readRemarks_eq_ok_iff.mpr ⟨remarks, told, once, rfl⟩
    unfold parse
    rw [hsplit]
    refine bind_eq_ok_iff.mpr ⟨_, hhead, bind_eq_ok_iff.mpr ⟨_, hkind, bind_eq_ok_iff.mpr ⟨_, hext, ?_⟩⟩⟩
    refine congrArg Except.ok ((bears_foldl_put once ?_ ?_ ?_ ?_).unique bears name_eq.symm rfl rfl) <;> rfl

/-- The tags of a metric hold nothing that the section does not which tells them. -/
private theorem Bears.exists_section {m : Message} {sections : List (List Char)}
    {remarks : List Remark} (bears : Bears m remarks) (told : List.Forall₂ Tells sections remarks)
    {tag : String} (htag : tag ∈ m.tags) {c : Char} (hc : c ∈ tag.toList) : ∃ s ∈ sections, c ∈ s := by
  obtain ⟨s, hs, htells⟩ :=
    exists_of_mem_forall₂ told ((bears.tags _ (List.ne_nil_of_mem htag)).mp rfl)
  refine ⟨s, hs, ?_⟩
  generalize hremark : Remark.tags m.tags = remark at htells
  cases htells with
  | tags none_empty =>
    rw [Remark.tags.inj hremark] at htag
    obtain ⟨piece, hpiece, rfl⟩ := List.mem_map.mp htag
    rw [String.toList_ofList] at hc
    exact List.mem_cons_of_mem '#' (mem_of_mem_splitOn hpiece hc)
  | _ => cases hremark

/-- The name and the tags of a metric hold nothing that its text does not. -/
theorem mem_text_of_mem_part {text : List Char} {m : Message} (h : parse text = .ok m)
    {part : String} (hpart : part ∈ m.name :: m.tags) {c : Char} (hc : c ∈ part.toList) :
    c ∈ text := by
  obtain ⟨htext, -, plain, name_eq, -, values, kind_eq, parted, told, -, bears⟩ := parse_eq_ok_iff.mp h
  rename_i name code tokens sections remarks
  obtain ⟨hsplit, hnames⟩ := Written.splitOn plain values kind_eq parted
  rw [← htext] at hsplit
  rcases List.mem_cons.mp hpart with rfl | htag
  · rw [name_eq, String.toList_ofList] at hc
    have hhead := mem_of_mem_splitOn (hnames ▸ List.mem_cons_self) hc
    exact mem_of_mem_splitOn (hsplit ▸ List.mem_cons_self) hhead
  · obtain ⟨s, hs, hcs⟩ := bears.exists_section told htag hc
    exact mem_of_mem_splitOn
      (hsplit ▸ List.mem_cons_of_mem _ (List.mem_cons_of_mem code hs)) hcs

theorem refused_readValue_iff {all token : List Char} {reason : Reason} :
    Refused (readValue all token) reason ↔
      read? token = none ∧ (if token = [] then .missingValue else .badNumericValue) = reason := by
  cases token with
  | nil =>
    have hnone : read? [] = none := rfl
    simp [readValue, refused_reject_iff, hnone]
  | cons c cs =>
    cases hread : read? (c :: cs) with
    | none => simp [readValue, hread, refused_reject_iff]
    | some v => simp [readValue, hread, not_refused_ok]

theorem refused_mapM_iff {all : List Char} {tokens : List (List Char)} {reason : Reason} :
    Refused (tokens.mapM (readValue all)) reason ↔
      ∃ good bad rest, tokens = good ++ bad :: rest ∧ (∀ token ∈ good, ∃ v, read? token = some v) ∧
        read? bad = none ∧ (if bad = [] then .missingValue else .badNumericValue) = reason := by
  constructor
  · rintro ⟨detail, h⟩
    obtain ⟨good, bad, rest, htokens, hgood, hbad⟩ := mapM_eq_error_iff.mp h
    simp only [exists_mapM_iff, readValue_eq_ok_iff] at hgood
    exact ⟨good, bad, rest, htokens, hgood, refused_readValue_iff.mp ⟨detail, hbad⟩⟩
  · rintro ⟨good, bad, rest, htokens, hgood, hbad⟩
    obtain ⟨detail, hbad⟩ : Refused (readValue all bad) reason := refused_readValue_iff.mpr hbad
    refine ⟨detail, mapM_eq_error_iff.mpr ⟨good, bad, rest, htokens, ?_, hbad⟩⟩
    simpa only [exists_mapM_iff, readValue_eq_ok_iff] using hgood

theorem readHead_of_splitOn {head name : List Char} {tokens : List (List Char)}
    (h : head.splitOn ':' = name :: tokens) : ∃ detail rest,
    readHead head =
      if name = [] then reject .missingName "empty metric name"
      else if tokens = [] ∨ tokens = [[]] then reject .missingValue detail
      else tokens.mapM (readValue rest) >>= fun read => pure (name, read) := by
  refine ⟨"no value for " ++ Quoted.text name, ?_⟩
  by_cases hcolon : ':' ∈ head
  · obtain ⟨name', rest, rfl, hname⟩ := List.eq_append_cons_of_mem hcolon
    rw [List.splitOn_append_cons_self_of_not_mem hname] at h
    obtain ⟨rfl, rfl⟩ := List.cons.inj h
    have hrest : rest.splitOn ':' = [[]] ↔ rest = [] := by
      simp [splitOn_eq_cons_iff_intercalate, List.intercalate]
    refine ⟨rest, ?_⟩
    simp only [readHead_append hname, List.isEmpty_iff, List.splitOn_ne_nil, hrest, false_or]
  · rw [List.splitOn_eq_singleton hcolon] at h
    obtain ⟨rfl, rfl⟩ := List.cons.inj h
    refine ⟨[], ?_⟩
    simp only [readHead_of_not_mem hcolon, List.isEmpty_iff, true_or, if_true]

/-- A head is refused for its first defect. -/
theorem refused_readHead_iff {head : List Char} {reason : Reason} :
    Refused (readHead head) reason ↔ HeadFlaw head reason := by
  obtain ⟨name, tokens, hsplit⟩ := List.exists_cons_of_ne_nil (List.splitOn_ne_nil ':' head)
  obtain ⟨detail, rest, hread⟩ := readHead_of_splitOn hsplit
  rw [hread]
  constructor
  · intro h
    split at h
    · rename_i hname
      cases refused_reject_iff.mp h
      exact .nameless (hname ▸ hsplit)
    rename_i hname
    split at h
    · rename_i htokens
      cases refused_reject_iff.mp h
      rcases htokens with rfl | rfl
      · exact .valueless hname (.inl hsplit)
      · exact .valueless hname (.inr hsplit)
    rcases refused_bind_iff.mp h with h | ⟨_, _, h⟩
    · obtain ⟨good, bad, rest', rfl, hgood, hbad, rfl⟩ := refused_mapM_iff.mp h
      exact .value hname hsplit hgood hbad
    · exact absurd h (not_refused_ok _ _)
  · intro h
    cases h with
    | nameless split =>
      cases hsplit.symm.trans split
      exact refused_reject_iff.mpr rfl
    | valueless named split =>
      rcases split with split | split <;> cases hsplit.symm.trans split
      · simp [named, refused_reject_iff]
      · simp [named, refused_reject_iff]
    | @value _ bad good rest' named split numbers no_number =>
      cases hsplit.symm.trans split
      rw [if_neg named]
      by_cases htokens : good ++ bad :: rest' = [[]]
      · obtain ⟨rfl, rfl, rfl⟩ : good = [] ∧ bad = [] ∧ rest' = [] := by
          simpa [List.append_eq_singleton_iff] using htokens
        rw [if_pos (.inr rfl), if_pos rfl]
        exact refused_reject_iff.mpr rfl
      · rw [if_neg (by simp [htokens])]
        exact refused_bind_iff.mpr
          (.inl (refused_mapM_iff.mpr ⟨good, bad, rest', rfl, numbers, no_number, rfl⟩))

theorem refused_readKind_iff {sections : List (List Char)} {reason : Reason} :
    Refused (readKind sections) reason ↔
      (∀ code ∈ sections.head?, kindOf? code = none) ∧ .unknownType = reason := by
  cases sections with
  | nil => simp [readKind, refused_reject_iff]
  | cons code rest =>
    cases hcode : kindOf? code with
    | none => simp [readKind, hcode, refused_reject_iff]
    | some kind => simp [readKind, hcode, not_refused_ok]

theorem reason_of_foldlM_add {sections : List (List Char)} {x : Extensions} {d : Defect}
    (h : sections.foldlM Extensions.add x = .error (.defect d)) : d.reason = .malformedTagSection := by
  have hbreaks : BreaksWith (fun t => ∀ d, t = .defect d → d.reason = .malformedTagSection)
      (sections.foldlM Extensions.add x) := by
    refine breaksWith_foldlM (breaksWith_add ?_ ?_) sections x
    · rintro detail _ d ⟨⟩
      rfl
    · exact fun e d => nofun
  exact hbreaks _ h d rfl

theorem refused_readRemarks {sections : List (List Char)}
    (clash : ∀ remarks, List.Forall₂ Tells sections remarks → ¬ (remarks.map Remark.mark).Nodup) :
    Refused (sections.foldlM Extensions.add {}) .malformedTagSection ∨
      ∃ e, sections.foldlM Extensions.add {} = .error (.integer e) := by
  cases hfold : sections.foldlM Extensions.add {} with
  | ok ext =>
    obtain ⟨remarks, told, once, _⟩ := readRemarks_eq_ok_iff.mp hfold
    exact absurd once (clash remarks told)
  | error t =>
    cases t with
    | defect d => exact .inl ⟨d.detail, reason_of_foldlM_add hfold ▸ rfl⟩
    | integer e => exact .inr ⟨e, rfl⟩

/-- A text that counts on no integer it cannot be given is refused for its first defect. -/
theorem refused_parse_iff {text : List Char} (unread : ∀ e, parse text ≠ .error (.integer e))
    {reason : Reason} : Refused (parse text) reason ↔ Flawed text reason := by
  obtain ⟨head, others, hsplit⟩ := List.exists_cons_of_ne_nil (List.splitOn_ne_nil '|' text)
  unfold parse at unread ⊢
  rw [hsplit] at unread ⊢
  dsimp only [List.headD_cons, List.drop_succ_cons, List.drop_zero] at unread ⊢
  constructor
  · intro h
    rcases refused_bind_iff.mp h with h | ⟨⟨name, values⟩, hhead, h⟩
    · exact .head hsplit (refused_readHead_iff.mp h)
    have names := readHead_eq_ok_iff.mp hhead
    rcases refused_bind_iff.mp h with h | ⟨kind, hkind, h⟩
    · obtain ⟨unknown, rfl⟩ := refused_readKind_iff.mp h
      exact .kind hsplit names unknown
    obtain ⟨code, sections, rfl, kind_eq⟩ := readKind_eq_ok_iff.mp hkind
    rcases refused_bind_iff.mp h with ⟨detail, h⟩ | ⟨_, _, h⟩
    · cases reason_of_foldlM_add h
      refine .sections hsplit names kind_eq fun remarks told once => ?_
      cases (readRemarks_eq_ok_iff.mpr ⟨remarks, told, once, rfl⟩).symm.trans h
    · exact absurd h (not_refused_ok _ _)
  · intro h
    cases h with
    | head split flaw =>
      cases hsplit.symm.trans split
      exact refused_bind_iff.mpr (.inl (refused_readHead_iff.mpr flaw))
    | kind split names unknown =>
      cases hsplit.symm.trans split
      refine refused_bind_iff.mpr (.inr ⟨_, readHead_eq_ok_iff.mpr names, ?_⟩)
      exact refused_bind_iff.mpr (.inl (refused_readKind_iff.mpr ⟨unknown, rfl⟩))
    | @sections _ code _ sections _ _ split names kind_eq clash =>
      cases hsplit.symm.trans split
      have hhead := readHead_eq_ok_iff.mpr names
      have hkind := readKind_eq_ok_iff.mpr ⟨code, sections, rfl, kind_eq⟩
      rcases refused_readRemarks clash with h | ⟨e, h⟩
      · refine refused_bind_iff.mpr (.inr ⟨_, hhead, refused_bind_iff.mpr (.inr ⟨_, hkind, ?_⟩)⟩)
        exact refused_bind_iff.mpr (.inl h)
      · refine absurd (bind_eq_error_iff.mpr (.inr ⟨_, hhead, ?_⟩)) (unread e)
        exact bind_eq_error_iff.mpr (.inr ⟨_, hkind, bind_eq_error_iff.mpr (.inl h)⟩)

end Metric
end Message

/-- A line that begins neither a service check nor an event is a metric exactly when it is written as
one, with the fields that are written. Else its failure keeps it and has the reason of its first
defect. -/
theorem Reading.ofLine_metric {line : String} {r : Reading} (h : ofLine line = .ok r)
    (some_text : trimEnd line.toList ≠ [])
    (no_check : ¬ Message.ServiceCheck.opening <+: trimEnd line.toList)
    (no_notice : ¬ Message.Notice.opening <+: trimEnd line.toList) :
    (∀ m, r = .message m ↔ Message.Metric.Written (trimEnd line.toList) m) ∧
      ((∀ m, ¬ Message.Metric.Written (trimEnd line.toList) m) → ∃ reason detail,
        r = .failure ⟨reason, line, some detail⟩ ∧
          ∀ reason', Message.Metric.Flawed (trimEnd line.toList) reason' ↔ reason' = reason) := by
  have hparse := Message.parseTrimmed_metric no_check no_notice
  refine ofLine_grammar h some_text (fun m => ?_) fun unread reason => ?_
  · rw [hparse]
    exact Message.Metric.parse_eq_ok_iff
  · rw [hparse] at unread ⊢
    exact Message.Metric.refused_parse_iff unread

theorem Reading.ofLine_metric_sample :
    ∃ m, ofLine "a:1:-.5e1|ms|c:x|@0.5|#b,d|T12 " = .ok (.message m) ∧
      Message.Metric.Written "a:1:-.5e1|ms|c:x|@0.5|#b,d|T12".toList m := by
  obtain ⟨m, hm⟩ : ∃ m, ofLine "a:1:-.5e1|ms|c:x|@0.5|#b,d|T12 " = .ok (.message m) := ⟨_, rfl⟩
  exact ⟨m, hm, ((ofLine_metric hm (by decide) (by decide) (by decide)).1 m).mp rfl⟩

/-- A value that is no number comes before a kind that is not known. -/
example : Reading.ofLine "a:1:x|q" =
    .ok (.failure ⟨.badNumericValue, "a:1:x|q", some "not a number: 'x'"⟩) := by rfl

end MetricCapture
