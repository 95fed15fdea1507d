import Mathlib.Data.List.TakeWhile
import MetricCapture.Proofs.Message.Trouble
import MetricCapture.Proofs.Text.Line
/-! Metrics: a name and values, a kind, and sections that each say one thing about them. -/
namespace MetricCapture.Message
open MetricCapture.Text MetricCapture.Number

namespace Metric

/-- A head: a name, and at least one value, each of them behind a colon. -/
def Names (head name : List Char) (values : List Float) : Prop :=
  ∃ tokens, head.splitOn ':' = name :: tokens ∧ name ≠ [] ∧ tokens ≠ [] ∧
    List.Forall₂ (fun token v => read? token = some v) tokens values

theorem readValue_eq_ok_iff {all token : List Char} {v : Float} :
    readValue all token = .ok v ↔ read? token = some v := by
  unfold readValue
  cases token with
  | nil => exact ⟨nofun, nofun⟩
  | cons c cs =>
    rw [if_neg (by simp)]
    cases read? (c :: cs) with
    | none => exact ⟨nofun, nofun⟩
    | some w =>
      dsimp only
      rw [Except.ok.injEq, Option.some.injEq]

theorem readHead_append {name : List Char} (h : ':' ∉ name) (rest : List Char) :
    readHead (name ++ ':' :: rest) =
      if name.isEmpty then reject .missingName "empty metric name"
      else if rest.isEmpty then reject .missingValue ("no value for " ++ Quoted.text name)
      else (rest.splitOn ':').mapM (readValue rest) >>= fun read => pure (name, read) := by
  have hname : ∀ c ∈ name, (c != ':') = true := fun c hc => bne_iff_ne.mpr fun he => h (he ▸ hc)
  unfold readHead
  rw [List.takeWhile_append_of_pos hname, List.dropWhile_append_of_pos hname,
    List.takeWhile_cons_of_neg (by simp), List.dropWhile_cons_of_neg (by simp), List.append_nil,
    List.drop_one, List.tail_cons]

theorem readHead_of_not_mem {head : List Char} (h : ':' ∉ head) :
    readHead head =
      if head.isEmpty then reject .missingName "empty metric name"
      else reject .missingValue ("no value for " ++ Quoted.text head) := by
  have hhead : ∀ c ∈ head, (c != ':') = true := fun c hc => bne_iff_ne.mpr fun he => h (he ▸ hc)
  unfold readHead
  rw [List.takeWhile_eq_self_iff.mpr hhead, List.dropWhile_eq_nil_iff.mpr hhead]
  rfl

theorem mapM_readValue_eq_ok_iff {all : List Char} {tokens : List (List Char)} {values : List Float} :
    tokens.mapM (readValue all) = .ok values ↔
      List.Forall₂ (fun token v => read? token = some v) tokens values := by
  rw [mapM_eq_ok_iff]
  simp only [readValue_eq_ok_iff]

theorem readHead_eq_ok_iff {head name : List Char} {values : List Float} :
    readHead head = .ok (name, values) ↔ Names head name values := by
  unfold Names
  by_cases hcolon : ':' ∈ head
  · obtain ⟨name', rest, rfl, hname⟩ := List.eq_append_cons_of_mem hcolon
    rw [List.splitOn_append_cons_self_of_not_mem hname, readHead_append hname]
    constructor
    · intro h
      split at h
      · cases h
      · split at h
        · cases h
        · rename_i hne _
          obtain ⟨read, hread, h⟩ := bind_eq_ok_iff.mp h
          cases h
          exact ⟨_, rfl, by simpa using hne, List.splitOn_ne_nil _ _,
            mapM_readValue_eq_ok_iff.mp hread⟩
    · rintro ⟨tokens, hsplit, hne, htokens, hread⟩
      obtain ⟨rfl, rfl⟩ := List.cons.inj hsplit
      have hrest : rest ≠ [] := by
        rintro rfl
        cases hread with
        | cons hv _ => cases hv
      rw [if_neg (by simpa using hne), if_neg (by simpa using hrest),
        mapM_readValue_eq_ok_iff.mpr hread]
      rfl
  · rw [List.splitOn_eq_singleton hcolon, readHead_of_not_mem hcolon]
    constructor
    · intro h
      split at h
      · cases h
      · cases h
    · rintro ⟨tokens, hsplit, _, htokens, _⟩
      exact absurd (List.cons.inj hsplit).2.symm htokens

theorem readKind_eq_ok_iff {sections : List (List Char)} {kind : Kind} :
    readKind sections = .ok kind ↔ ∃ code rest, sections = code :: rest ∧ kindOf? code = some kind := by
  cases sections with
  | nil => exact ⟨nofun, nofun⟩
  | cons code rest =>
    unfold readKind
    dsimp only
    cases hk : kindOf? code with
    | none => simp [reject, hk]
    | some k => simp [hk]

inductive Remark where
  | rate (r : Float)
  | tags (ts : List String)
  | container (id : String)
  | timestamp (t : Nat)
  | external (data : String)

def Remark.mark : Remark → List Char
  | .rate _ => ['@']
  | .tags _ => ['#']
  | .container _ => ['c', ':']
  | .timestamp _ => ['T']
  | .external _ => ['e', ':']

inductive Tells : List Char → Remark → Prop where
  | rate {token : List Char} {r : Float} (number : read? token = some r) (low : 0.0 < r)
      (high : r ≤ 1.0) : Tells ('@' :: token) (.rate r)
  | tags {body : List Char} (none_empty : [] ∉ body.splitOn ',') :
      Tells ('#' :: body) (.tags ((body.splitOn ',').map String.ofList))
  | container (id : List Char) : Tells ('c' :: ':' :: id) (.container (String.ofList id))
  | timestamp {digits : List Char} {t : Nat} (nonempty : digits ≠ [])
      (digital : digits.all isDigit) (number : readInteger digits = .ok t) :
      Tells ('T' :: digits) (.timestamp t)
  | external (data : List Char) : Tells ('e' :: ':' :: data) (.external (String.ofList data))

namespace Extensions

def has (x : Extensions) : Remark → Bool
  | .rate _ => x.rate.isSome
  | .tags _ => x.tags.isSome
  | .container _ => x.container.isSome
  | .timestamp _ => x.timestamp.isSome
  | .external _ => x.external.isSome

def put (x : Extensions) : Remark → Extensions
  | .rate r => { x with rate := some r }
  | .tags ts => { x with tags := some ts }
  | .container id => { x with container := some id }
  | .timestamp t => { x with timestamp := some t }
  | .external data => { x with external := some data }

/-- A remark fills the field of its mark, and no other. -/
theorem has_put (x : Extensions) (e e' : Remark) :
    (x.put e).has e' = (decide (e.mark = e'.mark) || x.has e') := by
  cases e <;> cases e' <;> rfl

end Extensions

theorem tagList_eq_ok_iff {body : List Char} {ts : List String} :
    tagList body = .ok ts ↔ [] ∉ body.splitOn ',' ∧ ts = (body.splitOn ',').map String.ofList := by
  have hany : (body.splitOn ',').any List.isEmpty = true ↔ [] ∈ body.splitOn ',' := by simp
  unfold tagList
  by_cases h : [] ∈ body.splitOn ','
  · rw [if_pos (hany.mpr h)]
    exact ⟨nofun, fun h' => absurd h h'.1⟩
  · rw [if_neg (hany.not.mpr h)]
    exact ⟨fun h' => ⟨h, (Except.ok.inj h').symm⟩, fun h' => congrArg Except.ok h'.2.symm⟩

theorem readRate_eq_ok_iff {token : List Char} {r : Float} :
    readRate token = .ok r ↔ read? token = some r ∧ 0.0 < r ∧ r ≤ 1.0 := by
  unfold readRate
  cases read? token with
  | none => simp [reject]
  | some v =>
    dsimp only
    split
    · rename_i h
      simp only [Bool.and_eq_true, decide_eq_true_eq] at h
      constructor
      · rintro h'
        cases h'
        exact ⟨rfl, h⟩
      · rintro ⟨h', _⟩
        cases h'
        rfl
    · rename_i h
      simp only [Bool.and_eq_true, decide_eq_true_eq] at h
      constructor
      · nofun
      · rintro ⟨h', hr⟩
        cases h'
        exact absurd hr h

theorem readTimestamp_eq_ok_iff {token : List Char} {t : Nat} :
    readTimestamp token = .ok t ↔
      token ≠ [] ∧ token.all isDigit = true ∧ readInteger token = .ok t := by
  have hguard : (!token.isEmpty && token.all isDigit) = true ↔
      token ≠ [] ∧ token.all isDigit = true := by simp
  unfold readTimestamp integer
  by_cases h : token ≠ [] ∧ token.all isDigit = true
  · rw [if_pos (hguard.mpr h)]
    cases readInteger token with
    | error e => simp [Except.mapError]
    | ok n => simp [Except.mapError, h]
  · rw [if_neg (hguard.not.mpr h)]
    exact ⟨nofun, fun h' => absurd ⟨h'.1, h'.2.1⟩ h⟩

theorem tells_rate_iff {token : List Char} {e : Remark} :
    Tells ('@' :: token) e ↔ ∃ r, readRate token = .ok r ∧ e = .rate r := by
  constructor
  · intro h
    cases h with
    | rate number low high => exact ⟨_, readRate_eq_ok_iff.mpr ⟨number, low, high⟩, rfl⟩
  · rintro ⟨r, h, rfl⟩
    obtain ⟨number, low, high⟩ := readRate_eq_ok_iff.mp h
    exact .rate number low high

theorem tells_tags_iff {body : List Char} {e : Remark} :
    Tells ('#' :: body) e ↔ ∃ ts, tagList body = .ok ts ∧ e = .tags ts := by
  constructor
  · intro h
    cases h with
    | tags none_empty => exact ⟨_, tagList_eq_ok_iff.mpr ⟨none_empty, rfl⟩, rfl⟩
  · rintro ⟨ts, h, rfl⟩
    obtain ⟨none_empty, rfl⟩ := tagList_eq_ok_iff.mp h
    exact .tags none_empty

theorem tells_container_iff {id : List Char} {e : Remark} :
    Tells ('c' :: ':' :: id) e ↔
      ∃ s, (.ok (String.ofList id) : Except Trouble String) = .ok s ∧ e = .container s := by
  constructor
  · intro h
    cases h with
    | container => exact ⟨_, rfl, rfl⟩
  · rintro ⟨s, h, rfl⟩
    cases h
    exact .container id

theorem tells_timestamp_iff {digits : List Char} {e : Remark} :
    Tells ('T' :: digits) e ↔ ∃ t, readTimestamp digits = .ok t ∧ e = .timestamp t := by
  constructor
  · intro h
    cases h with
    | timestamp nonempty digital number => exact ⟨_, readTimestamp_eq_ok_iff.mpr ⟨nonempty, digital, number⟩, rfl⟩
  · rintro ⟨t, h, rfl⟩
    obtain ⟨nonempty, digital, number⟩ := readTimestamp_eq_ok_iff.mp h
    exact .timestamp nonempty digital number

theorem tells_external_iff {data : List Char} {e : Remark} :
    Tells ('e' :: ':' :: data) e ↔
      ∃ s, (.ok (String.ofList data) : Except Trouble String) = .ok s ∧ e = .external s := by
  constructor
  · intro h
    cases h with
    | external => exact ⟨_, rfl, rfl⟩
  · rintro ⟨s, h, rfl⟩
    cases h
    exact .external data

/-- A section is taken up if it holds a remark whose field is free. -/
theorem fill_eq_ok_iff {α : Type} {x y : Extensions} {body : List Char} {value : Except Trouble α}
    {remark : α → Remark} {field : Option α} {set : Option α → Extensions}
    (htells : ∀ e, Tells body e ↔ ∃ v, value = .ok v ∧ e = remark v)
    (hhas : ∀ v, x.has (remark v) = field.isSome) (hset : ∀ v, set (some v) = x.put (remark v)) :
    (fill field body value).map set = .ok y ↔
      ∃ e, Tells body e ∧ x.has e = false ∧ y = x.put e := by
  unfold fill
  constructor
  · intro h
    cases field with
    | some w => cases h
    | none =>
      cases value with
      | error t => cases h
      | ok v => exact ⟨remark v, (htells _).mpr ⟨v, rfl, rfl⟩, hhas v, (Except.ok.inj h).symm.trans (hset v)⟩
  · rintro ⟨e, he, hfree, rfl⟩
    obtain ⟨v, rfl, rfl⟩ := (htells e).mp he
    rw [hhas, Option.isSome_eq_false_iff, Option.isNone_iff_eq_none] at hfree
    rw [hfree, ← hset]
    rfl

theorem add_eq_ok_iff {x y : Extensions} {body : List Char} :
    x.add body = .ok y ↔ ∃ e, Tells body e ∧ x.has e = false ∧ y = x.put e := by
  unfold Extensions.add
  split
  · exact fill_eq_ok_iff (fun _ => tells_rate_iff) (fun _ => rfl) fun _ => rfl
  · exact fill_eq_ok_iff (fun _ => tells_tags_iff) (fun _ => rfl) fun _ => rfl
  · exact fill_eq_ok_iff (fun _ => tells_container_iff) (fun _ => rfl) fun _ => rfl
  · exact fill_eq_ok_iff (fun _ => tells_timestamp_iff) (fun _ => rfl) fun _ => rfl
  · exact fill_eq_ok_iff (fun _ => tells_external_iff) (fun _ => rfl) fun _ => rfl
  · rename_i hrate htags hcontainer htimestamp hexternal
    refine ⟨nofun, ?_⟩
    rintro ⟨e, htells, _⟩
    cases htells with
    | rate => exact absurd rfl (hrate _)
    | tags => exact absurd rfl (htags _)
    | container id => exact absurd rfl (hcontainer _)
    | timestamp => exact absurd rfl (htimestamp _)
    | external data => exact absurd rfl (hexternal _)

/-- Sections behind a kind are taken up when each holds a remark and no two remarks have one mark. -/
theorem foldlM_add_eq_ok_iff {x y : Extensions} {bodies : List (List Char)} :
    bodies.foldlM Extensions.add x = .ok y ↔
      ∃ es, List.Forall₂ Tells bodies es ∧ (es.map Remark.mark).Nodup ∧ (∀ e ∈ es, x.has e = false) ∧
        y = es.foldl Extensions.put x := by
  simp only [← Bool.not_eq_true]
  refine foldlM_put_eq_ok_iff (Extensions.has · · = true) (fun x body y => ?_) fun x e e' => ?_
  · simp only [add_eq_ok_iff, Bool.not_eq_true]
  · simp only [Extensions.has_put, Bool.or_eq_true, decide_eq_true_eq]

/-- After some remarks a field is filled if it was before or if one of them has its mark. -/
theorem has_foldl_put (x : Extensions) (es : List Remark) (e : Remark) :
    (es.foldl Extensions.put x).has e = false ↔ e.mark ∉ es.map Remark.mark ∧ x.has e = false := by
  induction es generalizing x with
  | nil => simp
  | cons e' es ih =>
    rw [List.foldl_cons, ih, Extensions.has_put, List.map_cons, List.mem_cons, not_or,
      Bool.or_eq_false_iff, decide_eq_false_iff_not, @eq_comm _ e'.mark]
    tauto

end Metric
end MetricCapture.Message
