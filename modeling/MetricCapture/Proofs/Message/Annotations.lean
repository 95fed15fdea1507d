import MetricCapture.Proofs.Message.Metric
/-! Annotations: which sections behind a service check or an event are read, and which tags they give.
Main statement: some sections have tags exactly if each of them holds an annotation and no two hold one
of the same kind. -/
namespace MetricCapture.Message
open MetricCapture.Text

/-- What a section says of a service check or an event: its tags, or something of another kind, which
is not kept. -/
inductive Label where
  | tags (ts : List String)
  | other (key : List Char)

def Label.key : Label → List Char
  | .tags _ => ['#']
  | .other key => key

/-- A section holds an annotation: tags behind their mark, none of them empty, or whatever text behind
one of the keys allowed. -/
inductive Annotates (allowed : List (List Char)) : List Char → Label → Prop where
  | tags {body : List Char} (none_empty : [] ∉ body.splitOn ',') :
      Annotates allowed ('#' :: body) (.tags ((body.splitOn ',').map String.ofList))
  | other {key : List Char} (known : key ∈ allowed) (text : List Char) :
      Annotates allowed (key ++ text) (.other key)

/-- Sections that each hold an annotation, no two of one kind. The tags are those of the section that
holds tags, or none. -/
inductive Annotated (allowed sections : List (List Char)) (tags : List String) : Prop where
  | intro {annotations : List Label}
      (told : List.Forall₂ (Annotates allowed) sections annotations)
      (once : (annotations.map Label.key).Nodup)
      (tagged : ∀ ts, .tags ts ∈ annotations → tags = ts)
      (untagged : (∀ ts, .tags ts ∉ annotations) → tags = [])

def Keyed (allowed : List (List Char)) : Prop :=
  ∀ key ∈ allowed, key.length = 2 ∧ key.head? ≠ some '#'

def Annotations.put (a : Annotations) : Label → Annotations
  | .tags ts => ⟨['#'] :: a.seen, ts⟩
  | .other key => { a with seen := key :: a.seen }

theorem Annotations.mem_seen_put (a : Annotations) (e e' : Label) :
    e'.key ∈ (a.put e).seen ↔ e.key = e'.key ∨ e'.key ∈ a.seen := by
  cases e <;> simp [put, Label.key, eq_comm]

theorem annotationKey_of_ne {body : List Char} (h : body.head? ≠ some '#') :
    annotationKey body = body.take 2 := by
  unfold annotationKey
  split
  · exact absurd rfl h
  · rfl

/-- Tags are replaced by those of a further annotation only. -/
theorem Annotations.tags_foldl_put_of_untagged {es : List Label} (h : ∀ ts, .tags ts ∉ es)
    (a : Annotations) : (es.foldl put a).tags = a.tags := by
  induction es generalizing a with
  | nil => rfl
  | cons e es ih =>
    rw [List.foldl_cons, ih fun ts hts => h ts (List.mem_cons_of_mem e hts)]
    cases e with
    | tags ts => exact absurd List.mem_cons_self (h ts)
    | other key => rfl

theorem Annotations.tags_foldl_put_of_tagged {es : List Label} {ts : List String}
    (once : (es.map Label.key).Nodup) (h : .tags ts ∈ es) (a : Annotations) :
    (es.foldl put a).tags = ts := by
  induction es generalizing a with
  | nil => exact absurd h List.not_mem_nil
  | cons e es ih =>
    obtain ⟨hkey, once⟩ := List.nodup_cons.mp once
    rw [List.foldl_cons]
    rcases List.mem_cons.mp h with rfl | h
    · exact tags_foldl_put_of_untagged (fun ts' hts' => hkey (List.mem_map.mpr ⟨_, hts', rfl⟩)) _
    · exact ih once h _

theorem annotated_nil_iff {allowed : List (List Char)} {tags : List String} :
    Annotated allowed [] tags ↔ tags = [] := by
  constructor
  · rintro ⟨told, once, _, untagged⟩
    cases told
    exact untagged fun _ => List.not_mem_nil
  · rintro rfl
    exact ⟨.nil, List.nodup_nil, fun _ => nofun, fun _ => rfl⟩

section

variable {allowed : List (List Char)} (keyed : Keyed allowed)

include keyed

theorem Annotates.key_eq {body : List Char} {e : Label} (h : Annotates allowed body e) :
    annotationKey body = e.key := by
  cases h with
  | tags => rfl
  | @other key known text =>
    obtain ⟨hlength, hmark⟩ := keyed key known
    have hne : key ≠ [] := by
      rintro rfl
      cases hlength
    rw [annotationKey_of_ne, List.take_left' hlength]
    · rfl
    · rwa [List.head?_append_of_ne_nil _ hne]

theorem annotates_iff {body : List Char} {e : Label} :
    Annotates allowed body e ↔
      if annotationKey body = ['#'] then ∃ ts, tagList (body.drop 1) = .ok ts ∧ e = .tags ts
      else annotationKey body ∈ allowed ∧ e = .other (annotationKey body) := by
  constructor
  · intro h
    rw [h.key_eq keyed]
    cases h with
    | tags none_empty => exact ⟨_, Metric.tagList_eq_ok_iff.mpr ⟨none_empty, rfl⟩, rfl⟩
    | @other key known =>
      have hne : key ≠ ['#'] := by
        rintro rfl
        exact absurd (keyed _ known).1 (by decide)
      rw [Label.key, if_neg hne]
      exact ⟨known, rfl⟩
  · by_cases hmark : body.head? = some '#'
    · obtain ⟨body, rfl⟩ := List.head?_eq_some_iff.mp hmark
      rw [annotationKey, if_pos rfl]
      rintro ⟨ts, hts, rfl⟩
      obtain ⟨none_empty, rfl⟩ := Metric.tagList_eq_ok_iff.mp hts
      exact .tags none_empty
    · have hne : body.take 2 ≠ ['#'] := by
        intro h
        refine hmark ?_
        have hhead : (body.take 2).head? = body.head? := by rw [List.head?_take, if_neg (by decide)]
        rw [← hhead, h]
        rfl
      rw [annotationKey_of_ne hmark, if_neg hne]
      rintro ⟨known, rfl⟩
      have h := Annotates.other known (body.drop 2)
      rwa [List.take_append_drop] at h

/-- No annotation is written by nothing. -/
theorem not_annotates_nil (e : Label) : ¬ Annotates allowed [] e := by
  rw [annotates_iff keyed]
  rintro ⟨known, _⟩
  exact absurd (keyed _ known).1 (by decide)

theorem add_eq_ok_iff {subject : String} {a b : Annotations} {body : List Char} :
    a.add allowed subject body = .ok b ↔
      ∃ e, Annotates allowed body e ∧ e.key ∉ a.seen ∧ b = a.put e := by
  have hkey : (∃ e, Annotates allowed body e ∧ e.key ∉ a.seen ∧ b = a.put e) ↔
      annotationKey body ∉ a.seen ∧ ∃ e, Annotates allowed body e ∧ b = a.put e := by
    constructor
    · rintro ⟨e, he, hnew, rfl⟩
      exact ⟨he.key_eq keyed ▸ hnew, e, he, rfl⟩
    · rintro ⟨hnew, e, he, rfl⟩
      exact ⟨e, he, he.key_eq keyed ▸ hnew, rfl⟩
  rw [hkey]
  simp only [annotates_iff keyed]
  unfold Annotations.add
  dsimp only
  by_cases hseen : annotationKey body ∈ a.seen
  · simp [hseen, reject]
  · by_cases hmark : annotationKey body = ['#']
    · simp only [hmark] at hseen ⊢
      simp only [List.contains_eq_mem, hseen]
      cases tagList (body.drop 1) <;> simp [bind, Except.bind, pure, Except.pure, Annotations.put, eq_comm]
    · by_cases hknown : annotationKey body ∈ allowed
      · simp [hseen, hmark, hknown, pure, Except.pure, Annotations.put, eq_comm]
      · simp [hseen, hmark, hknown, reject]

theorem annotations_eq_ok_iff {subject : String} {sections : List (List Char)} {a : Annotations} :
    annotations allowed subject sections = .ok a ↔
      ∃ es, List.Forall₂ (Annotates allowed) sections es ∧ (es.map Label.key).Nodup ∧
        a = es.foldl Annotations.put {} := by
  have hfree : ∀ e : Label, e.key ∉ ({} : Annotations).seen := fun _ => List.not_mem_nil
  refine (foldlM_put_eq_ok_iff (fun a e => Label.key e ∈ a.seen) (fun _ _ _ => add_eq_ok_iff keyed)
    Annotations.mem_seen_put).trans ?_
  simp only [hfree, not_false_eq_true, implies_true, true_and]

/-- Sections are read as annotations when they are annotated, with the tags that they then have. -/
theorem exists_annotations_iff {subject : String} {sections : List (List Char)} {tags : List String} :
    (∃ a, annotations allowed subject sections = .ok a ∧ a.tags = tags) ↔
      Annotated allowed sections tags := by
  simp only [annotations_eq_ok_iff keyed]
  constructor
  · rintro ⟨_, ⟨es, told, once, rfl⟩, rfl⟩
    exact ⟨told, once, fun ts hts => Annotations.tags_foldl_put_of_tagged once hts {},
      fun hno => Annotations.tags_foldl_put_of_untagged hno {}⟩
  · rintro ⟨told, once, tagged, untagged⟩
    rename_i es
    refine ⟨_, ⟨es, told, once, rfl⟩, ?_⟩
    by_cases h : ∃ ts, .tags ts ∈ es
    · obtain ⟨ts, hts⟩ := h
      rw [tagged ts hts, Annotations.tags_foldl_put_of_tagged once hts]
    · rw [not_exists] at h
      rw [untagged h, Annotations.tags_foldl_put_of_untagged h]

/-- Other sections are refused for their form. -/
theorem refused_annotations_iff {subject : String} {sections : List (List Char)} {reason : Reason} :
    Refused (annotations allowed subject sections) reason ↔
      reason = .malformedTagSection ∧ ∀ tags, ¬ Annotated allowed sections tags := by
  cases h : annotations allowed subject sections with
  | ok a =>
    refine iff_of_false (not_refused_ok a reason) ?_
    rintro ⟨_, hno⟩
    exact hno a.tags ((exists_annotations_iff keyed).mp ⟨a, h, rfl⟩)
  | error t =>
    have hform : BreaksWith (fun t => ∃ detail, t = .defect ⟨.malformedTagSection, detail⟩)
        (annotations allowed subject sections) :=
      breaksWith_annotations (fun d _ => ⟨d, rfl⟩) (fun _ => ⟨_, rfl⟩) _ _
    obtain ⟨detail, rfl⟩ := hform t h
    constructor
    · rintro ⟨_, h'⟩
      cases h'
      refine ⟨rfl, fun tags hno => ?_⟩
      obtain ⟨a, ha, _⟩ : ∃ a, annotations allowed subject sections = .ok a ∧ a.tags = tags :=
        (exists_annotations_iff keyed).mpr hno
      cases h.symm.trans ha
    · rintro ⟨rfl, _⟩
      exact ⟨detail, rfl⟩

end

end MetricCapture.Message
