import MetricCapture.Proofs.Message.Grammar
import MetricCapture.Proofs.Number.Whole
/-! The size of messages: no part of one is much longer than its line, and its values are finite. -/
namespace MetricCapture
open MetricCapture.Text MetricCapture.Number

namespace Message

structure TagsWithin (n : Nat) (tags : List String) : Prop where
  count : tags.length ≤ n
  each : ∀ tag ∈ tags, tag.length ≤ n

structure Within (n : Nat) (m : Message) : Prop where
  name : m.name.length ≤ n
  values : m.values.length ≤ n
  finite : ∀ x ∈ m.values, isFinite x = true
  tags : TagsWithin n m.tags

variable {n k : Nat}

theorem TagsWithin.mono {tags : List String} (h : TagsWithin n tags) (hle : n ≤ k) :
    TagsWithin k tags :=
  ⟨Nat.le_trans h.count hle, fun tag htag => Nat.le_trans (h.each tag htag) hle⟩

theorem Within.mono {m : Message} (h : m.Within n) (hle : n ≤ k) : m.Within k :=
  ⟨Nat.le_trans h.name hle, Nat.le_trans h.values hle, h.finite, h.tags.mono hle⟩

theorem tagsWithin_nil (n : Nat) : TagsWithin n [] :=
  ⟨Nat.zero_le n, nofun⟩

theorem tagsWithin_splitOn (body : List Char) :
    TagsWithin (body.length + 1) ((body.splitOn ',').map String.ofList) := by
  obtain ⟨hcount, heach⟩ := splitOn_bounds ',' body
  refine ⟨by rwa [List.length_map], List.forall_mem_map.mpr fun tag htag => ?_⟩
  rw [String.length_ofList]
  exact Nat.le_succ_of_le (heach tag htag)

/-- Annotations have tags only from one of their sections. -/
theorem tagsWithin_annotations {allowed : List (List Char)} {subject : String}
    {sections : List (List Char)} {notes : Annotations}
    (h : annotations allowed subject sections = .ok notes) (hn : ∀ s ∈ sections, s.length ≤ n) :
    TagsWithin (n + 1) notes.tags := by
  refine foldlM_induction (P := fun a : Annotations => TagsWithin (n + 1) a.tags) ?_
    (tagsWithin_nil _) h
  intro body hbody a a' ha hadd
  unfold Annotations.add at hadd
  dsimp only at hadd
  split at hadd
  · cases hadd
  split at hadd
  · obtain ⟨tags, htags, hadd⟩ := bind_eq_ok_iff.mp hadd
    obtain ⟨_, rfl⟩ := Metric.tagList_eq_ok_iff.mp htags
    cases hadd
    have hlength := hn body hbody
    refine (tagsWithin_splitOn (body.drop 1)).mono ?_
    rw [List.length_drop]
    omega
  · cases hadd
    exact ha

theorem Metric.Bears.tagsWithin {m : Message} {sections : List (List Char)} {remarks : List Remark}
    (h : Bears m remarks) (told : List.Forall₂ Tells sections remarks)
    (hn : ∀ s ∈ sections, s.length ≤ n) : TagsWithin n m.tags := by
  by_cases hne : m.tags = []
  · rw [hne]
    exact tagsWithin_nil n
  · obtain ⟨body, hbody, htells⟩ := exists_of_mem_forall₂ told ((h.tags _ hne).mp rfl)
    have hlength := hn body hbody
    generalize hremark : Remark.tags m.tags = remark at htells
    cases htells with
    | tags none_empty =>
      rw [Remark.tags.inj hremark]
      exact (tagsWithin_splitOn _).mono hlength
    | _ => cases hremark

theorem Metric.within_parse {text : List Char} {m : Message} (h : parse text = .ok m) :
    m.Within (text.length + 1) := by
  obtain ⟨htext, -, plain, name_eq, -, values, kind_eq, parted, told, -, bears⟩ := parse_eq_ok_iff.mp h
  rename_i name code tokens sections remarks
  obtain ⟨hsplit, hnames⟩ := Written.splitOn plain values kind_eq parted
  have hsections := (splitOn_bounds '|' text).2
  rw [htext, hsplit, ← htext] at hsections
  obtain ⟨hhead, hsections⟩ := List.forall_mem_cons.mp hsections
  obtain ⟨hcount, hparts⟩ := splitOn_bounds ':' ([':'].intercalate (name :: tokens))
  rw [hnames] at hcount hparts
  have hname := hparts name List.mem_cons_self
  refine ⟨?_, ?_, fun x hx => ?_, ?_⟩
  · rw [name_eq, String.length_ofList]
    omega
  · rw [← values.length_eq]
    rw [List.length_cons] at hcount
    omega
  · obtain ⟨token, _, hread⟩ := exists_of_mem_forall₂ values hx
    exact isFinite_of_read? hread
  · refine (bears.tagsWithin told fun s hs => ?_).mono (Nat.le_succ _)
    exact hsections s (List.mem_cons_of_mem code hs)

theorem ServiceCheck.isFinite_readStatus {status : List Char} {x : Float}
    (h : readStatus status = .ok x) : isFinite x = true := by
  unfold readStatus at h
  dsimp only at h
  split at h
  · obtain ⟨k, _, h⟩ := bind_eq_ok_iff.mp h
    split at h
    · cases h
      exact (isFinite_iff _).mpr (ofNat_exact (by omega)).1
    · cases h
  · cases h

theorem ServiceCheck.within_parse {text : List Char} {m : Message} (h : parse text = .ok m) :
    m.Within (text.length + 1) := by
  have hsections := (splitOn_bounds '|' text).2
  have hget : ∀ i, ((text.splitOn '|').getD i []).length ≤ text.length := by
    intro i
    rw [List.getD_eq_getElem?_getD]
    cases hi : (text.splitOn '|')[i]? with
    | none => exact Nat.zero_le _
    | some s => exact hsections s (List.mem_of_getElem? hi)
  unfold parse at h
  dsimp only at h
  split at h
  · cases h
  split at h
  · cases h
  obtain ⟨x, hx, h⟩ := bind_eq_ok_iff.mp h
  obtain ⟨notes, hnotes, h⟩ := bind_eq_ok_iff.mp h
  cases h
  refine ⟨?_, Nat.le_add_left 1 _, ?_, tagsWithin_annotations hnotes fun s hs => ?_⟩
  · rw [String.length_ofList]
    exact Nat.le_succ_of_le (hget 1)
  · exact List.forall_mem_singleton.mpr (isFinite_readStatus hx)
  · exact hsections s (List.mem_of_mem_drop ((List.takeWhile_sublist _).mem hs))

theorem Notice.length_split {titleLength textLength : Nat} {body : List UInt8}
    {title trailer : List Char} (h : split titleLength textLength body = .ok (title, trailer)) :
    title.length ≤ body.length ∧ trailer.length ≤ body.length := by
  unfold split at h
  dsimp only at h
  split at h
  · cases h
  split at h
  · cases h
  split at h
  · cases h
  split at h
  · rename_i t trailer' ht htrailer
    cases h
    have htitle := Utf8.length_decode_le ht
    have htrailer := Utf8.length_decode_le htrailer
    simp only [List.length_take, List.length_drop] at htitle htrailer
    omega
  · cases h

theorem Notice.length_splitHeader? {text title body after : List Char}
    (h : splitHeader? text = some (title, body, after)) : after.length ≤ text.length := by
  unfold splitHeader? at h
  dsimp only at h
  split at h
  · rename_i rest hrest
    split at h
    · rename_i after' hafter
      split at h
      · cases h
      · cases h
        have hle := (List.dropWhile_sublist isDecimal (l := text.drop opening.length)).length_le
        have hle' := (List.dropWhile_sublist isDecimal (l := rest)).length_le
        rw [hrest, List.length_cons, List.length_drop] at hle
        rw [hafter, List.length_cons, List.length_cons] at hle'
        omega
    · cases h
  · cases h

theorem Notice.within_parse {text : List Char} {m : Message} (h : parse text = .ok m) :
    m.Within (4 * text.length + 1) := by
  unfold parse at h
  split at h
  · cases h
  rename_i titleDigits textDigits after hheader
  obtain ⟨titleLength, _, h⟩ := bind_eq_ok_iff.mp h
  obtain ⟨textLength, _, h⟩ := bind_eq_ok_iff.mp h
  obtain ⟨⟨title, trailer⟩, hparts, h⟩ := bind_eq_ok_iff.mp h
  obtain ⟨notes, hnotes, h⟩ := bind_eq_ok_iff.mp h
  cases h
  have hafter : after.length ≤ text.length := length_splitHeader? hheader
  have hbytes := Utf8.length_encode_le after
  obtain ⟨htitle, htrailer⟩ := length_split hparts
  refine ⟨?_, Nat.le_add_left 1 _, ?_, ?_⟩
  · rw [String.length_ofList]
    omega
  · exact List.forall_mem_singleton.mpr (by decide +kernel)
  · refine tagsWithin_annotations hnotes fun s hs => ?_
    unfold trailerSections at hs
    split at hs
    · cases hs
    · have hlength := (splitOn_bounds '|' trailer).2 s hs
      omega

theorem within_parseTrimmed {text : List Char} {m : Message} (h : parseTrimmed text = .ok m) :
    m.Within (4 * text.length + 1) := by
  unfold parseTrimmed at h
  split at h
  · exact (ServiceCheck.within_parse h).mono (by omega)
  split at h
  · exact Notice.within_parse h
  · exact (Metric.within_parse h).mono (by omega)

end Message
end MetricCapture
