import MetricCapture.Proofs.Message.Grammar
import MetricCapture.Proofs.Message.Notice
import MetricCapture.Proofs.Message.ServiceCheck
import MetricCapture.Proofs.Source.Payload
import MetricCapture.Statistics.Basic
/-! Contexts: the keys that contexts are counted by are the same for messages of one name with the
same tags, and for no other messages of lines. -/
namespace MetricCapture
open MetricCapture.Text

namespace Message

structure SameContext (m m' : Message) : Prop where
  name : m.name = m'.name
  tags : ∀ tag, tag ∈ m.tags ↔ tag ∈ m'.tags

def Unbroken (m : Message) : Prop := ∀ part ∈ m.name :: m.tags, '\n' ∉ part.toList

/-- A metric is read from a text as a metric, since the other forms give other kinds. -/
theorem parse_of_isMetric {text : List Char} {m : Message} (h : parseTrimmed text = .ok m)
    (hm : m.kind.isMetric = true) : Metric.parse text = .ok m := by
  unfold parseTrimmed at h
  split at h
  · rename_i begun
    obtain ⟨-, -, -, -, -, -, -, -, message_eq⟩ :=
      (ServiceCheck.parse_eq_ok_iff (List.isPrefixOf_iff_prefix.mp begun)).mp h
    rw [message_eq] at hm
    cases hm
  · split at h
    · rename_i begun
      obtain ⟨-, -, -, message_eq⟩ :=
        (Notice.parse_eq_ok_iff (List.isPrefixOf_iff_prefix.mp begun)).mp h
      rw [message_eq] at hm
      cases hm
    · exact h

/-- What is read from a line breaks no line. -/
theorem unbroken_of_ofLine {line : String} {m : Message} (h : Reading.ofLine line = .ok (.message m))
    (hm : m.kind.isMetric = true) (hline : '\n' ∉ line.toList) : m.Unbroken := fun _ hpart hc =>
  hline (mem_trimEnd
    (Metric.mem_text_of_mem_part (parse_of_isMetric (parseTrimmed_of_ofLine h) hm) hpart hc))

end Message

def ascending (tags : List String) : List String :=
  tags.eraseDups.mergeSort fun a b => !(b < a)

private theorem nodup_eraseDups (tags : List String) : tags.eraseDups.Nodup := by
  induction hn : tags.length using Nat.strongRecOn generalizing tags with
  | ind n ih =>
    cases tags with
    | nil => simp
    | cons tag tags =>
      have hlt : (tags.filter fun t => !t == tag).length < n := by
        have := List.length_filter_le (fun t => !t == tag) tags
        simp only [List.length_cons] at hn
        omega
      rw [List.eraseDups_cons]
      exact List.nodup_cons.mpr ⟨by simp, ih _ hlt _ rfl⟩

theorem mem_ascending {tags : List String} {tag : String} : tag ∈ ascending tags ↔ tag ∈ tags := by
  rw [ascending, List.mem_mergeSort, List.mem_eraseDups]

/-- The order is told by which tags there are, not by how they stand. -/
theorem ascending_eq_iff {tags others : List String} :
    ascending tags = ascending others ↔ ∀ tag, tag ∈ tags ↔ tag ∈ others := by
  constructor
  · intro h tag
    rw [← mem_ascending, h, mem_ascending]
  · intro h
    have hsorted : ∀ ts, (ascending ts).Pairwise fun a b => a ≤ b := fun ts =>
      (List.pairwise_mergeSort (by grind) (by grind) ts.eraseDups).imp fun h => by
        simpa only [Bool.not_eq_true', decide_eq_false_iff_not, String.not_lt] using h
    refine List.Perm.eq_of_pairwise (fun a b _ _ => String.le_antisymm) (hsorted tags) (hsorted others) ?_
    refine (List.mergeSort_perm _ _).trans (.trans ?_ (List.mergeSort_perm _ _).symm)
    rw [List.perm_ext_iff_of_nodup (nodup_eraseDups tags) (nodup_eraseDups others)]
    simpa [List.mem_eraseDups] using h

/-- Texts of a line each, put below one another, are told apart by their lines. -/
theorem intercalate_newline_inj {part part' : String} {parts parts' : List String}
    (h : ∀ p ∈ part :: parts, '\n' ∉ p.toList) (h' : ∀ p ∈ part' :: parts', '\n' ∉ p.toList) :
    "\n".intercalate (part :: parts) = "\n".intercalate (part' :: parts') ↔
      part = part' ∧ parts = parts' := by
  have hlines : ∀ {p : String} {ps : List String}, (∀ q ∈ p :: ps, '\n' ∉ q.toList) →
      ("\n".intercalate (p :: ps)).toList.splitOn '\n' = (p :: ps).map String.toList := by
    intro p ps hps
    rw [String.toList_intercalate]
    exact List.splitOn_intercalate '\n' (List.forall_mem_map.mpr hps) (List.cons_ne_nil _ _)
  constructor
  · intro he
    have hmap := hlines h
    rw [he, hlines h'] at hmap
    obtain ⟨hpart, hrest⟩ := List.cons.inj hmap
    exact ⟨String.toList_inj.mp hpart.symm,
      (List.map_inj_right fun _ _ => String.toList_inj.mp).mp hrest.symm⟩
  · rintro ⟨rfl, rfl⟩
    rfl

namespace Statistics

theorem contextKey_eq (m : Message) :
    contextKey m = Utf8.ofString ("\n".intercalate (m.name :: ascending m.tags)) := rfl

/-- Messages of one context have one key. -/
theorem contextKey_of_sameContext {m m' : Message} (h : m.SameContext m') :
    contextKey m = contextKey m' := by
  rw [contextKey_eq, contextKey_eq, h.name, ascending_eq_iff.mpr h.tags]

/-- The key tells the context, where no part of one takes more than a line. -/
theorem contextKey_eq_iff {m m' : Message} (h : m.Unbroken) (h' : m'.Unbroken) :
    contextKey m = contextKey m' ↔ m.SameContext m' := by
  refine ⟨fun hkey => ?_, contextKey_of_sameContext⟩
  have hparts : ∀ {m : Message}, m.Unbroken → ∀ p ∈ m.name :: ascending m.tags, '\n' ∉ p.toList := by
    intro m hm p hp
    refine hm p (List.mem_cons.mpr ?_)
    simpa only [List.mem_cons, mem_ascending] using hp
  rw [contextKey_eq, contextKey_eq, Utf8.ofString_inj,
    intercalate_newline_inj (hparts h) (hparts h')] at hkey
  exact ⟨hkey.1, ascending_eq_iff.mp hkey.2⟩

/-- Metrics read from lines, whatever bytes the lines were cut from, have one key exactly if they have
one name and the same tags. -/
theorem contextKey_eq_iff_of_lines {policy policy' : Settings.TextPolicy}
    {chunks chunks' : Delivery Bytes} {line line' : String} {m m' : Message}
    (hline : line ∈ (Lines.ofChunks policy chunks).delivery.items)
    (hline' : line' ∈ (Lines.ofChunks policy' chunks').delivery.items)
    (h : Reading.ofLine line = .ok (.message m)) (h' : Reading.ofLine line' = .ok (.message m'))
    (hm : m.kind.isMetric = true) (hm' : m'.kind.isMetric = true) :
    contextKey m = contextKey m' ↔
      m.name = m'.name ∧ ∀ tag, tag ∈ m.tags ↔ tag ∈ m'.tags := by
  have hun := Message.unbroken_of_ofLine h hm (Lines.not_mem_delivery hline)
  have hun' := Message.unbroken_of_ofLine h' hm' (Lines.not_mem_delivery hline')
  rw [contextKey_eq_iff hun hun']
  exact ⟨fun hs => ⟨hs.name, hs.tags⟩, fun hs => ⟨hs.1, hs.2⟩⟩

def sampleChunks : Delivery Bytes :=
  ⟨[[97, 58, 49, 124, 103, 124, 35, 195], [169, 44, 120, 44, 120, 13, 10] ++
    Utf8.ofString "a:2|c|#x,é\n"], none⟩

theorem contextKey_eq_iff_of_lines_sample : ∃ m m',
    Reading.ofLine "a:1|g|#é,x,x" = .ok (.message m) ∧
      Reading.ofLine "a:2|c|#x,é" = .ok (.message m') ∧ m.tags ≠ m'.tags ∧
        contextKey m = contextKey m' := by
  have hitems : (Lines.ofChunks .refuse sampleChunks).delivery.items = ["a:1|g|#é,x,x", "a:2|c|#x,é"] := by
    decide +kernel
  obtain ⟨m, hm, hname, hkind, htags⟩ : ∃ m, Reading.ofLine "a:1|g|#é,x,x" = .ok (.message m) ∧
      m.name = "a" ∧ m.kind = .gauge ∧ m.tags = ["é", "x", "x"] := ⟨_, rfl, rfl, rfl, rfl⟩
  obtain ⟨m', hm', hname', hkind', htags'⟩ : ∃ m, Reading.ofLine "a:2|c|#x,é" = .ok (.message m) ∧
      m.name = "a" ∧ m.kind = .count ∧ m.tags = ["x", "é"] := ⟨_, rfl, rfl, rfl, rfl⟩
  refine ⟨m, m', hm, hm', by rw [htags, htags']; decide, ?_⟩
  refine (contextKey_eq_iff_of_lines (hitems ▸ List.mem_cons_self)
    (hitems ▸ List.mem_cons_of_mem _ List.mem_cons_self) hm hm' (hkind ▸ rfl) (hkind' ▸ rfl)).mpr ?_
  rw [hname, hname', htags, htags']
  exact ⟨rfl, fun tag => by simp only [List.mem_cons, List.not_mem_nil, or_false]; tauto⟩

end Statistics
end MetricCapture
