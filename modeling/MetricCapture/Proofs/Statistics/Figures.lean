import MetricCapture.Proofs.Sketch.Counts
import MetricCapture.Proofs.Statistics.Merge
/-! Figures: the counters of statistics, and the counts and sums of their sketches. Taking something in
adds its ledger to them whatever becomes of the bins, unless it is broken off. -/
namespace MetricCapture

namespace Statistics

/-- What the counters of statistics, and the counts and sums of their sketches, are after they have been
told a ledger. -/
structure Tallied (l : Ledger) (s : Statistics) : Prop where
  reasons : Reason.emptyLine ∉ l.reasons
  total : s.total = l.kinds.length + l.reasons.length
  valid : s.valid = l.kinds.length
  failed : s.failed = l.reasons.length
  byKind : s.byKind = Tally.ofItems Kind.all l.kinds
  byReason : s.byReason = Tally.ofItems Reason.counted l.reasons
  distributions : ∀ a, (s.distributions.get a).Counts (l.samples a)
  multivalue : s.multivalue = l.multivalue
  fractional : s.fractional = l.fractional
  sampled : s.sampled = l.sampled

/-- A step that adds a ledger to whatever statistics have been told, if it is not broken off. -/
def Change.Adds (c : Change) (m : Ledger) : Prop :=
  ∀ l s, s.Tallied l → (c s).error = none → (c s).value.Tallied (l ++ m)

variable {l m : Ledger} {s t : Statistics}

/-- Steps add a ledger each, one after the other. -/
theorem adds_inTurn {cs : List Change} {ms : List Ledger} (h : List.Forall₂ Change.Adds cs ms) :
    (inTurn cs).Adds (.all ms) := by
  induction h with
  | nil =>
    intro l s hs _
    change s.Tallied (l ++ ({} : Ledger))
    rw [Ledger.append_empty]
    exact hs
  | @cons c m cs ms hc _ ih =>
    intro l s hs hok
    have hcons : inTurn (c :: cs) s = (c s).andThen (inTurn cs) := Outcome.sequence_cons s c cs
    rw [hcons] at hok ⊢
    obtain ⟨hfirst, hrest⟩ := (Outcome.error_andThen _ _).mp hok
    change ((c s).andThen (inTurn cs)).value.Tallied (l ++ (m ++ .all ms))
    rw [Outcome.andThen_of_none hfirst, ← Ledger.append_assoc]
    exact ih _ _ (hc l s hs hfirst) hrest

/-- Kinds and reasons are counted. -/
theorem Tallied.withKinds (h : s.Tallied l) (ks : List Kind) (rs : List Reason)
    (hr : Reason.emptyLine ∉ rs) :
    Tallied (l ++ { kinds := ks, reasons := rs })
      { s with
        total := s.total + (ks.length + rs.length)
        valid := s.valid + ks.length
        failed := s.failed + rs.length
        byKind := Tally.ofItems Kind.all (l.kinds ++ ks)
        byReason := Tally.ofItems Reason.counted (l.reasons ++ rs) } := by
  rw [Ledger.append_ofKinds]
  refine { h with reasons := ?_, total := ?_, valid := ?_, failed := ?_, byKind := rfl, byReason := rfl }
  · exact fun h' => (List.mem_append.mp h').elim h.reasons hr
  · simp [h.total]
    omega
  · simp [h.valid]
  · simp [h.failed]

/-- Numbers of messages and values are added up. -/
theorem Tallied.withCounts (h : s.Tallied l) (i j k : Nat) :
    Tallied (l ++ { multivalue := i, fractional := j, sampled := k })
      { s with
        multivalue := s.multivalue + i
        fractional := s.fractional + j
        sampled := s.sampled + k } := by
  rw [Ledger.append_ofCounts]
  exact
    { h with
      multivalue := congrArg (· + i) h.multivalue
      fractional := congrArg (· + j) h.fractional
      sampled := congrArg (· + k) h.sampled }

/-- Another sketch for one attribute takes in samples of that attribute. -/
theorem Tallied.withSketch (h : s.Tallied l) {a : Attribute} {xs : List Float} {sketch : Sketch}
    (hs : sketch.Counts (l.samples a ++ xs)) :
    Tallied (l ++ .single a xs) { s with distributions := s.distributions.set a sketch } := by
  unfold Ledger.single
  rw [Ledger.append_ofSamples]
  refine { h with distributions := fun b => ?_ }
  rw [Distributions.get_set]
  by_cases hb : b = a
  · subst hb
    simpa using hs
  · simpa [hb] using h.distributions b

/-- The registers do not show in the figures. -/
theorem Tallied.withItems (h : s.Tallied l) (cs ts : List Bytes) (c t : Registers) :
    Tallied (l ++ { contexts := cs, tags := ts }) { s with contexts := c, tags := t } := by
  rw [Ledger.append_ofItems]
  exact { h with }

theorem adds_always {change : Statistics → Statistics}
    (h : ∀ l s, s.Tallied l → (change s).Tallied (l ++ m)) : (always change).Adds m :=
  fun l s hs _ => h l s hs

theorem adds_record (a : Attribute) (x : Float) : (record a x).Adds (.single a [x]) := by
  intro l s h hok
  unfold record at hok ⊢
  cases hadd : (s.distributions.get a).add x with
  | error e =>
    rw [hadd] at hok
    cases hok
  | ok sketch => exact h.withSketch ((h.distributions a).add hadd)

theorem adds_mergeAttribute (d : Distributions) (a : Attribute) {xs : List Float}
    (hd : (d.get a).Counts xs) : (mergeAttribute d a).Adds (.single a xs) := by
  intro l s h hok
  rcases mergeAttribute_cases d a s with ⟨u, hu, he⟩ | ⟨e, _, he⟩
  all_goals rw [he] at hok ⊢
  · exact h.withSketch ((h.distributions a).merge hd hu)
  · cases hok

theorem adds_kind (k : Kind) :
    (always fun s =>
      { s with total := s.total + 1, valid := s.valid + 1, byKind := s.byKind.bump k }).Adds
      { kinds := [k] } := by
  apply adds_always
  intro l s h
  have hkinds := h.withKinds [k] [] List.not_mem_nil
  have hbump : s.byKind.bump k = Tally.ofItems Kind.all (l.kinds ++ [k]) := by
    rw [h.byKind, Tally.bump_ofItems]
    exact Tally.ofItems_perm _ (List.perm_append_singleton _ _).symm
  rw [List.append_nil, ← h.byReason, ← hbump] at hkinds
  exact hkinds

theorem adds_counts (p q : Prop) [Decidable p] [Decidable q] :
    (always fun s =>
      { s with
        multivalue := if p then s.multivalue + 1 else s.multivalue
        sampled := if q then s.sampled + 1 else s.sampled }).Adds
      { multivalue := if p then 1 else 0, sampled := if q then 1 else 0 } := by
  apply adds_always
  intro l s h
  have hcounts := h.withCounts (if p then 1 else 0) 0 (if q then 1 else 0)
  by_cases hp : p <;> by_cases hq : q <;> simpa [hp, hq] using hcounts

/-- Every step that takes in a message adds its ledger. -/
theorem stepwise_adds : Stepwise Change.Adds where
  kind m := adds_kind m.kind
  sample := adds_record
  counts m := adds_counts _ _
  fraction x := by
    refine adds_always fun l s h => ?_
    have hcounts := h.withCounts 0 (if Number.isIntegral x then 0 else 1) 0
    by_cases hx : Number.isIntegral x = true <;> simpa [hx] using hcounts
  context m := adds_always fun l s h => h.withItems [contextKey m] [] _ _
  tags m := adds_always fun l s h => h.withItems [] (m.tags.map Text.Utf8.ofString) _ _

/-- Observing a reading adds the ledger of it. -/
theorem adds_observe (r : Reading) : Change.Adds (·.observe r) (.ofReading r) := by
  cases r with
  | message m =>
    change Change.Adds (inTurn (messageChanges m)) (.ofMessage m)
    rw [← all_messageParts]
    exact adds_inTurn (stepwise_adds.messageChanges m)
  | failure f =>
    intro l s h hok
    change (observeFailure f.reason s).error = none at hok
    change (observeFailure f.reason s).value.Tallied (l ++ { reasons := [f.reason] })
    unfold observeFailure at hok ⊢
    split at hok
    · cases hok
    · rename_i hf
      rw [if_neg hf]
      have hr : Reason.emptyLine ∉ [f.reason] := fun he => hf (List.mem_singleton.mp he).symm
      have hreason := h.withKinds [] [f.reason] hr
      have hbump : s.byReason.bump f.reason =
          Tally.ofItems Reason.counted (l.reasons ++ [f.reason]) := by
        rw [h.byReason, Tally.bump_ofItems]
        exact Tally.ofItems_perm _ (List.perm_append_singleton _ _).symm
      rw [List.append_nil, ← h.byKind, ← hbump] at hreason
      exact hreason

theorem adds_mergeRegisters {get : Statistics → Registers}
    {put : Statistics → Registers → Statistics} (other : Registers)
    (h : ∀ l s r, s.Tallied l → (put s r).Tallied (l ++ m)) :
    (mergeRegisters get put other).Adds m := by
  intro l s hs hok
  unfold mergeRegisters at hok ⊢
  cases hr : (get s).merge other with
  | none =>
    rw [hr] at hok
    cases hok
  | some r => exact h l s r hs

theorem adds_counted (ht : t.Tallied m) :
    (always fun s =>
      { s with
        total := s.total + t.total
        valid := s.valid + t.valid
        failed := s.failed + t.failed
        byKind := s.byKind.merge t.byKind
        byReason := s.byReason.merge t.byReason }).Adds
      { kinds := m.kinds, reasons := m.reasons } := by
  refine adds_always fun l s h => ?_
  have hmerged := h.withKinds m.kinds m.reasons ht.reasons
  rw [← Tally.merge_ofItems, ← Tally.merge_ofItems, ← h.byKind, ← h.byReason, ← ht.byKind,
    ← ht.byReason, ← ht.total, ← ht.valid, ← ht.failed] at hmerged
  exact hmerged

theorem adds_numbers (ht : t.Tallied m) :
    (always fun s =>
      { s with
        multivalue := s.multivalue + t.multivalue
        fractional := s.fractional + t.fractional
        sampled := s.sampled + t.sampled }).Adds
      { multivalue := m.multivalue, fractional := m.fractional, sampled := m.sampled } := by
  refine adds_always fun l s h => ?_
  rw [ht.multivalue, ht.fractional, ht.sampled]
  exact h.withCounts m.multivalue m.fractional m.sampled

/-- Merging others adds the ledger of the others. -/
theorem adds_merge (ht : t.Tallied m) : Change.Adds (·.merge t) m := by
  have hparts : List.Forall₂ Change.Adds (mergeChanges t)
      ([{ kinds := m.kinds, reasons := m.reasons }] ++
        Attribute.all.map (fun a => .single a (m.samples a)) ++
        [{ multivalue := m.multivalue, fractional := m.fractional, sampled := m.sampled },
          { contexts := m.contexts }, { tags := m.tags }]) := by
    unfold mergeChanges
    refine List.rel_append (List.rel_append (.cons (adds_counted ht) .nil) ?_)
      (.cons (adds_numbers ht) (.cons ?_ (.cons ?_ .nil)))
    · rw [List.forall₂_map_left_iff, List.forall₂_map_right_iff, List.forall₂_same]
      exact fun a _ => adds_mergeAttribute _ a (ht.distributions a)
    · exact adds_mergeRegisters _ fun l s r h => h.withItems m.contexts [] r s.tags
    · exact adds_mergeRegisters _ fun l s r h => h.withItems [] m.tags s.contexts r
  have hall : Ledger.all ([{ kinds := m.kinds, reasons := m.reasons }] ++
      Attribute.all.map (fun a => .single a (m.samples a)) ++
      [{ multivalue := m.multivalue, fractional := m.fractional, sampled := m.sampled },
        { contexts := m.contexts }, { tags := m.tags }]) = m := by
    apply Ledger.ext_at
    case samples =>
      intro a
      cases a <;> simp [Ledger.all, Attribute.all, Ledger.single]
    all_goals simp [Ledger.all, Attribute.all, Ledger.single]
  have hadds := adds_inTurn hparts
  rw [hall] at hadds
  exact hadds

end Statistics
end MetricCapture
