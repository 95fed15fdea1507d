import MetricCapture.Proofs.Statistics.Observe
/-! Merging statistics: what comes out has been told both ledgers. -/
namespace MetricCapture

open MetricCapture.Number MetricCapture.Sketch

namespace Statistics

variable {cfg : Settings.Analysis} {l m : Ledger} {s t : Statistics}

/-- A sketch is merged, or it is refused and nothing changes. -/
theorem mergeAttribute_cases (d : Distributions) (a : Attribute) (s : Statistics) :
    (∃ u, (s.distributions.get a).merge (d.get a) = .ok u ∧
      mergeAttribute d a s = ⟨{ s with distributions := s.distributions.set a u }, none⟩) ∨
    ∃ e, (s.distributions.get a).merge (d.get a) = .error e ∧
      mergeAttribute d a s = ⟨s, some (.sketch e)⟩ := by
  unfold mergeAttribute
  cases (s.distributions.get a).merge (d.get a) with
  | ok u => exact .inl ⟨u, rfl, rfl⟩
  | error e => exact .inr ⟨e, rfl, rfl⟩

theorem enters_mergeAttribute {d : Distributions} {a : Attribute} {xs : List Float}
    (hd : (d.get a).Represents cfg.accuracy cfg.binLimit xs) :
    (mergeAttribute d a).Enters cfg l (.single a xs) := by
  intro s hs
  obtain ⟨v, hv, hrep⟩ := (hs.distributions a).merge cfg.accuracy_mem hd
  rcases mergeAttribute_cases d a s with ⟨u, hu, he⟩ | ⟨e, hu, he⟩
  all_goals cases hv.symm.trans hu
  refine .inl ⟨⟨List.not_mem_nil, fun b x hx => ?_⟩, _, he, hs.withSamples fun b => ?_⟩
  · exact hd.accepts x (Ledger.mem_single.mp hx).2
  · rw [Distributions.get_set]
    by_cases hb : b = a
    · rw [if_pos hb, if_pos hb, hb]
      exact hrep
    · rw [if_neg hb, if_neg hb, List.append_nil]
      exact hs.distributions b

theorem enters_mergeRegisters {get : Statistics → Registers}
    {put : Statistics → Registers → Statistics} {other : Registers}
    (hm : ∀ a, m.samples a = []) (hr : Reason.emptyLine ∉ m.reasons)
    (h : ∀ s, s.Represents cfg l →
      ∃ r, (get s).merge other = some r ∧ (put s r).Represents cfg (l ++ m)) :
    (mergeRegisters get put other).Enters cfg l m := by
  intro s hs
  obtain ⟨r, hr', hrep⟩ := h s hs
  unfold mergeRegisters
  rw [hr']
  refine .inl ⟨⟨hr, fun a x hx => ?_⟩, _, rfl, hrep⟩
  rw [hm] at hx
  exact absurd hx List.not_mem_nil

theorem enters_mergeAttributes (ht : t.Represents cfg m) (as : List Attribute) :
    (inTurn (as.map (mergeAttribute t.distributions))).Enters cfg l
      (.all (as.map fun a => .single a (m.samples a))) := by
  induction as generalizing l with
  | nil => exact enters_nil cfg l
  | cons a as ih => exact (enters_mergeAttribute (ht.distributions a)).cons ih

private def parts (m : Ledger) : Ledger :=
  ({ kinds := m.kinds, reasons := m.reasons } : Ledger) ++
    (.all (Attribute.all.map fun a => .single a (m.samples a)) ++
      (({ multivalue := m.multivalue, fractional := m.fractional, sampled := m.sampled } : Ledger) ++
        (({ contexts := m.contexts } : Ledger) ++ (({ tags := m.tags } : Ledger) ++ ({} : Ledger)))))

private theorem parts_eq (m : Ledger) : parts m = m := by
  apply Ledger.ext_at
  case samples =>
    intro a
    cases a <;> simp [parts, Ledger.all, Attribute.all, Ledger.single]
  all_goals simp [parts, Ledger.all, Attribute.all, Ledger.single]

/-- Merging enters the ledger of the others. -/
theorem enters_merge (ht : t.Represents cfg m) : Change.Enters cfg l m (·.merge t) := by
  rw [← parts_eq m]
  change (inTurn (_ :: _ ++ _)).Enters cfg l _
  refine Change.Enters.cons ?_ (Change.Enters.append (enters_mergeAttributes ht _) ?_)
  · refine enters_always ht.reasons ?_ ?_
    · intro a
      rfl
    · intro s h
      have hmerged := h.withKinds m.kinds m.reasons ht.reasons
      rw [← Tally.merge_ofItems, ← Tally.merge_ofItems, ← h.byKind, ← h.byReason, ← ht.byKind,
        ← ht.byReason, ← ht.total, ← ht.valid, ← ht.failed] at hmerged
      exact hmerged
  · refine Change.Enters.cons ?_ (Change.Enters.cons ?_ (Change.Enters.cons ?_ (enters_nil cfg _)))
    · apply enters_always List.not_mem_nil
      · intro a
        rfl
      · intro s h
        rw [ht.multivalue, ht.fractional, ht.sampled]
        exact h.withCounts m.multivalue m.fractional m.sampled
    · apply enters_mergeRegisters (fun _ => rfl) List.not_mem_nil
      intro s h
      obtain ⟨r, hr, hrep⟩ := h.contexts.merge ht.contexts
      refine ⟨r, hr, h.withItems m.contexts [] hrep ?_⟩
      rw [List.append_nil]
      exact h.tags
    · apply enters_mergeRegisters (fun _ => rfl) List.not_mem_nil
      intro s h
      obtain ⟨r, hr, hrep⟩ := h.tags.merge ht.tags
      refine ⟨r, hr, h.withItems [] m.tags ?_ hrep⟩
      rw [List.append_nil]
      exact h.contexts

end Statistics

end MetricCapture
