import MetricCapture.Proofs.Cardinality.Registers
import MetricCapture.Proofs.Sketch.Merge
import MetricCapture.Proofs.Statistics.Tally
import MetricCapture.Statistics.Basic
/-! Ledgers: all that has been told to statistics, and what the statistics keep of it. A step of
taking something in enters a ledger of its own, or it is broken off. -/
namespace MetricCapture

open MetricCapture.Number MetricCapture.Sketch

/-- What statistics have been told, one by one. -/
structure Ledger where
  kinds : List Kind := []
  reasons : List Reason := []
  samples : Attribute → List Float := fun _ => []
  multivalue : Nat := 0
  fractional : Nat := 0
  sampled : Nat := 0
  contexts : List Bytes := []
  tags : List Bytes := []

namespace Ledger

theorem ext_at {l m : Ledger} (kinds : l.kinds = m.kinds) (reasons : l.reasons = m.reasons)
    (samples : ∀ a, l.samples a = m.samples a) (multivalue : l.multivalue = m.multivalue)
    (fractional : l.fractional = m.fractional) (sampled : l.sampled = m.sampled)
    (contexts : l.contexts = m.contexts) (tags : l.tags = m.tags) : l = m := by
  obtain ⟨lk, lr, ls, li, lj, lt, lc, lg⟩ := l
  obtain rfl : ls = m.samples := funext samples
  dsimp only at kinds reasons multivalue fractional sampled contexts tags
  subst kinds reasons multivalue fractional sampled contexts tags
  rfl

instance : Append Ledger where
  append l m :=
    { kinds := l.kinds ++ m.kinds
      reasons := l.reasons ++ m.reasons
      samples := fun a => l.samples a ++ m.samples a
      multivalue := l.multivalue + m.multivalue
      fractional := l.fractional + m.fractional
      sampled := l.sampled + m.sampled
      contexts := l.contexts ++ m.contexts
      tags := l.tags ++ m.tags }

section

variable (l m : Ledger)

@[simp] theorem append_kinds : (l ++ m).kinds = l.kinds ++ m.kinds := rfl

@[simp] theorem append_reasons : (l ++ m).reasons = l.reasons ++ m.reasons := rfl

@[simp] theorem append_samples (a : Attribute) :
    (l ++ m).samples a = l.samples a ++ m.samples a := rfl

@[simp] theorem append_multivalue : (l ++ m).multivalue = l.multivalue + m.multivalue := rfl

@[simp] theorem append_fractional : (l ++ m).fractional = l.fractional + m.fractional := rfl

@[simp] theorem append_sampled : (l ++ m).sampled = l.sampled + m.sampled := rfl

@[simp] theorem append_contexts : (l ++ m).contexts = l.contexts ++ m.contexts := rfl

@[simp] theorem append_tags : (l ++ m).tags = l.tags ++ m.tags := rfl

end

def single (a : Attribute) (xs : List Float) : Ledger :=
  { samples := fun b => if b = a then xs else [] }

theorem mem_single {a b : Attribute} {xs : List Float} {x : Float} :
    x ∈ (single a xs).samples b ↔ b = a ∧ x ∈ xs := by
  unfold single
  dsimp only
  by_cases h : b = a
  · rw [if_pos h, and_iff_right h]
  · rw [if_neg h]
    exact ⟨fun hx => absurd hx List.not_mem_nil, fun hx => absurd hx.1 h⟩

structure Perm (l m : Ledger) : Prop where
  kinds : l.kinds.Perm m.kinds
  reasons : l.reasons.Perm m.reasons
  samples : ∀ a, (l.samples a).Perm (m.samples a)
  multivalue : l.multivalue = m.multivalue
  fractional : l.fractional = m.fractional
  sampled : l.sampled = m.sampled
  contexts : l.contexts.Perm m.contexts
  tags : l.tags.Perm m.tags

/-- Ledgers that can be taken in: there is no empty line in them, and no sample that a sketch
refuses. -/
structure Accepted (accuracy : Float) (l : Ledger) : Prop where
  reasons : Reason.emptyLine ∉ l.reasons
  samples : ∀ a, ∀ x ∈ l.samples a, (Mapping.ofAccuracy accuracy).Accepts x

theorem accepted_empty (accuracy : Float) : Accepted accuracy {} :=
  ⟨List.not_mem_nil, fun _ _ hx => absurd hx List.not_mem_nil⟩

theorem accepted_append (accuracy : Float) (l m : Ledger) :
    (l ++ m).Accepted accuracy ↔ l.Accepted accuracy ∧ m.Accepted accuracy := by
  constructor
  · rintro ⟨hr, hs⟩
    exact ⟨⟨fun h => hr (List.mem_append_left _ h), fun a x hx => hs a x (List.mem_append_left _ hx)⟩,
      fun h => hr (List.mem_append_right _ h), fun a x hx => hs a x (List.mem_append_right _ hx)⟩
  · rintro ⟨⟨hlr, hls⟩, hmr, hms⟩
    refine ⟨fun h => (List.mem_append.mp h).elim hlr hmr, fun a x hx => ?_⟩
    rcases List.mem_append.mp hx with hx | hx
    · exact hls a x hx
    · exact hms a x hx

theorem accepted_single {accuracy : Float} {a : Attribute} {x : Float} :
    (single a [x]).Accepted accuracy ↔ (Mapping.ofAccuracy accuracy).Accepts x := by
  constructor
  · intro h
    exact h.samples a x (mem_single.mpr ⟨rfl, List.mem_singleton_self x⟩)
  · intro h
    refine ⟨List.not_mem_nil, fun b y hy => ?_⟩
    rw [List.mem_singleton.mp (mem_single.mp hy).2]
    exact h

theorem append_assoc (l m n : Ledger) : l ++ m ++ n = l ++ (m ++ n) := by
  apply ext_at <;> simp [Nat.add_assoc]

theorem append_empty (l : Ledger) : l ++ ({} : Ledger) = l := by
  apply ext_at <;> simp

theorem empty_append (l : Ledger) : ({} : Ledger) ++ l = l := by
  apply ext_at <;> simp

theorem Perm.refl (l : Ledger) : l.Perm l :=
  ⟨.refl _, .refl _, fun _ => .refl _, rfl, rfl, rfl, .refl _, .refl _⟩

theorem Perm.trans {l m n : Ledger} (h : l.Perm m) (h' : m.Perm n) : l.Perm n :=
  ⟨h.kinds.trans h'.kinds, h.reasons.trans h'.reasons, fun a => (h.samples a).trans (h'.samples a),
    h.multivalue.trans h'.multivalue, h.fractional.trans h'.fractional,
    h.sampled.trans h'.sampled, h.contexts.trans h'.contexts, h.tags.trans h'.tags⟩

theorem Perm.append {l l' m m' : Ledger} (h : l.Perm l') (h' : m.Perm m') :
    (l ++ m).Perm (l' ++ m') := by
  refine ⟨h.kinds.append h'.kinds, h.reasons.append h'.reasons,
    fun a => (h.samples a).append (h'.samples a), ?_, ?_, ?_, h.contexts.append h'.contexts,
    h.tags.append h'.tags⟩
  · change l.multivalue + m.multivalue = l'.multivalue + m'.multivalue
    rw [h.multivalue, h'.multivalue]
  · change l.fractional + m.fractional = l'.fractional + m'.fractional
    rw [h.fractional, h'.fractional]
  · change l.sampled + m.sampled = l'.sampled + m'.sampled
    rw [h.sampled, h'.sampled]

theorem perm_append_comm (l m : Ledger) : (l ++ m).Perm (m ++ l) :=
  ⟨List.perm_append_comm, List.perm_append_comm, fun _ => List.perm_append_comm, Nat.add_comm _ _,
    Nat.add_comm _ _, Nat.add_comm _ _, List.perm_append_comm, List.perm_append_comm⟩

end Ledger

namespace Statistics

/-- What statistics with some settings are after they have been told a ledger. -/
structure Represents (cfg : Settings.Analysis) (l : Ledger) (s : Statistics) : Prop where
  reasons : Reason.emptyLine ∉ l.reasons
  total : s.total = l.kinds.length + l.reasons.length
  valid : s.valid = l.kinds.length
  failed : s.failed = l.reasons.length
  byKind : s.byKind = Tally.ofItems Kind.all l.kinds
  byReason : s.byReason = Tally.ofItems Reason.counted l.reasons
  distributions : ∀ a, (s.distributions.get a).Represents cfg.accuracy cfg.binLimit (l.samples a)
  multivalue : s.multivalue = l.multivalue
  fractional : s.fractional = l.fractional
  sampled : s.sampled = l.sampled
  contexts : s.contexts.Represents cfg.precision l.contexts
  tags : s.tags.Represents cfg.precision l.tags

variable {cfg : Settings.Analysis} {l m n : Ledger} {s : Statistics}

theorem Represents.perm (h : s.Represents cfg l) (hp : l.Perm m) : s.Represents cfg m := by
  refine ⟨fun hr => h.reasons (hp.reasons.mem_iff.mpr hr), ?_, ?_, ?_, ?_, ?_,
    fun a => (h.distributions a).perm (hp.samples a), ?_, ?_, ?_, ?_, ?_⟩
  · rw [h.total, hp.kinds.length_eq, hp.reasons.length_eq]
  · rw [h.valid, hp.kinds.length_eq]
  · rw [h.failed, hp.reasons.length_eq]
  · rw [h.byKind, Tally.ofItems_perm _ hp.kinds]
  · rw [h.byReason, Tally.ofItems_perm _ hp.reasons]
  · rw [h.multivalue, hp.multivalue]
  · rw [h.fractional, hp.fractional]
  · rw [h.sampled, hp.sampled]
  · exact h.contexts.congr fun bs => hp.contexts.mem_iff
  · exact h.tags.congr fun bs => hp.tags.mem_iff

theorem Represents.accepted (h : s.Represents cfg l) : l.Accepted cfg.accuracy :=
  ⟨h.reasons, fun a => (h.distributions a).accepts⟩

theorem binLimit_pos (cfg : Settings.Analysis) : 0 < cfg.binLimit :=
  Nat.lt_of_lt_of_le (by decide) cfg.le_binLimit

def empty (cfg : Settings.Analysis) : Statistics :=
  { distributions := .uniform (.empty cfg.accuracy cfg.binLimit)
    contexts := .create cfg.precision
    tags := .create cfg.precision }

/-- With any settings there are statistics to begin with. -/
theorem create_eq (cfg : Settings.Analysis) : create cfg = .ok (empty cfg) := by
  have hlimit := binLimit_pos cfg
  have hsketch : Sketch.create cfg.accuracy cfg.binLimit = .ok (.empty cfg.accuracy cfg.binLimit) :=
    Sketch.create_eq_ok_iff.mpr ⟨cfg.accuracy_mem, by omega, rfl⟩
  unfold create
  rw [hsketch]
  rfl

theorem represents_empty (cfg : Settings.Analysis) : (empty cfg).Represents cfg {} := by
  refine ⟨List.not_mem_nil, rfl, rfl, rfl, rfl, rfl, fun a => ?_, rfl, rfl, rfl,
    Registers.represents_create _, Registers.represents_create _⟩
  cases a <;> exact Sketch.represents_empty _ _

/-- A step enters a ledger into statistics that have been told another one, or is broken off if there
is something in the ledger that cannot be taken in. -/
def Change.Enters (cfg : Settings.Analysis) (l m : Ledger) (c : Change) : Prop :=
  ∀ s : Statistics, s.Represents cfg l →
    (m.Accepted cfg.accuracy ∧ ∃ s', c s = ⟨s', none⟩ ∧ s'.Represents cfg (l ++ m)) ∨
    (¬ m.Accepted cfg.accuracy ∧ (c s).error ≠ none)

end Statistics

end MetricCapture
