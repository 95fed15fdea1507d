import MetricCapture.Proofs.Sketch.Outcome
import MetricCapture.Proofs.Statistics.Ledger
/-! Taking in readings. Each step enters its part of the ledger of a reading, so that a reading is
taken in whole if its samples are accepted, and else the observation is broken off. -/
namespace MetricCapture

open MetricCapture.Number MetricCapture.Sketch MetricCapture.Text

namespace Ledger

def all (ls : List Ledger) : Ledger := ls.foldr (· ++ ·) {}

theorem all_append (ls ms : List Ledger) : all (ls ++ ms) = all ls ++ all ms := by
  induction ls with
  | nil => exact (empty_append _).symm
  | cons l ls ih =>
    change l ++ all (ls ++ ms) = l ++ all ls ++ all ms
    rw [ih, append_assoc]

theorem all_flatMap {ι : Type} (f : ι → List Ledger) (items : List ι) :
    all (items.flatMap f) = all (items.map fun i => all (f i)) := by
  induction items with
  | nil => rfl
  | cons i items ih =>
    rw [List.flatMap_cons, all_append, ih]
    rfl

theorem append_ofSamples (l : Ledger) (f : Attribute → List Float) :
    l ++ ({ samples := f } : Ledger) = { l with samples := fun a => l.samples a ++ f a } := by
  apply ext_at <;> simp

theorem append_ofCounts (l : Ledger) (i j k : Nat) :
    l ++ ({ multivalue := i, fractional := j, sampled := k } : Ledger) =
      { l with
        multivalue := l.multivalue + i
        fractional := l.fractional + j
        sampled := l.sampled + k } := by
  apply ext_at <;> simp

theorem append_ofKinds (l : Ledger) (ks : List Kind) (rs : List Reason) :
    l ++ ({ kinds := ks, reasons := rs } : Ledger) =
      { l with kinds := l.kinds ++ ks, reasons := l.reasons ++ rs } := by
  apply ext_at <;> simp

theorem append_ofItems (l : Ledger) (cs ts : List Bytes) :
    l ++ ({ contexts := cs, tags := ts } : Ledger) =
      { l with contexts := l.contexts ++ cs, tags := l.tags ++ ts } := by
  apply ext_at <;> simp

def ofValue (x : Float) : Ledger :=
  single .value [x] ++
    (({ fractional := if isIntegral x then 0 else 1 } : Ledger) ++ ({} : Ledger))

theorem all_ofValue (xs : List Float) :
    all (xs.map ofValue) = { single .value xs with fractional := xs.countP (!isIntegral ·) } := by
  induction xs with
  | nil => apply ext_at <;> simp [all, single]
  | cons x xs ih =>
    change ofValue x ++ all (xs.map ofValue) = _
    rw [ih]
    apply ext_at
    case samples =>
      intro a
      by_cases ha : a = .value <;> simp [ofValue, single, ha]
    case fractional =>
      by_cases hx : isIntegral x = true <;> simp [ofValue, single, hx, Nat.add_comm]
    all_goals simp [ofValue, single]

theorem all_single (a : Attribute) (xs : List Float) :
    all (xs.map fun x => single a [x]) = single a xs := by
  induction xs with
  | nil => apply ext_at <;> simp [all, single]
  | cons x xs ih =>
    change single a [x] ++ all (xs.map fun x => single a [x]) = _
    rw [ih]
    apply ext_at
    case samples =>
      intro b
      by_cases hb : b = a <;> simp [single, hb]
    all_goals simp [single]

def ofMessage (m : Message) : Ledger where
  kinds := [m.kind]
  samples
    | .nameLength => [Float.ofNat m.name.utf8ByteSize]
    | .tagsPerMessage => [Float.ofNat m.tags.length]
    | .valuesPerMessage => [Float.ofNat m.values.length]
    | .value => if m.kind.isMetric then m.values else []
    | .tagLength => m.tags.map fun tag => Float.ofNat tag.utf8ByteSize
    | .unicodeTags => [Float.ofNat (m.tags.countP Statistics.beyondAscii)]
  multivalue := if 1 < m.values.length then 1 else 0
  fractional := if m.kind.isMetric then m.values.countP (!isIntegral ·) else 0
  sampled := if m.rate.any (· < 1.0) then 1 else 0
  contexts := if m.kind.isMetric then [Statistics.contextKey m] else []
  tags := if m.kind.isMetric then m.tags.map Utf8.ofString else []

def ofReading : Reading → Ledger
  | .message m => ofMessage m
  | .failure f => { reasons := [f.reason] }

end Ledger

namespace Statistics

def inTurn (cs : List Change) : Change := fun s => Outcome.sequence s cs

variable {cfg : Settings.Analysis} {l m n : Ledger} {s : Statistics}

theorem enters_nil (cfg : Settings.Analysis) (l : Ledger) : (inTurn []).Enters cfg l {} := by
  intro s hs
  refine .inl ⟨Ledger.accepted_empty _, s, rfl, ?_⟩
  rw [Ledger.append_empty]
  exact hs

theorem Change.Enters.andThen {c d : Change} (hc : c.Enters cfg l m) (hd : d.Enters cfg (l ++ m) n) :
    Change.Enters cfg l (m ++ n) fun s => (c s).andThen d := by
  intro s hs
  rw [Ledger.accepted_append, ← Ledger.append_assoc]
  rcases hc s hs with ⟨hm, s', hok, hs'⟩ | ⟨hm, herr⟩
  · dsimp only
    rw [hok, Outcome.andThen_ok]
    rcases hd s' hs' with ⟨hn, s'', hok', hs''⟩ | ⟨hn, herr'⟩
    · exact .inl ⟨⟨hm, hn⟩, s'', hok', hs''⟩
    · exact .inr ⟨fun h => hn h.2, herr'⟩
  · exact .inr ⟨fun h => hm h.1, fun h => herr ((Outcome.error_andThen _ _).mp h).1⟩

theorem Change.Enters.cons {c : Change} {cs : List Change} (hc : c.Enters cfg l m)
    (hcs : (inTurn cs).Enters cfg (l ++ m) n) : (inTurn (c :: cs)).Enters cfg l (m ++ n) := by
  have heq : inTurn (c :: cs) = fun s => (c s).andThen (inTurn cs) := by
    funext s
    exact Outcome.sequence_cons s c cs
  rw [heq]
  exact hc.andThen hcs

theorem Change.Enters.append {cs ds : List Change} (hc : (inTurn cs).Enters cfg l m)
    (hd : (inTurn ds).Enters cfg (l ++ m) n) : (inTurn (cs ++ ds)).Enters cfg l (m ++ n) := by
  have heq : inTurn (cs ++ ds) = fun s => (inTurn cs s).andThen (inTurn ds) := by
    funext s
    exact Outcome.sequence_append s cs ds
  rw [heq]
  exact hc.andThen hd

/-- Steps enter a ledger each, one after the other. -/
theorem enters_inTurn {cs : List Change} {ms : List Ledger}
    (h : List.Forall₂ (fun (c : Change) m => ∀ l, c.Enters cfg l m) cs ms) (l : Ledger) :
    (inTurn cs).Enters cfg l (.all ms) := by
  induction h generalizing l with
  | nil => exact enters_nil cfg l
  | cons hc _ ih => exact (hc l).cons (ih _)

theorem enters_always {change : Statistics → Statistics} (hr : Reason.emptyLine ∉ m.reasons)
    (hm : ∀ a, m.samples a = [])
    (h : ∀ s, s.Represents cfg l → (change s).Represents cfg (l ++ m)) :
    (always change).Enters cfg l m := by
  intro s hs
  refine .inl ⟨⟨hr, fun a x hx => ?_⟩, _, rfl, h s hs⟩
  rw [hm] at hx
  exact absurd hx List.not_mem_nil

/-- Other distributions take in samples only. -/
theorem Represents.withSamples (h : s.Represents cfg l) {d : Distributions}
    {f : Attribute → List Float}
    (hd : ∀ a, (d.get a).Represents cfg.accuracy cfg.binLimit (l.samples a ++ f a)) :
    Represents cfg (l ++ { samples := f }) { s with distributions := d } := by
  rw [Ledger.append_ofSamples]
  exact ⟨h.reasons, h.total, h.valid, h.failed, h.byKind, h.byReason, hd, h.multivalue, h.fractional,
    h.sampled, h.contexts, h.tags⟩

theorem enters_record (a : Attribute) (x : Float) (l : Ledger) :
    (record a x).Enters cfg l (.single a [x]) := by
  intro s hs
  rw [Ledger.accepted_single]
  unfold record
  rcases (hs.distributions a).add (binLimit_pos cfg) x with ⟨hx, s', hok, hs'⟩ | ⟨hx, e, herr⟩
  · rw [hok]
    refine .inl ⟨hx, _, rfl, hs.withSamples fun b => ?_⟩
    rw [Distributions.get_set]
    by_cases hb : b = a
    · rw [if_pos hb, if_pos hb, hb]
      exact hs'.perm (List.perm_append_singleton x _).symm
    · rw [if_neg hb, if_neg hb, List.append_nil]
      exact hs.distributions b
  · rw [herr]
    exact .inr ⟨hx, fun h => nomatch h⟩

/-- Numbers of messages and values are added up. -/
theorem Represents.withCounts (h : s.Represents cfg l) (i j k : Nat) :
    Represents cfg (l ++ { multivalue := i, fractional := j, sampled := k })
      { s with
        multivalue := s.multivalue + i
        fractional := s.fractional + j
        sampled := s.sampled + k } := by
  rw [Ledger.append_ofCounts]
  exact ⟨h.reasons, h.total, h.valid, h.failed, h.byKind, h.byReason, h.distributions,
    congrArg (· + i) h.multivalue, congrArg (· + j) h.fractional, congrArg (· + k) h.sampled,
    h.contexts, h.tags⟩

/-- Kinds and reasons are counted. -/
theorem Represents.withKinds (h : s.Represents cfg l) (ks : List Kind) (rs : List Reason)
    (hr : Reason.emptyLine ∉ rs) :
    Represents cfg (l ++ { kinds := ks, reasons := rs })
      { s with
        total := s.total + (ks.length + rs.length)
        valid := s.valid + ks.length
        failed := s.failed + rs.length
        byKind := Tally.ofItems Kind.all (l.kinds ++ ks)
        byReason := Tally.ofItems Reason.counted (l.reasons ++ rs) } := by
  rw [Ledger.append_ofKinds]
  refine ⟨fun h' => (List.mem_append.mp h').elim h.reasons hr, ?_, ?_, ?_, rfl, rfl,
    h.distributions, h.multivalue, h.fractional, h.sampled, h.contexts, h.tags⟩
  · dsimp only
    rw [h.total, List.length_append, List.length_append]
    omega
  · dsimp only
    rw [h.valid, List.length_append]
  · dsimp only
    rw [h.failed, List.length_append]

/-- Byte strings are seen by the registers. -/
theorem Represents.withItems (h : s.Represents cfg l) (cs ts : List Bytes) {c t : Registers}
    (hc : c.Represents cfg.precision (l.contexts ++ cs))
    (ht : t.Represents cfg.precision (l.tags ++ ts)) :
    Represents cfg (l ++ { contexts := cs, tags := ts }) { s with contexts := c, tags := t } := by
  rw [Ledger.append_ofItems]
  exact ⟨h.reasons, h.total, h.valid, h.failed, h.byKind, h.byReason, h.distributions, h.multivalue,
    h.fractional, h.sampled, hc, ht⟩

def messageParts (m : Message) : List Ledger :=
  [{ kinds := [m.kind] }, .single .nameLength [Float.ofNat m.name.utf8ByteSize],
    .single .tagsPerMessage [Float.ofNat m.tags.length],
    .single .valuesPerMessage [Float.ofNat m.values.length],
    { multivalue := if 1 < m.values.length then 1 else 0
      sampled := if m.rate.any (· < 1.0) then 1 else 0 }] ++
    (if m.kind.isMetric then
      m.values.flatMap (fun x =>
        [.single .value [x], { fractional := if Number.isIntegral x then 0 else 1 }]) ++
        [{ contexts := [contextKey m] }, { tags := m.tags.map Text.Utf8.ofString }]
    else []) ++
    m.tags.map (fun tag => .single .tagLength [Float.ofNat tag.utf8ByteSize]) ++
    [.single .unicodeTags [Float.ofNat (m.tags.countP beyondAscii)]]

theorem all_messageParts (m : Message) : Ledger.all (messageParts m) = .ofMessage m := by
  have hvalues : Ledger.all (m.values.flatMap fun x =>
      [.single .value [x], { fractional := if Number.isIntegral x then 0 else 1 }]) =
      { Ledger.single .value m.values with fractional := m.values.countP (!Number.isIntegral ·) } := by
    rw [Ledger.all_flatMap, ← Ledger.all_ofValue]
    rfl
  have htags : Ledger.all (m.tags.map fun tag => .single .tagLength [Float.ofNat tag.utf8ByteSize]) =
      .single .tagLength (m.tags.map fun tag => Float.ofNat tag.utf8ByteSize) := by
    rw [← Ledger.all_single, List.map_map]
    rfl
  unfold messageParts
  rw [Ledger.all_append, Ledger.all_append, Ledger.all_append, htags]
  cases hm : m.kind.isMetric
  · apply Ledger.ext_at
    case samples =>
      intro a
      cases a <;> simp [Ledger.all, Ledger.ofMessage, Ledger.single, hm]
    all_goals simp [Ledger.all, Ledger.ofMessage, Ledger.single, hm]
  · rw [if_pos rfl, Ledger.all_append, hvalues]
    apply Ledger.ext_at
    case samples =>
      intro a
      cases a <;> simp [Ledger.all, Ledger.ofMessage, Ledger.single, hm]
    all_goals simp [Ledger.all, Ledger.ofMessage, Ledger.single, hm]

structure Stepwise (R : Change → Ledger → Prop) : Prop where
  kind : ∀ m : Message, R
    (always fun s =>
      { s with total := s.total + 1, valid := s.valid + 1, byKind := s.byKind.bump m.kind })
    { kinds := [m.kind] }
  sample : ∀ a x, R (record a x) (.single a [x])
  counts : ∀ m : Message, R
    (always fun s =>
      { s with
        multivalue := if 1 < m.values.length then s.multivalue + 1 else s.multivalue
        sampled := if m.rate.any (· < 1.0) then s.sampled + 1 else s.sampled })
    { multivalue := if 1 < m.values.length then 1 else 0
      sampled := if m.rate.any (· < 1.0) then 1 else 0 }
  fraction : ∀ x, R
    (always fun s => if isIntegral x then s else { s with fractional := s.fractional + 1 })
    { fractional := if isIntegral x then 0 else 1 }
  context : ∀ m : Message, R
    (always fun s => { s with contexts := s.contexts.observe (contextKey m) })
    { contexts := [contextKey m] }
  tags : ∀ m : Message, R
    (always fun s =>
      { s with tags := m.tags.foldl (fun r tag => r.observe (Utf8.ofString tag)) s.tags })
    { tags := m.tags.map Utf8.ofString }

/-- The steps that take in a message and their ledgers, one by one. -/
theorem Stepwise.messageChanges {R : Change → Ledger → Prop} (h : Stepwise R) (m : Message) :
    List.Forall₂ R (messageChanges m) (messageParts m) := by
  unfold Statistics.messageChanges messageParts
  refine List.rel_append (List.rel_append (List.rel_append ?_ ?_) ?_) ?_
  · exact .cons (h.kind m) (.cons (h.sample _ _) (.cons (h.sample _ _)
      (.cons (h.sample _ _) (.cons (h.counts m) .nil))))
  · split
    · refine List.rel_append ?_ (.cons (h.context m) (.cons (h.tags m) .nil))
      refine List.rel_flatMap (List.forall₂_same.mpr fun _ _ => rfl) ?_
      rintro x _ rfl
      exact .cons (h.sample _ _) (.cons (h.fraction x) .nil)
    · exact .nil
  · rw [List.forall₂_map_left_iff, List.forall₂_map_right_iff, List.forall₂_same]
    exact fun tag _ => h.sample _ _
  · exact .cons (h.sample _ _) .nil

/-- Every step that takes in a message enters its ledger. -/
theorem stepwise_enters (cfg : Settings.Analysis) :
    Stepwise fun c m => ∀ l, c.Enters cfg l m where
  kind m l := by
    apply enters_always List.not_mem_nil
    · intro a
      rfl
    · intro s h
      have hkinds := h.withKinds [m.kind] [] List.not_mem_nil
      have hbump : s.byKind.bump m.kind = Tally.ofItems Kind.all (l.kinds ++ [m.kind]) := by
        rw [h.byKind, Tally.bump_ofItems]
        exact Tally.ofItems_perm _ (List.perm_append_singleton _ _).symm
      rw [List.append_nil, ← h.byReason, ← hbump] at hkinds
      exact hkinds
  sample := enters_record
  counts m l := by
    apply enters_always List.not_mem_nil
    · intro a
      rfl
    · intro s h
      have hcounts := h.withCounts (if 1 < m.values.length then 1 else 0) 0
        (if m.rate.any (· < 1.0) then 1 else 0)
      have hadd : ∀ (p : Prop) [Decidable p] (n : Nat),
          n + (if p then 1 else 0) = if p then n + 1 else n := by
        intro p _ n
        by_cases hp : p
        · rw [if_pos hp, if_pos hp]
        · rw [if_neg hp, if_neg hp]
          rfl
      rw [hadd, hadd] at hcounts
      exact hcounts
  fraction x l := by
    apply enters_always List.not_mem_nil
    · intro a
      rfl
    · intro s h
      by_cases hx : isIntegral x = true
      · rw [if_pos hx, if_pos hx]
        exact h.withCounts 0 0 0
      · rw [if_neg hx, if_neg hx]
        exact h.withCounts 0 1 0
  context m l := by
    apply enters_always List.not_mem_nil
    · intro a
      rfl
    · intro s h
      exact h.withItems [contextKey m] [] (h.contexts.observe_append _) h.tags.append_nil
  tags m l := by
    apply enters_always List.not_mem_nil
    · intro a
      rfl
    · intro s h
      exact h.withItems [] _ h.contexts.append_nil (h.tags.foldl_append Utf8.ofString m.tags)

/-- Observing a reading enters the ledger of it. -/
theorem enters_observe (r : Reading) (l : Ledger) :
    Change.Enters cfg l (.ofReading r) (·.observe r) := by
  cases r with
  | message m =>
    change (inTurn (messageChanges m)).Enters cfg l (.ofMessage m)
    rw [← all_messageParts]
    exact enters_inTurn ((stepwise_enters cfg).messageChanges m) l
  | failure f =>
    intro s h
    change _ ∨ (_ ∧ (observeFailure f.reason s).error ≠ none)
    unfold observeFailure
    by_cases hf : f.reason = .emptyLine
    · rw [if_pos hf]
      refine .inr ⟨fun ha => ha.reasons ?_, fun he => nomatch he⟩
      rw [← hf]
      exact List.mem_singleton_self _
    · have hr : Reason.emptyLine ∉ [f.reason] := fun he => hf (List.mem_singleton.mp he).symm
      have hreason := h.withKinds [] [f.reason] hr
      have hbump : s.byReason.bump f.reason =
          Tally.ofItems Reason.counted (l.reasons ++ [f.reason]) := by
        rw [h.byReason, Tally.bump_ofItems]
        exact Tally.ofItems_perm _ (List.perm_append_singleton _ _).symm
      rw [List.append_nil, ← h.byKind, ← hbump] at hreason
      exact .inl ⟨⟨hr, fun a x hx => absurd hx List.not_mem_nil⟩, _, if_neg hf, hreason⟩

end Statistics

namespace Ledger

def ofReadings (rs : List Reading) : Ledger := all (rs.map ofReading)

theorem ofReadings_append (rs rs' : List Reading) :
    ofReadings (rs ++ rs') = ofReadings rs ++ ofReadings rs' := by
  induction rs with
  | nil => exact (empty_append _).symm
  | cons r rs ih =>
    change ofReading r ++ ofReadings (rs ++ rs') = ofReading r ++ ofReadings rs ++ ofReadings rs'
    rw [ih, append_assoc]

theorem ofReadings_perm {rs rs' : List Reading} (h : rs.Perm rs') :
    (ofReadings rs).Perm (ofReadings rs') := by
  induction h with
  | nil => exact .refl _
  | cons r _ ih => exact (Perm.refl (ofReading r)).append ih
  | swap r r' rs =>
    change (ofReading r' ++ (ofReading r ++ ofReadings rs)).Perm
      (ofReading r ++ (ofReading r' ++ ofReadings rs))
    rw [← append_assoc, ← append_assoc]
    exact (perm_append_comm _ _).append (.refl _)
  | trans _ _ ih ih' => exact ih.trans ih'

end Ledger

/-- Observing some readings enters the ledger of them all. -/
theorem Statistics.enters_each (cfg : Settings.Analysis) (rs : List Reading) (l : Ledger) :
    Statistics.Change.Enters cfg l (.ofReadings rs) (Outcome.each Statistics.observe · rs) := by
  induction rs generalizing l with
  | nil => exact enters_nil cfg l
  | cons r rs ih =>
    have heq : (fun s => Outcome.each observe s (r :: rs)) =
        fun s : Statistics => (s.observe r).andThen (Outcome.each observe · rs) := by
      funext s
      exact Outcome.each_cons observe s r rs
    rw [heq]
    exact (enters_observe r l).andThen (ih _)

/-- From the beginning, readings are observed if what they tell can be taken in. -/
theorem Statistics.each_cases {cfg : Settings.Analysis} {fresh : Statistics}
    (hfresh : fresh.Represents cfg {}) (rs : List Reading) :
    ((Ledger.ofReadings rs).Accepted cfg.accuracy ∧
      ∃ s, Outcome.each observe fresh rs = ⟨s, none⟩ ∧ s.Represents cfg (.ofReadings rs)) ∨
    (¬ (Ledger.ofReadings rs).Accepted cfg.accuracy ∧
      (Outcome.each observe fresh rs).error ≠ none) := by
  have h := enters_each cfg rs {} fresh hfresh
  rw [Ledger.empty_append] at h
  exact h

end MetricCapture
