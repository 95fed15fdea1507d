import MetricCapture.Proofs.Sketch.Counts
import MetricCapture.Proofs.Sketch.Make
import MetricCapture.Proofs.Statistics.Merge
/-! Interrupted merges: what a merge of statistics leaves behind that is broken off, as one with other
settings is. Its steps are not undone, so that it leaves nothing only if the others have met nothing. -/
namespace MetricCapture

namespace Distributions

theorem set_get (d : Distributions) (a : Attribute) : d.set a (d.get a) = d := by
  cases a <;> rfl

theorem ext_get {d d' : Distributions} (h : ∀ a, d.get a = d'.get a) : d = d' := by
  have h₁ := h .nameLength
  have h₂ := h .tagsPerMessage
  have h₃ := h .valuesPerMessage
  have h₄ := h .value
  have h₅ := h .tagLength
  have h₆ := h .unicodeTags
  cases d
  cases d'
  simp_all [get]

end Distributions

namespace Statistics

inductive Reachable : Statistics → Prop where
  | create (cfg : Settings.Analysis) {s : Statistics} (h : create cfg = .ok s) : Reachable s
  | observe {s : Statistics} (hs : Reachable s) (r : Reading) : Reachable (s.observe r).value
  | merge {s t : Statistics} (hs : Reachable s) (ht : Reachable t) : Reachable (s.merge t).value

structure Uniform (s : Statistics) : Prop where
  make : ∀ a, (s.distributions.get a).make = s.distributions.nameLength.make
  precision : s.contexts.precision = s.tags.precision

structure Blank (s : Statistics) : Prop where
  valid : s.valid = 0
  failed : s.failed = 0
  byKind : ∀ k, s.byKind.count k = 0
  byReason : ∀ r, s.byReason.count r = 0
  distributions : ∀ a, (s.distributions.get a).count = 0
  multivalue : s.multivalue = 0
  fractional : s.fractional = 0
  sampled : s.sampled = 0

variable {s t : Statistics}

def Keeps (c : Change) : Prop :=
  ∀ s : Statistics, s.Uniform → (c s).value.Uniform ∧ (c s).value.total = s.total

theorem keeps_sequence {cs : List Change} (h : ∀ c ∈ cs, Keeps c) (hs : s.Uniform) :
    (Outcome.sequence s cs).value.Uniform ∧ (Outcome.sequence s cs).value.total = s.total := by
  refine Outcome.sequence_induction (motive := fun u : Statistics => u.Uniform ∧ u.total = s.total)
    ?_ ⟨hs, rfl⟩
  rintro c hc u ⟨hu, htotal⟩
  obtain ⟨hu', htotal'⟩ := h c hc u hu
  exact ⟨hu', htotal'.trans htotal⟩

theorem Uniform.set (hs : s.Uniform) {a : Attribute} {u : Sketch}
    (hu : u.make = (s.distributions.get a).make) :
    Uniform { s with distributions := s.distributions.set a u } := by
  have hmake : ∀ b, ((s.distributions.set a u).get b).make = s.distributions.nameLength.make := by
    intro b
    rw [Distributions.get_set]
    split
    · exact hu.trans (hs.make a)
    · exact hs.make b
  exact ⟨fun b => (hmake b).trans (hmake .nameLength).symm, hs.precision⟩

theorem keeps_record (a : Attribute) (x : Float) : Keeps (record a x) := by
  intro s hs
  unfold record
  cases h : (s.distributions.get a).add x with
  | ok u => exact ⟨hs.set (Sketch.make_add h), rfl⟩
  | error e => exact ⟨hs, rfl⟩

theorem keeps_mergeAttribute (d : Distributions) (a : Attribute) : Keeps (mergeAttribute d a) := by
  intro s hs
  rcases mergeAttribute_cases d a s with ⟨u, hu, he⟩ | ⟨e, _, he⟩
  all_goals rw [he]
  · exact ⟨hs.set (Sketch.make_merge hu), rfl⟩
  · exact ⟨hs, rfl⟩

theorem keeps_always {f : Statistics → Statistics}
    (hd : ∀ s, (f s).distributions = s.distributions)
    (hc : ∀ s, (f s).contexts.precision = s.contexts.precision)
    (ht : ∀ s, (f s).tags.precision = s.tags.precision) (htotal : ∀ s, (f s).total = s.total) :
    Keeps (always f) := by
  intro s hs
  refine ⟨⟨fun a => ?_, ?_⟩, htotal s⟩
  · change ((f s).distributions.get a).make = (f s).distributions.nameLength.make
    rw [hd]
    exact hs.make a
  · exact (hc s).trans (hs.precision.trans (ht s).symm)

theorem precision_foldl_observe {ι : Type} (f : ι → Bytes) (r : Registers) (items : List ι) :
    (items.foldl (fun r i => r.observe (f i)) r).precision = r.precision := by
  induction items generalizing r with
  | nil => rfl
  | cons i items ih => exact ih _

theorem keeps_recordValue (x : Float) : ∀ c ∈ recordValue x, Keeps c := by
  refine List.forall_mem_cons.mpr ⟨keeps_record .value x, List.forall_mem_singleton.mpr ?_⟩
  apply keeps_always <;> intro s <;> split <;> rfl

theorem keeps_recordMetric (m : Message) : ∀ c ∈ recordMetric m, Keeps c := by
  unfold recordMetric
  simp only [List.forall_mem_append, List.forall_mem_cons, List.mem_flatMap, forall_exists_index,
    and_imp]
  refine ⟨fun c x _ hc => keeps_recordValue x c hc, ?_, ?_, by simp⟩
  · apply keeps_always <;> intro s <;> rfl
  · apply keeps_always <;> intro s
    · rfl
    · rfl
    · exact precision_foldl_observe _ _ _
    · rfl

/-- The steps that take in a message count it first, and only then. -/
theorem exists_messageChanges (m : Message) :
    ∃ cs, messageChanges m = always (fun s =>
      { s with total := s.total + 1, valid := s.valid + 1, byKind := s.byKind.bump m.kind }) :: cs ∧
      ∀ c ∈ cs, Keeps c := by
  unfold messageChanges
  rw [List.cons_append, List.cons_append, List.cons_append]
  refine ⟨_, rfl, ?_⟩
  simp only [List.forall_mem_append, List.forall_mem_cons, List.forall_mem_map]
  refine ⟨⟨⟨⟨keeps_record _ _, keeps_record _ _, keeps_record _ _, ?_, by simp⟩, ?_⟩, ?_⟩, ?_⟩
  · apply keeps_always <;> intro s <;> rfl
  · split
    · exact keeps_recordMetric m
    · simp
  · exact fun tag _ => keeps_record _ _
  · exact ⟨keeps_record _ _, by simp⟩

/-- Observing leaves statistics uniform, and nothing changes unless something is counted. -/
theorem Uniform.observe (hs : s.Uniform) (r : Reading) :
    (s.observe r).value.Uniform ∧ ((s.observe r).value = s ∨ 0 < (s.observe r).value.total) := by
  cases r with
  | failure f =>
    simp only [Statistics.observe, observeFailure]
    split
    · exact ⟨hs, .inl rfl⟩
    · exact ⟨⟨hs.make, hs.precision⟩, .inr (Nat.succ_pos _)⟩
  | message m =>
    obtain ⟨cs, hcs, hkeeps⟩ := exists_messageChanges m
    simp only [Statistics.observe, hcs, Outcome.sequence_cons, always, Outcome.andThen_ok]
    obtain ⟨huniform, htotal⟩ := keeps_sequence hkeeps
      (s := { s with total := s.total + 1, valid := s.valid + 1, byKind := s.byKind.bump m.kind })
      ⟨hs.make, hs.precision⟩
    exact ⟨huniform, .inr (by rw [htotal]; exact Nat.succ_pos _)⟩

def counted (s t : Statistics) : Statistics :=
  { s with
    total := s.total + t.total
    valid := s.valid + t.valid
    failed := s.failed + t.failed
    byKind := s.byKind.merge t.byKind
    byReason := s.byReason.merge t.byReason }

def furtherChanges (t : Statistics) : List Change :=
  [always fun s =>
      { s with
        multivalue := s.multivalue + t.multivalue
        fractional := s.fractional + t.fractional
        sampled := s.sampled + t.sampled },
    mergeRegisters (·.contexts) (fun s r => { s with contexts := r }) t.contexts,
    mergeRegisters (·.tags) (fun s r => { s with tags := r }) t.tags]

theorem merge_eq (s t : Statistics) :
    s.merge t = (inTurn (Attribute.all.map (mergeAttribute t.distributions)) (counted s t)).andThen
      fun s => Outcome.sequence s (furtherChanges t) := by
  change Outcome.sequence s (([_] ++ _) ++ _) = _
  rw [Outcome.sequence_append]
  rfl

/-- A merge of registers puts others of the same precision in, or leaves statistics as they are. -/
theorem mergeRegisters_induction {motive : Statistics → Prop} {get : Statistics → Registers}
    {put : Statistics → Registers → Statistics} (other : Registers) (hs : motive s)
    (hput : ∀ r, r.precision = (get s).precision → motive (put s r)) :
    motive (mergeRegisters get put other s).value := by
  unfold mergeRegisters
  split
  · rename_i r hr
    unfold Registers.merge at hr
    split at hr
    · cases hr
      exact hput _ rfl
    · cases hr
  · exact hs

theorem keeps_furtherChanges (t : Statistics) : ∀ c ∈ furtherChanges t, Keeps c := by
  refine List.forall_mem_cons.mpr ⟨?_, List.forall_mem_cons.mpr ⟨?_, List.forall_mem_singleton.mpr ?_⟩⟩
  · apply keeps_always <;> intro s <;> rfl
  · intro s hs
    refine mergeRegisters_induction (motive := fun u => u.Uniform ∧ u.total = s.total) _ ⟨hs, rfl⟩ ?_
    exact fun r hr => ⟨⟨hs.make, hr.trans hs.precision⟩, rfl⟩
  · intro s hs
    refine mergeRegisters_induction (motive := fun u => u.Uniform ∧ u.total = s.total) _ ⟨hs, rfl⟩ ?_
    exact fun r hr => ⟨⟨hs.make, hs.precision.trans hr.symm⟩, rfl⟩

theorem Uniform.merge (hs : s.Uniform) (t : Statistics) :
    (s.merge t).value.Uniform ∧ (s.merge t).value.total = s.total + t.total := by
  have hkeeps : ∀ c ∈ mergeChanges t |>.tail, Keeps c := by
    change ∀ c ∈ Attribute.all.map (mergeAttribute t.distributions) ++ furtherChanges t, Keeps c
    refine List.forall_mem_append.mpr ⟨?_, keeps_furtherChanges t⟩
    exact List.forall_mem_map.mpr fun a _ => keeps_mergeAttribute _ a
  exact keeps_sequence (s := counted s t) hkeeps ⟨hs.make, hs.precision⟩

/-- Counting nothing changes nothing. -/
theorem Blank.counted (ht : t.Blank) (h : t.total = 0) : counted s t = s := by
  simp [Statistics.counted, h, ht.valid, ht.failed, Tally.merge_of_count ht.byKind,
    Tally.merge_of_count ht.byReason]

theorem Blank.merge (hs : s.Blank) (ht : t.Blank) (ht0 : t.total = 0) :
    (s.merge t).value.Blank := by
  rw [merge_eq, ht.counted ht0]
  refine Outcome.andThen_induction (motive := Blank) (Outcome.sequence_induction ?_ hs) fun u hu =>
    Outcome.sequence_induction ?_ hu
  · refine List.forall_mem_map.mpr fun a _ u hu => ?_
    rcases mergeAttribute_cases t.distributions a u with ⟨v, hv, he⟩ | ⟨e, _, he⟩
    all_goals rw [he]
    · obtain rfl := Sketch.merge_of_count (ht.distributions a) hv
      rw [Distributions.set_get]
      exact hu
    · exact hu
  · refine List.forall_mem_cons.mpr ⟨?_, List.forall_mem_cons.mpr ⟨?_, List.forall_mem_singleton.mpr ?_⟩⟩
    · intro u hu
      simp only [always, ht.multivalue, ht.fractional, ht.sampled]
      exact hu
    · exact fun u hu => mergeRegisters_induction _ hu fun _ _ => { hu with }
    · exact fun u hu => mergeRegisters_induction _ hu fun _ _ => { hu with }

structure Regular (s : Statistics) : Prop extends Uniform s where
  blank : s.total = 0 → s.Blank

theorem regular_create {cfg : Settings.Analysis} (h : create cfg = .ok s) : s.Regular := by
  obtain rfl : empty cfg = s := Except.ok.inj ((create_eq cfg).symm.trans h)
  refine ⟨⟨fun a => ?_, rfl⟩, fun _ => ⟨rfl, rfl, fun k => ?_, fun r => ?_, fun a => ?_, rfl, rfl, rfl⟩⟩
  · cases a <;> rfl
  · cases k <;> rfl
  · cases r <;> rfl
  · cases a <;> rfl

theorem Reachable.regular (h : s.Reachable) : s.Regular := by
  induction h with
  | create _ h => exact regular_create h
  | observe _ r ih =>
    obtain ⟨huniform, hsame | hpos⟩ := ih.toUniform.observe r
    · rw [hsame]
      exact ih
    · exact ⟨huniform, fun h => by omega⟩
  | @merge s t _ _ ihs iht =>
    obtain ⟨huniform, htotal⟩ := ihs.toUniform.merge t
    refine ⟨huniform, fun h => ?_⟩
    obtain ⟨hs0, ht0⟩ := Nat.add_eq_zero_iff.mp (htotal.symm.trans h)
    exact (ihs.blank hs0).merge (iht.blank ht0) ht0

def Made (make : Float × Nat × Sketch.Mapping) (s : Statistics) : Prop :=
  ∀ a, (s.distributions.get a).make = make

theorem Made.mergeAttribute {make : Float × Nat × Sketch.Mapping} (hs : s.Made make)
    (d : Distributions) (a : Attribute) : (mergeAttribute d a s).value.Made make := by
  rcases mergeAttribute_cases d a s with ⟨u, hu, he⟩ | ⟨e, _, he⟩
  all_goals rw [he]
  · intro b
    rw [Distributions.get_set]
    split
    · exact (Sketch.make_merge hu).trans (hs a)
    · exact hs b
  · exact hs

theorem inTurn_cons (c : Change) (cs : List Change) (s : Statistics) :
    inTurn (c :: cs) s = (c s).andThen (inTurn cs) :=
  Outcome.sequence_cons s c cs

/-- Sketches that fit are merged. -/
theorem error_mergeAttributes {make make' : Float × Nat × Sketch.Mapping} {d : Distributions}
    (hfit : Sketch.Fits make make') (hd : ∀ a, (d.get a).make = make') (hs : s.Made make)
    (as : List Attribute) : (inTurn (as.map (mergeAttribute d)) s).error = none := by
  induction as generalizing s with
  | nil => rfl
  | cons a as ih =>
    rw [List.map_cons, inTurn_cons, Outcome.error_andThen]
    refine ⟨?_, ih (hs.mergeAttribute d a)⟩
    obtain ⟨v, hv⟩ := Sketch.exists_merge_of_fits (s := s.distributions.get a) (t := d.get a)
      (by rw [hs a, hd a]; exact hfit)
    rcases mergeAttribute_cases d a s with ⟨u, _, he⟩ | ⟨e, hu, _⟩
    · rw [he]
    · cases hv.symm.trans hu

/-- Sketches that do not fit are left as they are, and the first with values is refused. -/
theorem mergeAttributes_of_not_fits {make make' : Float × Nat × Sketch.Mapping} {d : Distributions}
    (hfit : ¬ Sketch.Fits make make') (hd : ∀ a, (d.get a).make = make') (hs : s.Made make)
    (as : List Attribute) :
    inTurn (as.map (mergeAttribute d)) s = ⟨s, none⟩ ∨
      inTurn (as.map (mergeAttribute d)) s = ⟨s, some (.sketch .accuracyMismatch)⟩ ∨
      inTurn (as.map (mergeAttribute d)) s =
        ⟨s, some (.sketch (.baseMismatch make.2.2.base make'.2.2.base))⟩ := by
  induction as with
  | nil => exact .inl rfl
  | cons a as ih =>
    have hmerge := Sketch.merge_of_not_fits (s := s.distributions.get a) (t := d.get a)
      (by rw [hs a, hd a]; exact hfit)
    have hbase : (s.distributions.get a).mapping.base = make.2.2.base :=
      congrArg (·.2.2.base) (hs a)
    have hbase' : (d.get a).mapping.base = make'.2.2.base := congrArg (·.2.2.base) (hd a)
    rw [hbase, hbase'] at hmerge
    rw [List.map_cons, inTurn_cons]
    rcases mergeAttribute_cases d a s with ⟨u, hu, he⟩ | ⟨e, hu, he⟩
    all_goals rw [hu] at hmerge; rw [he]
    · rcases hmerge with h | h | h
      all_goals cases h
      rw [Distributions.set_get]
      exact ih
    · rcases hmerge with h | h | h
      all_goals cases h
      · exact .inr (.inl rfl)
      · exact .inr (.inr rfl)

/-- Merging whole merges the sketches of each attribute. -/
theorem get_mergeAttributes {d : Distributions} {as : List Attribute} (hn : as.Nodup)
    (hok : (inTurn (as.map (mergeAttribute d)) s).error = none) (a : Attribute) :
    (a ∉ as → (inTurn (as.map (mergeAttribute d)) s).value.distributions.get a =
      s.distributions.get a) ∧
    (a ∈ as → (s.distributions.get a).merge (d.get a) =
      .ok ((inTurn (as.map (mergeAttribute d)) s).value.distributions.get a)) := by
  induction as generalizing s with
  | nil => exact ⟨fun _ => rfl, fun h => absurd h List.not_mem_nil⟩
  | cons b as ih =>
    obtain ⟨hb, hn⟩ := List.nodup_cons.mp hn
    rw [List.map_cons, inTurn_cons] at hok ⊢
    rcases mergeAttribute_cases d b s with ⟨u, hu, he⟩ | ⟨e, _, he⟩
    · rw [he, Outcome.andThen_ok] at hok ⊢
      obtain ⟨hother, hmerged⟩ := ih hn hok
      rw [Distributions.get_set] at hother hmerged
      by_cases ha : a = b
      · subst ha
        rw [if_pos rfl] at hother
        rw [hother hb, hu]
        exact ⟨fun h => absurd List.mem_cons_self h, fun _ => rfl⟩
      · rw [if_neg ha] at hother hmerged
        simp only [List.mem_cons, ha, false_or]
        exact ⟨hother, hmerged⟩
    · rw [he] at hok
      cases hok

/-- What a merge leaves behind, by what has broken it off: only the counts of messages and failures, if
the sketches are of other accuracies; all but the registers, if these are of other precisions. -/
inductive Interrupted (s t : Statistics) : Failure → Statistics → Prop where
  | accuracy : Interrupted s t (.sketch .accuracyMismatch) (counted s t)
  | base (mine other : Float) : Interrupted s t (.sketch (.baseMismatch mine other)) (counted s t)
  | precision {d : Distributions}
      (hd : ∀ a, (s.distributions.get a).merge (t.distributions.get a) = .ok (d.get a)) :
      Interrupted s t .precisionMismatch
        { counted s t with
          distributions := d
          multivalue := s.multivalue + t.multivalue
          fractional := s.fractional + t.fractional
          sampled := s.sampled + t.sampled }

/-- Merging sketches changes nothing but sketches. -/
theorem value_mergeAttributes (d : Distributions) (as : List Attribute) (s : Statistics) :
    (inTurn (as.map (mergeAttribute d)) s).value =
      { s with distributions := (inTurn (as.map (mergeAttribute d)) s).value.distributions } := by
  refine Outcome.sequence_induction
    (motive := fun u : Statistics => u = { s with distributions := u.distributions }) ?_ rfl
  refine List.forall_mem_map.mpr fun a _ u hu => ?_
  rcases mergeAttribute_cases d a u with ⟨v, _, he⟩ | ⟨e, _, he⟩
  all_goals rw [he]
  · exact congrArg (fun w : Statistics => { w with distributions := u.distributions.set a v }) hu
  · exact hu

/-- Registers of one precision are merged. -/
theorem error_furtherChanges (hc : s.contexts.precision = t.contexts.precision)
    (ht : s.tags.precision = t.tags.precision) :
    (Outcome.sequence s (furtherChanges t)).error = none := by
  simp [furtherChanges, Outcome.sequence, always, mergeRegisters, Registers.merge, hc, ht]

/-- Registers of other precisions are refused, after the last counts have been added. -/
theorem furtherChanges_of_ne (hc : s.contexts.precision ≠ t.contexts.precision) :
    Outcome.sequence s (furtherChanges t) =
      ⟨{ s with
          multivalue := s.multivalue + t.multivalue
          fractional := s.fractional + t.fractional
          sampled := s.sampled + t.sampled }, some .precisionMismatch⟩ := by
  simp [furtherChanges, Outcome.sequence, always, mergeRegisters, Registers.merge, hc,
    Outcome.andThen]

/-- A merge that is broken off leaves what its failure tells. -/
theorem Uniform.interrupted (hs : s.Uniform) (ht : t.Uniform) {f : Failure}
    (herr : (s.merge t).error = some f) : Interrupted s t f (s.merge t).value := by
  rw [merge_eq] at herr ⊢
  have hmade : (counted s t).Made s.distributions.nameLength.make := hs.make
  rcases Outcome.andThen_cases (inTurn (Attribute.all.map (mergeAttribute t.distributions))
    (counted s t)) (fun s => Outcome.sequence s (furtherChanges t)) with ⟨hne, he⟩ | ⟨hwhole, he⟩
  · have hfit : ¬ Sketch.Fits s.distributions.nameLength.make t.distributions.nameLength.make :=
      fun hfit => hne (error_mergeAttributes hfit ht.make hmade Attribute.all)
    rw [he] at herr ⊢
    rcases mergeAttributes_of_not_fits hfit ht.make hmade Attribute.all with h | h | h
    all_goals
      rw [h] at herr ⊢
      cases herr
    · exact .accuracy
    · exact .base _ _
  · have hget := fun a => (get_mergeAttributes (by decide) hwhole a).2 a.mem_all
    rw [he] at herr ⊢
    rw [value_mergeAttributes] at herr ⊢
    by_cases hc : s.contexts.precision = t.contexts.precision
    · have hnone := error_furtherChanges (t := t)
        (s := { counted s t with distributions := (inTurn (Attribute.all.map
          (mergeAttribute t.distributions)) (counted s t)).value.distributions })
        hc (hs.precision ▸ ht.precision ▸ hc)
      rw [hnone] at herr
      cases herr
    · rw [furtherChanges_of_ne (by exact hc)] at herr ⊢
      cases herr
      exact .precision hget

/-- What is left behind is what was there before if the others have met nothing, and only then. -/
theorem Interrupted.eq_iff {f : Failure} {v : Statistics} (h : Interrupted s t f v) (ht : t.Regular) :
    v = s ↔ t.total = 0 := by
  have htotal : v.total = s.total + t.total := by
    cases h <;> rfl
  refine ⟨fun he => by rw [he] at htotal; omega, fun h0 => ?_⟩
  have hblank := ht.blank h0
  cases h with
  | accuracy => exact hblank.counted h0
  | base => exact hblank.counted h0
  | @precision d hd =>
    obtain rfl : d = s.distributions := Distributions.ext_get fun a =>
      Sketch.merge_of_count (hblank.distributions a) (hd a)
    rw [hblank.counted h0, hblank.multivalue, hblank.fractional, hblank.sampled]
    rfl

/-- Take statistics of any settings that some calls lead to, and let a merge of theirs be broken off. Then
what has been merged before stays merged: the counts of messages and failures if the accuracies differ, all
but the registers if the precisions differ. So nothing changes if and only if the others have met nothing at
all. -/
theorem interrupted_merge (hs : s.Reachable) (ht : t.Reachable) {f : Failure}
    (herr : (s.merge t).error = some f) :
    Interrupted s t f (s.merge t).value ∧ ((s.merge t).value = s ↔ t.total = 0) := by
  have hleft := hs.regular.toUniform.interrupted ht.regular.toUniform herr
  exact ⟨hleft, hleft.eq_iff ht.regular⟩

def coarseSettings : Settings.Analysis :=
  { Settings.Analysis.standard with accuracy := 0.02, accuracy_mem := by decide }

def failedStatistics : Statistics :=
  ((empty coarseSettings).observe (.failure ⟨.missingValue, "m", some "no value for 'm'"⟩)).value

theorem reachable_empty (cfg : Settings.Analysis) : (empty cfg).Reachable :=
  .create cfg (create_eq cfg)

theorem reachable_failedStatistics : failedStatistics.Reachable :=
  (reachable_empty coarseSettings).observe _

/-- A refused merge has counted what it did not take in. -/
theorem refused_merge_counts :
    (empty .standard).Reachable ∧ failedStatistics.Reachable ∧
      ((empty .standard).merge failedStatistics).error = some (.sketch .accuracyMismatch) ∧
      ((empty .standard).merge failedStatistics).value.total = 1 ∧
      ((empty .standard).merge failedStatistics).value ≠ empty .standard := by
  refine ⟨reachable_empty _, reachable_failedStatistics, rfl, rfl, fun h => ?_⟩
  have htotal := congrArg total h
  exact absurd htotal (by decide)

theorem interrupted_merge_failed :
    Interrupted (empty .standard) failedStatistics (.sketch .accuracyMismatch)
      ((empty .standard).merge failedStatistics).value ∧
    (((empty .standard).merge failedStatistics).value = empty .standard ↔
      failedStatistics.total = 0) :=
  interrupted_merge (reachable_empty _) reachable_failedStatistics rfl

end Statistics
end MetricCapture
