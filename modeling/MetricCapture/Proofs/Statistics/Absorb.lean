import MetricCapture.Proofs.Message.Size
import MetricCapture.Proofs.Number.Quotient
import MetricCapture.Proofs.Sketch.Sound
import MetricCapture.Proofs.Statistics.Conservation
import MetricCapture.Proofs.Statistics.Interrupted
/-! Readings of lines are absorbed whole. Whatever calls have led to statistics, every sketch has a bin for
every key and every register a place for every byte string, so that an observation is broken off only for a
value that the scale refuses. A reading of a line has none, if the scale takes all finite doubles. -/
namespace MetricCapture

open MetricCapture.Number MetricCapture.Sketch MetricCapture.Text

def Ledger.Finite (l : Ledger) : Prop :=
  ∀ a, ∀ x ∈ l.samples a, isFinite x = true

/-- Lengths of text are far below the largest double. -/
theorem Message.Within.finite_ofMessage {n : Nat} {m : Message} (h : m.Within n)
    (hn : 4 * n ≤ largest) : (Ledger.ofMessage m).Finite := by
  have hcount : ∀ k, k ≤ 4 * n → isFinite (Float.ofNat k) = true := fun k hk =>
    (isFinite_iff _).mpr (finite_ofNat (Nat.le_trans hk hn))
  have hname := Utf8.utf8ByteSize_le m.name
  have hlength := h.name
  have hvalues := h.values
  have htags := h.tags.count
  intro a
  cases a with
  | nameLength => exact List.forall_mem_singleton.mpr (hcount _ (by omega))
  | tagsPerMessage => exact List.forall_mem_singleton.mpr (hcount _ (by omega))
  | valuesPerMessage => exact List.forall_mem_singleton.mpr (hcount _ (by omega))
  | value =>
    change ∀ x ∈ if m.kind.isMetric then m.values else [], isFinite x = true
    split
    · exact h.finite
    · exact nofun
  | tagLength =>
    refine List.forall_mem_map.mpr fun tag htag => hcount _ ?_
    have hsize := Utf8.utf8ByteSize_le tag
    have heach := h.tags.each tag htag
    omega
  | unicodeTags =>
    refine List.forall_mem_singleton.mpr (hcount _ ?_)
    have hle := List.countP_le_length (p := Statistics.beyondAscii) (l := m.tags)
    omega

/-- Whatever a line is read as, its samples are finite, if its length is no more than a machine word. -/
theorem Reading.finite_ofLine {line : String} (hline : line.length < 2 ^ (64 : Nat)) {r : Reading}
    (h : ofLine line = .ok r) : (Ledger.ofReading r).Finite := by
  unfold ofLine at h
  dsimp only at h
  split at h
  · cases h
    exact fun a => nofun
  split at h
  · rename_i m hm
    cases h
    refine (Message.within_parseTrimmed hm).finite_ofMessage ?_
    have hlength : (trimEnd line.toList).length ≤ line.length := by
      unfold trimEnd
      rw [List.length_reverse, ← String.length_toList, ← line.toList.length_reverse]
      exact (List.dropWhile_sublist _).length_le
    have hlargest : 4 * (4 * 2 ^ (64 : Nat) + 1) ≤ largest := by decide +kernel
    omega
  · cases h
    exact fun a => nofun
  · cases h

namespace Statistics

/-- What statistics with some settings keep of a ledger, whatever calls have led to them: its figures, and its
byte strings in the registers. The sketches are sound. -/
structure Holds (cfg : Settings.Analysis) (l : Ledger) (s : Statistics) : Prop extends Tallied l s where
  sound : ∀ a, (s.distributions.get a).Sound cfg.accuracy
  contexts : s.contexts.Represents cfg.precision l.contexts
  tags : s.tags.Represents cfg.precision l.tags

/-- A step that takes in a ledger whole, or is broken off if there is something in it that cannot be taken
in. -/
def Change.Absorbs (cfg : Settings.Analysis) (c : Change) (m : Ledger) : Prop :=
  ∀ l s, s.Holds cfg l →
    (m.Accepted cfg.accuracy ∧ (c s).error = none ∧ (c s).value.Holds cfg (l ++ m)) ∨
    (¬ m.Accepted cfg.accuracy ∧ (c s).error ≠ none ∧ ∃ l', (c s).value.Holds cfg l')

variable {cfg : Settings.Analysis} {l m : Ledger} {s t : Statistics}

/-- Figures other than the sketches are added to what statistics hold. -/
theorem Holds.add (h : s.Holds cfg l) (ht : t.Tallied (l ++ m))
    (hd : t.distributions = s.distributions) (hc : t.contexts = s.contexts) (hg : t.tags = s.tags)
    (hcontexts : m.contexts = []) (htags : m.tags = []) : t.Holds cfg (l ++ m) := by
  refine { ht with sound := ?_, contexts := ?_, tags := ?_ }
  · rw [hd]
    exact h.sound
  · rw [hc, Ledger.append_contexts, hcontexts]
    exact h.contexts.append_nil
  · rw [hg, Ledger.append_tags, htags]
    exact h.tags.append_nil

/-- Another sketch for one attribute is sound as well. -/
theorem Holds.withSketch (h : s.Holds cfg l) {a : Attribute} {xs : List Float} {sketch : Sketch}
    (hcounts : sketch.Counts (l.samples a ++ xs)) (hsound : sketch.Sound cfg.accuracy) :
    Holds cfg (l ++ .single a xs) { s with distributions := s.distributions.set a sketch } := by
  refine { h.toTallied.withSketch hcounts with sound := fun b => ?_, contexts := ?_, tags := ?_ }
  · dsimp only
    rw [Distributions.get_set]
    split
    · exact hsound
    · exact h.sound b
  · exact h.contexts.append_nil
  · exact h.tags.append_nil

/-- Byte strings are seen by the registers. -/
theorem Holds.withItems (h : s.Holds cfg l) (cs ts : List Bytes) {c t : Registers}
    (hc : c.Represents cfg.precision (l.contexts ++ cs))
    (ht : t.Represents cfg.precision (l.tags ++ ts)) :
    Holds cfg (l ++ { contexts := cs, tags := ts }) { s with contexts := c, tags := t } :=
  { h.toTallied.withItems cs ts c t with sound := h.sound, contexts := hc, tags := ht }

theorem absorbs_always {f : Statistics → Statistics} (hadds : (always f).Adds m)
    (hreasons : Reason.emptyLine ∉ m.reasons) (hsamples : ∀ a, m.samples a = [])
    (h : ∀ l s, s.Holds cfg l → (f s).Tallied (l ++ m) → (f s).Holds cfg (l ++ m)) :
    (always f).Absorbs cfg m := by
  intro l s hs
  refine .inl ⟨⟨hreasons, fun a x hx => ?_⟩, rfl, h l s hs (hadds l s hs.toTallied rfl)⟩
  rw [hsamples] at hx
  exact absurd hx List.not_mem_nil

theorem absorbs_record (a : Attribute) (x : Float) : (record a x).Absorbs cfg (.single a [x]) := by
  intro l s h
  rw [Ledger.accepted_single, ← (h.sound a).mapping_eq, ← Sketch.exists_add_iff]
  have hadds := adds_record a x l s h.toTallied
  unfold record at hadds ⊢
  cases hadd : (s.distributions.get a).add x with
  | error e =>
    refine .inr ⟨?_, nofun, l, h⟩
    rintro ⟨t, ht⟩
    cases ht
  | ok sketch =>
    exact .inl ⟨⟨sketch, rfl⟩, rfl,
      h.withSketch ((h.distributions a).add hadd) ((h.sound a).add hadd)⟩

/-- Steps take in a ledger each, one after the other, up to the first that cannot. -/
theorem absorbs_inTurn {cs : List Change} {ms : List Ledger}
    (h : List.Forall₂ (Change.Absorbs cfg) cs ms) : (inTurn cs).Absorbs cfg (.all ms) := by
  induction h with
  | nil =>
    intro l s hs
    refine .inl ⟨Ledger.accepted_empty _, rfl, ?_⟩
    change s.Holds cfg (l ++ ({} : Ledger))
    rwa [Ledger.append_empty]
  | @cons c m cs ms hc _ ih =>
    intro l s hs
    have hcons : inTurn (c :: cs) s = (c s).andThen (inTurn cs) := Outcome.sequence_cons s c cs
    change ((m ++ Ledger.all ms).Accepted _ ∧ _ ∧ Holds cfg (l ++ (m ++ .all ms)) _) ∨
      (¬ (m ++ Ledger.all ms).Accepted _ ∧ _)
    rw [hcons, Ledger.accepted_append, ← Ledger.append_assoc]
    rcases hc l s hs with ⟨hm, hnone, hvalue⟩ | ⟨hm, hsome, hvalue⟩
    · rw [Outcome.andThen_of_none hnone]
      rcases ih _ _ hvalue with ⟨hms, hrest⟩ | ⟨hms, hrest⟩
      · exact .inl ⟨⟨hm, hms⟩, hrest⟩
      · exact .inr ⟨fun h => hms h.2, hrest⟩
    · refine .inr ⟨fun h => hm h.1, ?_⟩
      rcases Outcome.andThen_cases (c s) (inTurn cs) with ⟨_, he⟩ | ⟨hnone, _⟩
      · rw [he]
        exact ⟨hsome, hvalue⟩
      · exact absurd hnone hsome

/-- Every step that takes in a message absorbs its ledger. -/
theorem stepwise_absorbs (cfg : Settings.Analysis) : Stepwise (Change.Absorbs cfg) where
  kind m := absorbs_always (adds_kind m.kind) List.not_mem_nil (fun _ => rfl)
    fun l s h ht => h.add ht rfl rfl rfl rfl rfl
  sample := absorbs_record
  counts m := absorbs_always (adds_counts _ _) List.not_mem_nil (fun _ => rfl)
    fun l s h ht => h.add ht rfl rfl rfl rfl rfl
  fraction x := by
    refine absorbs_always (stepwise_adds.fraction x) List.not_mem_nil (fun _ => rfl) fun l s h ht => ?_
    refine h.add ht ?_ ?_ ?_ rfl rfl <;> split <;> rfl
  context m := absorbs_always (stepwise_adds.context m) List.not_mem_nil (fun _ => rfl)
    fun l s h _ => h.withItems [contextKey m] [] (h.contexts.observe_append _) h.tags.append_nil
  tags m := absorbs_always (stepwise_adds.tags m) List.not_mem_nil (fun _ => rfl)
    fun l s h _ =>
      h.withItems [] _ h.contexts.append_nil (h.tags.foldl_append Utf8.ofString m.tags)

/-- Observing a reading absorbs the ledger of it. -/
theorem absorbs_observe (r : Reading) : Change.Absorbs cfg (·.observe r) (.ofReading r) := by
  cases r with
  | message m =>
    change (inTurn (messageChanges m)).Absorbs cfg (.ofMessage m)
    rw [← all_messageParts]
    exact absorbs_inTurn ((stepwise_absorbs cfg).messageChanges m)
  | failure f =>
    intro l s h
    have hadds := adds_observe (.failure f) l s h.toTallied
    change (Ledger.Accepted _ { reasons := [f.reason] } ∧ (observeFailure f.reason s).error = none ∧
        Holds cfg (l ++ { reasons := [f.reason] }) (observeFailure f.reason s).value) ∨
      (¬ Ledger.Accepted _ { reasons := [f.reason] } ∧ (observeFailure f.reason s).error ≠ none ∧
        ∃ l', Holds cfg l' (observeFailure f.reason s).value)
    change (observeFailure f.reason s).error = none →
      (observeFailure f.reason s).value.Tallied (l ++ { reasons := [f.reason] }) at hadds
    unfold observeFailure at hadds ⊢
    split at hadds
    · rename_i hf
      rw [if_pos hf]
      refine .inr ⟨fun ha => ha.reasons ?_, nofun, l, h⟩
      rw [← hf]
      exact List.mem_singleton_self _
    · rename_i hf
      rw [if_neg hf]
      have hr : Reason.emptyLine ∉ [f.reason] := fun he => hf (List.mem_singleton.mp he).symm
      exact .inl ⟨⟨hr, fun a x => nofun⟩, rfl, h.add (hadds rfl) rfl rfl rfl rfl rfl⟩

/-- A merge of statistics, broken off or not, leaves them with what some ledger tells. -/
theorem Holds.merge (h : s.Holds cfg l) (ht : t.Holds cfg m) :
    ∃ l', (s.merge t).value.Holds cfg l' := by
  refine Outcome.sequence_induction (motive := fun u : Statistics => ∃ l', u.Holds cfg l') ?_ ⟨l, h⟩
  unfold mergeChanges
  simp only [List.forall_mem_append, List.forall_mem_cons, List.forall_mem_map]
  refine ⟨⟨⟨?_, nofun⟩, fun a _ => ?_⟩, ?_, ?_, ?_, nofun⟩
  · rintro u ⟨l', hu⟩
    exact ⟨_, hu.add (adds_counted ht.toTallied l' u hu.toTallied rfl) rfl rfl rfl rfl rfl⟩
  · rintro u ⟨l', hu⟩
    rcases mergeAttribute_cases t.distributions a u with ⟨v, hv, he⟩ | ⟨e, _, he⟩
    all_goals rw [he]
    · exact ⟨_, hu.withSketch ((hu.distributions a).merge (ht.distributions a) hv)
        ((hu.sound a).merge (ht.sound a) hv)⟩
    · exact ⟨l', hu⟩
  · rintro u ⟨l', hu⟩
    exact ⟨_, hu.add (adds_numbers ht.toTallied l' u hu.toTallied rfl) rfl rfl rfl rfl rfl⟩
  · rintro u ⟨l', hu⟩
    obtain ⟨r, hmerge, hr⟩ := hu.contexts.merge ht.contexts
    unfold mergeRegisters
    rw [hmerge]
    exact ⟨_, hu.withItems m.contexts [] hr hu.tags.append_nil⟩
  · rintro u ⟨l', hu⟩
    obtain ⟨r, hmerge, hr⟩ := hu.tags.merge ht.tags
    unfold mergeRegisters
    rw [hmerge]
    exact ⟨_, hu.withItems [] m.tags hu.contexts.append_nil hr⟩

/-- Statistics that observations, and merges with others of the same settings, lead to, whether these are
broken off or not. -/
inductive Reached (cfg : Settings.Analysis) : Statistics → Prop where
  | create {s : Statistics} (h : create cfg = .ok s) : Reached cfg s
  | observe {s : Statistics} (hs : Reached cfg s) (r : Reading) : Reached cfg (s.observe r).value
  | merge {s t : Statistics} (hs : Reached cfg s) (ht : Reached cfg t) : Reached cfg (s.merge t).value

theorem holds_create (h : create cfg = .ok s) : s.Holds cfg {} := by
  have htallied := tallied_create h
  obtain rfl : empty cfg = s := Except.ok.inj ((create_eq cfg).symm.trans h)
  have hrep := represents_empty cfg
  exact
    { htallied with
      sound := fun a => (hrep.distributions a).sound (binLimit_pos cfg)
      contexts := hrep.contexts
      tags := hrep.tags }

theorem Reached.holds (h : s.Reached cfg) : ∃ l, s.Holds cfg l := by
  induction h with
  | create h => exact ⟨_, holds_create h⟩
  | @observe s _ r ih =>
    obtain ⟨l, hl⟩ := ih
    rcases absorbs_observe r l s hl with ⟨_, _, hvalue⟩ | ⟨_, _, hvalue⟩
    · exact ⟨_, hvalue⟩
    · exact hvalue
  | merge _ _ ihs iht =>
    obtain ⟨l, hl⟩ := ihs
    obtain ⟨m, hm⟩ := iht
    exact hl.merge hm

/-- Statistics with a bin for every key in every sketch, and a place for every byte string in the
registers. -/
structure HasRoom (s : Statistics) : Prop where
  stores : ∀ a, (s.distributions.get a).Both Store.HasRoom
  contexts : ∀ bs, s.contexts.HasRoom bs
  tags : ∀ bs, s.tags.HasRoom bs

theorem Holds.hasRoom (h : s.Holds cfg l) : s.HasRoom where
  stores a := ⟨(h.sound a).stores.positive.hasRoom, (h.sound a).stores.negative.hasRoom⟩
  contexts := h.contexts.hasRoom (Nat.le_trans cfg.precision_mem.2 (by decide))
  tags := h.tags.hasRoom (Nat.le_trans cfg.precision_mem.2 (by decide))

/-- A reading of an empty line is refused. -/
theorem observe_of_emptyLine {r : Reading} (h : .emptyLine ∈ (Ledger.ofReading r).reasons) (s : Statistics) :
    s.observe r = ⟨s, some .emptyLine⟩ := by
  cases r with
  | message m => exact absurd h List.not_mem_nil
  | failure f =>
    change observeFailure f.reason s = _
    rw [← List.mem_singleton.mp h]
    rfl

/-- Take statistics that observations, and merges with others of the same settings, lead to, and a line that
is read. There is room in them for whatever can be told. If the line is empty, they refuse it and stay as they
are. Else they take its reading in whole exactly if the scale accepts what it tells, as it does if it accepts
all finite doubles: the length of a line in memory fits a word, so no length of its parts is too large for a
double. -/
theorem observe_ofLine (hs : s.Reached cfg) {line : String} {r : Reading}
    (hr : Reading.ofLine line = .ok r) :
    s.HasRoom ∧ (∃ l, s.Holds cfg l) ∧
      (.emptyLine ∈ (Ledger.ofReading r).reasons → s.observe r = ⟨s, some .emptyLine⟩) ∧
      (.emptyLine ∉ (Ledger.ofReading r).reasons →
        (line.length < 2 ^ (64 : Nat) →
          (∀ x, isFinite x = true → (Mapping.ofAccuracy cfg.accuracy).Accepts x) →
          (s.observe r).error = none) ∧
        ((s.observe r).error = none ↔
          ∀ a, ∀ x ∈ (Ledger.ofReading r).samples a, (Mapping.ofAccuracy cfg.accuracy).Accepts x) ∧
        ((s.observe r).error = none →
          ∀ l, s.Holds cfg l → (s.observe r).value.Holds cfg (l ++ .ofReading r))) := by
  obtain ⟨l, hl⟩ := hs.holds
  refine ⟨hl.hasRoom, ⟨l, hl⟩, fun hempty => observe_of_emptyLine hempty s, fun hsome => ?_⟩
  have haccepted : (s.observe r).error = none ↔
      ∀ a, ∀ x ∈ (Ledger.ofReading r).samples a, (Mapping.ofAccuracy cfg.accuracy).Accepts x := by
    rcases absorbs_observe r l s hl with ⟨haccepts, hnone, _⟩ | ⟨hrefuses, herror, _⟩
    · exact iff_of_true hnone haccepts.samples
    · exact iff_of_false herror fun h => hrefuses ⟨hsome, h⟩
  refine ⟨fun hline htotal => ?_, haccepted, fun hnone l' hl' => ?_⟩
  · exact haccepted.mpr fun a x hx => htotal x (Reading.finite_ofLine hline hr a x hx)
  · rcases absorbs_observe r l' s hl' with ⟨_, _, hvalue⟩ | ⟨_, herror, _⟩
    · exact hvalue
    · exact absurd hnone herror

/-- Statistics of a metric, into which those of a line that fails and of a metric are merged. -/
def mergedStatistics : Statistics :=
  let other := ((empty .standard).observe (readingOf "m")).value.observe (readingOf "b:2|c|#y")
  (((empty .standard).observe (readingOf "a:1|g|#x")).value.merge other.value).value

theorem reached_mergedStatistics : mergedStatistics.Reached .standard := by
  have hempty : (empty .standard).Reached .standard := .create (create_eq .standard)
  exact (hempty.observe _).merge ((hempty.observe _).observe _)

theorem observe_mergedStatistics :
    mergedStatistics.valid = 2 ∧ mergedStatistics.failed = 1 ∧
      (mergedStatistics.observe (readingOf "a:1:-2|g|#x,y")).error = none ∧
      ∃ l, mergedStatistics.Holds .standard l ∧
        (mergedStatistics.observe (readingOf "a:1:-2|g|#x,y")).value.Holds .standard
          (l ++ .ofReading (readingOf "a:1:-2|g|#x,y")) := by
  have hline : Reading.ofLine "a:1:-2|g|#x,y" = .ok (readingOf "a:1:-2|g|#x,y") :=
    ofLine_readingOf (by decide +kernel)
  obtain ⟨-, ⟨l, hl⟩, -, hsome⟩ := observe_ofLine reached_mergedStatistics hline
  obtain ⟨-, -, hholds⟩ := hsome (by decide +kernel)
  have hnone : (mergedStatistics.observe (readingOf "a:1:-2|g|#x,y")).error.isNone = true := by
    decide +kernel
  rw [Option.isNone_iff_eq_none] at hnone
  exact ⟨by decide +kernel, by decide +kernel, hnone, l, hl, hholds hnone l hl⟩

end Statistics
end MetricCapture
