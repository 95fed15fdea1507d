import MetricCapture.Proofs.Attempt
import MetricCapture.Proofs.Statistics.Figures
import MetricCapture.Proofs.Statistics.Shards
import MetricCapture.Proofs.Message.Line
/-! Conservation: the figures of statistics that any run of observations and merges has left agree with
each other, whatever settings each of the statistics has. -/
namespace MetricCapture

def Message.Plain (m : Message) : Prop :=
  m.kind.isMetric = false → m.values.length = 1 ∧ m.rate = none

namespace Message

theorem Metric.isMetric_of_kindOf? {code : List Char} {k : Kind} (h : kindOf? code = some k) :
    k.isMetric = true := by
  unfold kindOf? at h
  split at h <;> cases h <;> rfl

theorem Metric.isMetric_of_parse {text : List Char} {m : Message} (h : parse text = .ok m) :
    m.kind.isMetric = true := by
  unfold parse at h
  obtain ⟨head, _, h⟩ := bind_eq_ok_iff.mp h
  obtain ⟨kind, hkind, h⟩ := bind_eq_ok_iff.mp h
  obtain ⟨ext, _, h⟩ := bind_eq_ok_iff.mp h
  cases h
  unfold readKind at hkind
  split at hkind
  · cases hkind
  · split at hkind
    · cases hkind
      exact isMetric_of_kindOf? ‹_›
    · cases hkind

theorem ServiceCheck.plain_of_parse {text : List Char} {m : Message} (h : parse text = .ok m) :
    m.Plain := by
  unfold parse at h
  dsimp only at h
  split at h
  · cases h
  split at h
  · cases h
  obtain ⟨value, _, h⟩ := bind_eq_ok_iff.mp h
  obtain ⟨notes, _, h⟩ := bind_eq_ok_iff.mp h
  cases h
  exact fun _ => ⟨rfl, rfl⟩

theorem Notice.plain_of_parse {text : List Char} {m : Message} (h : parse text = .ok m) :
    m.Plain := by
  unfold parse at h
  split at h
  · cases h
  obtain ⟨n, _, h⟩ := bind_eq_ok_iff.mp h
  obtain ⟨k, _, h⟩ := bind_eq_ok_iff.mp h
  obtain ⟨parts, _, h⟩ := bind_eq_ok_iff.mp h
  obtain ⟨notes, _, h⟩ := bind_eq_ok_iff.mp h
  cases h
  exact fun _ => ⟨rfl, rfl⟩

theorem plain_of_ofLine {line : String} {m : Message} (h : Reading.ofLine line = .ok (.message m)) :
    m.Plain := by
  have hm := parseTrimmed_of_ofLine h
  unfold parseTrimmed at hm
  split at hm
  · exact ServiceCheck.plain_of_parse hm
  · split at hm
    · exact Notice.plain_of_parse hm
    · exact fun hk => absurd (Metric.isMetric_of_parse hm) (by rw [hk]; exact Bool.false_ne_true)

end Message

namespace Statistics

def messages (rs : List Reading) : List Message :=
  rs.filterMap fun
    | .message m => some m
    | .failure _ => none

def metrics (s : Statistics) : Nat :=
  ((Kind.all.filter Kind.isMetric).map s.byKind.count).sum

/-- The figures of statistics that have met some readings agree with each other and with the exact sums
over the messages among them. -/
structure Conserved (rs : List Reading) (s : Statistics) : Prop where
  total : s.total = s.valid + s.failed
  valid : s.valid = s.byKind.total
  failed : s.failed = s.byReason.total
  perMessage : ∀ a ∈ [Attribute.nameLength, .tagsPerMessage, .valuesPerMessage, .unicodeTags],
    (s.distributions.get a).count = s.valid
  tagLength : s.distributions.tagLength.count = ((messages rs).map (·.tags.length)).sum
  tagsPerMessage : ((messages rs).map (·.tags.length)).sum ≤ 2 ^ (53 : Nat) →
    Number.IsWhole s.distributions.tagsPerMessage.sum ((messages rs).map (·.tags.length)).sum
  value : s.distributions.value.count + s.byKind.count .serviceCheck + s.byKind.count .event =
    ((messages rs).map (·.values.length)).sum
  valuesPerMessage : ((messages rs).map (·.values.length)).sum ≤ 2 ^ (53 : Nat) →
    Number.IsWhole s.distributions.valuesPerMessage.sum ((messages rs).map (·.values.length)).sum
  fractional : s.fractional ≤ s.distributions.value.count
  multivalue : s.multivalue ≤ s.metrics
  sampled : s.sampled ≤ s.metrics

end Statistics

namespace Ledger
open Statistics

theorem ofReadings_cons (r : Reading) (rs : List Reading) :
    ofReadings (r :: rs) = ofReading r ++ ofReadings rs := rfl

/-- Every message has one sample of each attribute of messages. -/
theorem length_samples (rs : List Reading) {a : Attribute}
    (ha : a ∈ [Attribute.nameLength, .tagsPerMessage, .valuesPerMessage, .unicodeTags]) :
    ((ofReadings rs).samples a).length = (ofReadings rs).kinds.length := by
  simp only [List.mem_cons, List.not_mem_nil, or_false] at ha
  induction rs with
  | nil => rfl
  | cons r rs ih =>
    rw [ofReadings_cons, append_samples, append_kinds, List.length_append, List.length_append, ih]
    cases r with
    | failure f => rfl
    | message m => rcases ha with rfl | rfl | rfl | rfl <;> rfl

theorem samples_tagsPerMessage (rs : List Reading) :
    (ofReadings rs).samples .tagsPerMessage =
      ((messages rs).map (·.tags.length)).map Float.ofNat := by
  induction rs with
  | nil => rfl
  | cons r rs ih =>
    rw [ofReadings_cons, append_samples, ih]
    cases r <;> rfl

theorem samples_valuesPerMessage (rs : List Reading) :
    (ofReadings rs).samples .valuesPerMessage =
      ((messages rs).map (·.values.length)).map Float.ofNat := by
  induction rs with
  | nil => rfl
  | cons r rs ih =>
    rw [ofReadings_cons, append_samples, ih]
    cases r <;> rfl

theorem length_samples_tagLength (rs : List Reading) :
    ((ofReadings rs).samples .tagLength).length = ((messages rs).map (·.tags.length)).sum := by
  induction rs with
  | nil => rfl
  | cons r rs ih =>
    rw [ofReadings_cons, append_samples, List.length_append, ih]
    cases r <;> simp [ofReading, ofMessage, messages]

/-- A message has its values in the sketch of values if it is a metric, and else a single one. -/
theorem length_samples_ofMessage {m : Message} (h : m.Plain) :
    ((ofMessage m).samples .value).length + (ofMessage m).kinds.count .serviceCheck +
      (ofMessage m).kinds.count .event = m.values.length := by
  unfold Message.Plain at h
  change (if m.kind.isMetric = true then m.values else []).length + [m.kind].count .serviceCheck +
    [m.kind].count .event = _
  cases hk : m.kind <;> simp [hk, Kind.isMetric] at h ⊢ <;> omega

theorem length_samples_value {rs : List Reading} (h : ∀ m ∈ messages rs, m.Plain) :
    ((ofReadings rs).samples .value).length + (ofReadings rs).kinds.count .serviceCheck +
      (ofReadings rs).kinds.count .event = ((messages rs).map (·.values.length)).sum := by
  induction rs with
  | nil => rfl
  | cons r rs ih =>
    rw [ofReadings_cons, append_samples, append_kinds, List.length_append, List.count_append,
      List.count_append]
    cases r with
    | failure f =>
      change _ = ((messages rs).map (·.values.length)).sum
      rw [← ih h]
      simp [ofReading]
    | message m =>
      obtain ⟨hm, hrest⟩ := List.forall_mem_cons.mp h
      have hone := length_samples_ofMessage hm
      have hall := ih hrest
      change _ = m.values.length + ((messages rs).map (·.values.length)).sum
      change ((ofMessage m).samples .value).length + _ + ((ofMessage m).kinds.count _ + _) +
        ((ofMessage m).kinds.count _ + _) = _
      omega

theorem fractional_le (rs : List Reading) :
    (ofReadings rs).fractional ≤ ((ofReadings rs).samples .value).length := by
  induction rs with
  | nil => exact Nat.le_refl _
  | cons r rs ih =>
    rw [ofReadings_cons, append_samples, append_fractional, List.length_append]
    refine Nat.add_le_add ?_ ih
    cases r with
    | failure f => exact Nat.le_refl _
    | message m =>
      cases hm : m.kind.isMetric
      · simp [ofReading, ofMessage, hm]
      · simp [ofReading, ofMessage, hm, List.countP_le_length]

theorem counts_ofMessage_le {m : Message} (h : m.Plain) :
    (ofMessage m).multivalue ≤ (ofMessage m).kinds.countP Kind.isMetric ∧
      (ofMessage m).sampled ≤ (ofMessage m).kinds.countP Kind.isMetric := by
  unfold ofMessage
  dsimp only
  rw [List.countP_singleton]
  cases hm : m.kind.isMetric
  · obtain ⟨hvalues, hrate⟩ := h hm
    simp [hvalues, hrate]
  · constructor
    · split <;> simp
    · split <;> simp

/-- Only metrics have several values or a rate. -/
theorem counts_le {rs : List Reading} (h : ∀ m ∈ messages rs, m.Plain) :
    (ofReadings rs).multivalue ≤ (ofReadings rs).kinds.countP Kind.isMetric ∧
      (ofReadings rs).sampled ≤ (ofReadings rs).kinds.countP Kind.isMetric := by
  induction rs with
  | nil => exact ⟨Nat.le_refl _, Nat.le_refl _⟩
  | cons r rs ih =>
    rw [ofReadings_cons, append_multivalue, append_sampled, append_kinds, List.countP_append]
    cases r with
    | failure f => simpa [ofReading] using ih h
    | message m =>
      obtain ⟨hm, hrest⟩ := List.forall_mem_cons.mp h
      exact ⟨Nat.add_le_add (counts_ofMessage_le hm).1 (ih hrest).1,
        Nat.add_le_add (counts_ofMessage_le hm).2 (ih hrest).2⟩

end Ledger

namespace Statistics

/-- Statistics that have been told readings of lines have figures that agree. -/
theorem Tallied.conserved {rs : List Reading} {s : Statistics} (h : s.Tallied (.ofReadings rs))
    (hplain : ∀ m ∈ messages rs, m.Plain) : s.Conserved rs := by
  have hkind : ∀ k : Kind, s.byKind.count k = (Ledger.ofReadings rs).kinds.count k := by
    intro k
    rw [h.byKind, Tally.count_ofItems (by cases k <;> decide)]
  have hmetrics : s.metrics = (Ledger.ofReadings rs).kinds.countP Kind.isMetric := by
    have hcounts : s.byKind.count = (Ledger.ofReadings rs).kinds.count := funext hkind
    unfold metrics
    rw [hcounts, Tally.sum_count (by decide)]
    congr 1
    funext k
    cases k <;> rfl
  have hcount := fun a => (h.distributions a).count
  have hsum := fun a => (h.distributions a).sum
  refine ⟨?_, ?_, ?_, ?_, ?_, ?_, ?_, ?_, ?_, ?_, ?_⟩
  · rw [h.total, h.valid, h.failed]
  · rw [h.valid, h.byKind, Tally.total_ofItems (by decide) fun k _ => by cases k <;> decide]
  · rw [h.failed, h.byReason, Tally.total_ofItems (by decide)]
    intro r hr
    cases r
    case emptyLine => exact absurd hr h.reasons
    all_goals decide
  · intro a ha
    rw [hcount, h.valid, Ledger.length_samples rs ha]
  · exact (hcount .tagLength).trans (Ledger.length_samples_tagLength rs)
  · exact hsum .tagsPerMessage _ (Ledger.samples_tagsPerMessage rs)
  · rw [hkind, hkind, ← Ledger.length_samples_value hplain]
    exact congrArg (· + _ + _) (hcount .value)
  · exact hsum .valuesPerMessage _ (Ledger.samples_valuesPerMessage rs)
  · rw [h.fractional]
    exact Nat.le_trans (Ledger.fractional_le rs) (Nat.le_of_eq (hcount .value).symm)
  · rw [h.multivalue, hmetrics]
    exact (Ledger.counts_le hplain).1
  · rw [h.sampled, hmetrics]
    exact (Ledger.counts_le hplain).2

theorem tallied_create {cfg : Settings.Analysis} {s : Statistics} (h : create cfg = .ok s) :
    s.Tallied {} := by
  obtain rfl : empty cfg = s := Except.ok.inj ((create_eq cfg).symm.trans h)
  refine ⟨List.not_mem_nil, rfl, rfl, rfl, rfl, rfl, fun a => ?_, rfl, rfl, rfl⟩
  cases a <;> exact ⟨rfl, Sketch.sumsTo_nil⟩

section Runs

variable {ι : Type} [DecidableEq ι] {held : ι → List Reading} {shards fresh : ι → Statistics}

theorem tallied_replace (h : ∀ i, (shards i).Tallied (.ofReadings (held i))) (i : ι) {s : Statistics}
    {rs : List Reading} (hs : s.Tallied (.ofReadings (held i ++ rs))) (j : ι) :
    (replace shards i s j).Tallied (.ofReadings (replace held i (held i ++ rs) j)) := by
  unfold replace
  by_cases hj : j = i
  · rw [if_pos hj, if_pos hj]
    exact hs
  · rw [if_neg hj, if_neg hj]
    exact h j

/-- A move that is not broken off leaves every shard told what it holds. -/
theorem tallied_move (h : ∀ i, (shards i).Tallied (.ofReadings (held i))) {m : Move ι}
    (hok : (move shards m).error = none) (i : ι) :
    ((move shards m).value i).Tallied (.ofReadings (hold held m i)) := by
  cases m with
  | observe j r =>
    refine tallied_replace h j ?_ i
    rw [Ledger.ofReadings_append, Ledger.ofReadings_cons]
    change Tallied (_ ++ (Ledger.ofReading r ++ ({} : Ledger))) _
    rw [Ledger.append_empty]
    exact adds_observe r _ _ (h j) hok
  | merge j k =>
    refine tallied_replace h j ?_ i
    rw [Ledger.ofReadings_append]
    exact adds_merge (h k) _ _ (h j) hok

def runFrom (fresh : ι → Statistics) (moves : List (Move ι)) : Outcome Failure (ι → Statistics) :=
  Outcome.each move fresh moves

/-- As long as no move is broken off, every shard has been told what it holds. -/
theorem tallied_run (hfresh : ∀ i, (fresh i).Tallied {}) {moves : List (Move ι)}
    (hok : (runFrom fresh moves).error = none) (i : ι) :
    ((runFrom fresh moves).value i).Tallied (.ofReadings (holdings moves i)) := by
  induction moves using List.reverseRecOn generalizing i with
  | nil => exact hfresh i
  | append_singleton moves m ih =>
    have hrun : runFrom fresh (moves ++ [m]) = (runFrom fresh moves).andThen (move · m) :=
      Outcome.each_concat move fresh moves m
    rw [hrun] at hok ⊢
    obtain ⟨hbefore, hmove⟩ := (Outcome.error_andThen _ _).mp hok
    rw [Outcome.andThen_of_none hbefore, holdings_append]
    exact tallied_move (ih hbefore) hmove i

/-- Shards hold nothing but what has been observed. -/
theorem mem_readings_of_mem_holdings {moves : List (Move ι)} {i : ι} {r : Reading}
    (h : r ∈ holdings moves i) : r ∈ readings moves := by
  induction moves using List.reverseRecOn generalizing i with
  | nil => exact absurd h List.not_mem_nil
  | append_singleton moves m ih =>
    rw [holdings_append] at h
    rw [readings_append]
    have hreplace : ∀ j rs, r ∈ replace (holdings moves) j rs i → r ∈ rs ∨ r ∈ holdings moves i := by
      intro j rs hr
      unfold replace at hr
      split at hr
      · exact .inl hr
      · exact .inr hr
    cases m with
    | observe j r' =>
      rcases hreplace j _ h with h | h
      · rcases List.mem_append.mp h with h | h
        · exact List.mem_append_left _ (ih h)
        · exact List.mem_append_right _ h
      · exact List.mem_append_left _ (ih h)
    | merge j k =>
      rcases hreplace j _ h with h | h
      · rcases List.mem_append.mp h with h | h
        · exact List.mem_append_left _ (ih h)
        · exact List.mem_append_left _ (ih h)
      · exact List.mem_append_left _ (ih h)

/-- Begin with shards of any settings, and let them observe readings of lines and merge each other, or
themselves, in any order. If nothing is broken off, the figures of every shard agree with each other and
with the exact sums over the messages that it holds. -/
theorem conserved_of_run {cfgs : ι → Settings.Analysis} (hfresh : ∀ i, create (cfgs i) = .ok (fresh i))
    {moves : List (Move ι)} (hread : ∀ r ∈ readings moves, ∃ line, Reading.ofLine line = .ok r)
    (hok : (runFrom fresh moves).error = none) (i : ι) :
    ((runFrom fresh moves).value i).Conserved (holdings moves i) := by
  refine (tallied_run (fun i => tallied_create (hfresh i)) hok i).conserved fun m hm => ?_
  obtain ⟨r, hr, hrm⟩ := List.mem_filterMap.mp hm
  obtain ⟨line, hline⟩ := hread r (mem_readings_of_mem_holdings hr)
  cases r with
  | failure f => cases hrm
  | message m' =>
    cases hrm
    exact Message.plain_of_ofLine hline

end Runs

def unequalSettings (i : Bool) : Settings.Analysis :=
  { Settings.Analysis.standard with
    binLimit := if i then 16 else 2048
    le_binLimit := by cases i <;> decide }

/-- Metrics and a line that fails, taken in by two shards; then a merge of both, and one of the first with
itself. -/
def valuedMoves : List (Move Bool) :=
  [.observe false (readingOf "a:1:-2|g|#x,y"), .observe true (readingOf "b:2|c|@1|#y"),
    .observe true (readingOf "m"), .merge false true, .merge false false]

theorem conserved_valuedMoves :
    ((runFrom (fun i => empty (unequalSettings i)) valuedMoves).value false).valid = 4 ∧
      ((runFrom (fun i => empty (unequalSettings i)) valuedMoves).value false).failed = 2 ∧
      ((runFrom (fun i => empty (unequalSettings i)) valuedMoves).value false).distributions.value.count = 6 ∧
      ((runFrom (fun i => empty (unequalSettings i)) valuedMoves).value false).Conserved
        (holdings valuedMoves false) := by
  have hread : ∀ r ∈ readings valuedMoves, ∃ line, Reading.ofLine line = .ok r := by
    refine List.forall_mem_cons.mpr ⟨⟨_, ofLine_readingOf (by decide +kernel)⟩, ?_⟩
    refine List.forall_mem_cons.mpr ⟨⟨_, ofLine_readingOf (by decide +kernel)⟩, ?_⟩
    exact List.forall_mem_singleton.mpr ⟨_, ofLine_readingOf (by decide +kernel)⟩
  have hok : (runFrom (fun i => empty (unequalSettings i)) valuedMoves).error.isNone = true := by
    decide +kernel
  exact ⟨by decide +kernel, by decide +kernel, by decide +kernel,
    conserved_of_run (fun i => create_eq (unequalSettings i)) hread (Option.isNone_iff_eq_none.mp hok)
      false⟩

end Statistics
end MetricCapture
