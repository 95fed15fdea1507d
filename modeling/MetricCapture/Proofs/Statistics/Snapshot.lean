import MetricCapture.Proofs.Attempt
import MetricCapture.Proofs.Message.Trace
import MetricCapture.Proofs.Sketch.Outcome
import MetricCapture.Statistics.Snapshot
/-! Analyses: what a source gives depends on its readings and on how they end alone, and of the
readings on what counts. -/
namespace MetricCapture

def Statistics.ofReadings (analysis : Settings.Analysis) (rs : List Reading) :
    Except AnalysisError Snapshot :=
  match Statistics.create analysis with
  | .error f => .error (.statistics f)
  | .ok fresh =>
    match (Outcome.each Statistics.observe fresh rs).error with
    | some f => .error (.statistics f)
    | none => (Outcome.each Statistics.observe fresh rs).value.conclude none

def Statistics.observed (analysis : Settings.Analysis) (rs : List Reading) :
    Except AnalysisError Statistics :=
  match Statistics.create analysis with
  | .error f => .error (.statistics f)
  | .ok fresh =>
    match (Outcome.each Statistics.observe fresh rs).error with
    | some f => .error (.statistics f)
    | none => .ok (Outcome.each Statistics.observe fresh rs).value

theorem Statistics.ofReadings_eq (analysis : Settings.Analysis) (rs : List Reading) :
    ofReadings analysis rs = (observed analysis rs).bind fun s => s.conclude none := by
  unfold ofReadings observed
  cases create analysis with
  | error f => rfl
  | ok fresh =>
    dsimp only
    cases (Outcome.each observe fresh rs).error with
    | none => rfl
    | some f => rfl

theorem Tracking.observe_note (t : Tracking) (n : Note) :
    t.observe (.note n) = ⟨⟨t.statistics, n :: t.notes⟩, none⟩ := rfl

theorem Tracking.observe_reading (t : Tracking) (r : Reading) :
    t.observe (.reading r) =
      ⟨⟨(t.statistics.observe r).value, t.notes⟩, (t.statistics.observe r).error⟩ := rfl

/-- Notes do not touch the statistics. -/
theorem Tracking.each_observe (t : Tracking) (entries : List Entry) :
    (Outcome.each observe t entries).value.statistics =
        (Outcome.each Statistics.observe t.statistics (Trace.mk entries none).readings).value ∧
      (Outcome.each observe t entries).error =
        (Outcome.each Statistics.observe t.statistics (Trace.mk entries none).readings).error := by
  induction entries generalizing t with
  | nil => exact ⟨rfl, rfl⟩
  | cons entry entries ih =>
    rw [Outcome.each_cons]
    cases entry with
    | note n =>
      have hn : (Trace.mk (.note n :: entries) none).readings =
          (Trace.mk entries none).readings := rfl
      rw [hn, observe_note, Outcome.andThen_ok]
      exact ih ⟨t.statistics, n :: t.notes⟩
    | reading r =>
      have hr : (Trace.mk (.reading r :: entries) none).readings =
          r :: (Trace.mk entries none).readings := rfl
      rw [hr, Outcome.each_cons, observe_reading]
      cases t.statistics.observe r with
      | mk after error =>
        cases error with
        | none =>
          rw [Outcome.andThen_ok, Outcome.andThen_ok]
          exact ih ⟨after, t.notes⟩
        | some f => exact ⟨rfl, rfl⟩

theorem Statistics.estimated_eq_ok_iff {r : Registers} {n : Int} :
    estimated r = .ok n ↔ r.estimate = some n := by
  unfold estimated
  cases r.estimate with
  | none => exact iff_of_false nofun nofun
  | some m => rw [Except.ok.injEq, Option.some.injEq]

/-- A snapshot is the statistics with both estimates. -/
theorem Statistics.snapshot_eq_ok_iff {s : Statistics} {snap : Snapshot} :
    s.snapshot = .ok snap ↔ ∃ contexts tags, s.contexts.estimate = some contexts ∧
      s.tags.estimate = some tags ∧ snap = { statistics := s, contexts, tags } := by
  unfold snapshot
  rw [bind_eq_ok_iff]
  refine exists_congr fun contexts => ?_
  rw [estimated_eq_ok_iff, bind_eq_ok_iff, exists_and_left]
  refine and_congr_right fun _ => exists_congr fun tags => ?_
  rw [estimated_eq_ok_iff]
  exact and_congr_right fun _ => ⟨fun h => (Except.ok.inj h).symm, fun h => h ▸ rfl⟩

theorem Statistics.conclude_eq_ok_iff {s : Statistics} {cause : Option String} {snap : Snapshot} :
    s.conclude cause = .ok snap ↔ ∃ contexts tags, s.contexts.estimate = some contexts ∧
      s.tags.estimate = some tags ∧
      snap = { statistics := s, contexts, tags, aborted := cause.isSome, cause } := by
  unfold conclude
  constructor
  · intro h
    cases hs : s.snapshot with
    | error f =>
      rw [hs] at h
      cases h
    | ok plain =>
      rw [hs] at h
      obtain ⟨contexts, tags, hc, ht, rfl⟩ := snapshot_eq_ok_iff.mp hs
      exact ⟨contexts, tags, hc, ht, (Except.ok.inj h).symm⟩
  · rintro ⟨contexts, tags, hc, ht, rfl⟩
    rw [snapshot_eq_ok_iff.mpr ⟨contexts, tags, hc, ht, rfl⟩]
    rfl

theorem Statistics.statistics_of_conclude {s : Statistics} {cause : Option String} {snap : Snapshot}
    (h : s.conclude cause = .ok snap) : snap.statistics = s := by
  obtain ⟨_, _, _, _, rfl⟩ := conclude_eq_ok_iff.mp h
  rfl

theorem Statistics.aborted_of_conclude {s : Statistics} {cause : Option String} {snap : Snapshot}
    (h : s.conclude cause = .ok snap) : snap.aborted = cause.isSome := by
  obtain ⟨_, _, _, _, rfl⟩ := conclude_eq_ok_iff.mp h
  rfl

theorem Statistics.error_conclude {s : Statistics} {cause : Option String} {e : AnalysisError}
    (h : s.conclude cause = .error e) : ∃ f, e = .statistics f := by
  unfold conclude at h
  cases hs : s.snapshot with
  | error f =>
    rw [hs] at h
    exact ⟨f, (Except.error.inj h).symm⟩
  | ok snap =>
    rw [hs] at h
    cases h

/-- What has ended the reading is noted in the snapshot and changes nothing else of it. -/
theorem Statistics.conclude_some (s : Statistics) (cause : String) :
    s.conclude (some cause) =
      (s.conclude none).map fun snap => { snap with aborted := true, cause := some cause } := by
  unfold conclude
  cases s.snapshot with
  | error f => rfl
  | ok snap => rfl

def Statistics.finish (bestEffort : Bool) (s : Statistics) :
    Option StreamError → Except AnalysisError Snapshot
  | none => s.conclude none
  | some e => if bestEffort && e.isContainer then s.conclude (some e.message) else .error (.stream e)

/-- Whether statistics are concluded where a source ends so: if it has run out, and with the best effort
also if it is a container that cannot be decoded any further. -/
def Statistics.Concludes (bestEffort : Bool) : Option StreamError → Prop
  | none => True
  | some e => bestEffort = true ∧ e.isContainer = true

theorem Statistics.finish_of_concludes {s : Statistics} {bestEffort : Bool} {e : Option StreamError}
    (h : Concludes bestEffort e) : s.finish bestEffort e = s.conclude (e.map StreamError.message) := by
  cases e with
  | none => rfl
  | some e => exact if_pos (by rw [h.1, h.2]; rfl)

theorem Statistics.finish_of_not_concludes {s : Statistics} {bestEffort : Bool} {e : StreamError}
    (h : ¬ Concludes bestEffort (some e)) : s.finish bestEffort (some e) = .error (.stream e) :=
  if_neg fun hb => h (Bool.and_eq_true_iff.mp hb)

/-- With the best effort an error of a container is noted in the snapshot. -/
theorem Statistics.observed_finish (analysis : Settings.Analysis) (rs : List Reading) {e : StreamError}
    (h : e.isContainer = true) :
    ((observed analysis rs).bind fun s => s.finish true (some e)) =
      (ofReadings analysis rs).map
        fun snap => { snap with aborted := true, cause := some e.message } := by
  rw [ofReadings_eq]
  cases observed analysis rs with
  | error f => rfl
  | ok s => exact (if_pos h).trans (s.conclude_some e.message)

/-- An analysis is that of the readings come upon, whatever ends them. -/
theorem Source.analyze_ends {cfg : Settings.Reader} {s : Source} {rs : List Reading}
    {e : Option StreamError} (h : (s.trace cfg).Ends rs e) (analysis : Settings.Analysis)
    (bestEffort : Bool) :
    (s.analyze cfg analysis bestEffort).result =
      (Statistics.observed analysis rs).bind fun st => st.finish bestEffort e := by
  obtain ⟨rfl, rfl⟩ := h
  unfold analyze Statistics.observed
  cases Statistics.create analysis with
  | error f => rfl
  | ok fresh =>
    obtain ⟨hv, herr⟩ := Tracking.each_observe { statistics := fresh } (s.trace cfg).entries
    rw [Trace.readings_entries] at hv herr
    dsimp only
    rw [herr, hv]
    cases (Outcome.each Statistics.observe fresh (s.trace cfg).readings).error with
    | some f => rfl
    | none =>
      cases (s.trace cfg).error with
      | none => rfl
      | some e =>
        dsimp only [Except.bind, Statistics.finish]
        split <;> rfl

/-- Analysing a source whose lines can all be read observes these lines and ends as they do. -/
theorem Source.analyze_delivery {cfg : Settings.Reader} {s : Source} {lines : List String}
    {e : Option StreamError} (h : (s.lines cfg).delivery = ⟨lines, e⟩)
    (hread : ∀ line ∈ lines, Readable line) (analysis : Settings.Analysis) (bestEffort : Bool) :
    (s.analyze cfg analysis bestEffort).result =
      (Statistics.observed analysis (lines.flatMap Reading.counted)).bind
        fun st => st.finish bestEffort e := by
  have hends := s.trace_ends cfg (by rw [h]; exact hread)
  have herror : (s.lines cfg).error = e := congrArg Delivery.error h
  rw [h, herror] at hends
  exact analyze_ends hends analysis bestEffort

theorem Source.analyze_clean {cfg : Settings.Reader} {s : Source} {rs : List Reading}
    (h : (s.trace cfg).Ends rs none) (analysis : Settings.Analysis) (bestEffort : Bool) :
    (s.analyze cfg analysis bestEffort).result = Statistics.ofReadings analysis rs := by
  rw [analyze_ends h, Statistics.ofReadings_eq]
  rfl

theorem Statistics.observe_bare (s : Statistics) (r : Reading) : s.observe r.bare = s.observe r := by
  cases r with
  | message m => rfl
  | failure f => rfl

/-- Readings that count the same give the same snapshot. -/
theorem Statistics.ofReadings_congr (analysis : Settings.Analysis) {rs rs' : List Reading}
    (h : rs.map Reading.bare = rs'.map Reading.bare) :
    ofReadings analysis rs = ofReadings analysis rs' := by
  have hbare : ∀ (s : Statistics) (rs : List Reading),
      Outcome.each observe s rs = Outcome.each observe s (rs.map Reading.bare) := by
    intro s rs
    rw [Outcome.each_map]
    congr 1
    funext s r
    exact (observe_bare s r).symm
  unfold ofReadings
  simp only [hbare _ rs, hbare _ rs', h]

end MetricCapture
