import MetricCapture.Message.Trace
import MetricCapture.Statistics.Basic
/-! Snapshots: the statistics at one moment, with the estimates made from them, and the
statistics of a whole source. -/
namespace MetricCapture

structure Snapshot where
  statistics : Statistics
  contexts : Int
  tags : Int
  /-- Whether the source was not read to its end. -/
  aborted : Bool := false
  /-- What has ended the reading. -/
  cause : Option String := none

def Statistics.estimated (r : Registers) : Except Statistics.Failure Int :=
  match r.estimate with
  | some n => .ok n
  | none => .error (if r.isSmall then .noEmptyRegister else .beyondHashes)

def Statistics.snapshot (s : Statistics) : Except Statistics.Failure Snapshot := do
  let contexts ← estimated s.contexts
  let tags ← estimated s.tags
  pure { statistics := s, contexts, tags }

inductive AnalysisError where
  | stream (e : StreamError)
  | statistics (f : Statistics.Failure)

structure Tracking where
  statistics : Statistics
  notes : List Note := []

def Tracking.observe (t : Tracking) (e : Entry) : Outcome Statistics.Failure Tracking :=
  match e with
  | .note n => ⟨{ t with notes := n :: t.notes }, none⟩
  | .reading r =>
    let o := t.statistics.observe r
    ⟨{ t with statistics := o.value }, o.error⟩

structure Analysis where
  notes : List Note
  result : Except AnalysisError Snapshot

def Statistics.conclude (s : Statistics) (cause : Option String) :
    Except AnalysisError Snapshot :=
  (s.snapshot.mapError .statistics).map fun snap => { snap with aborted := cause.isSome, cause }

/-- The statistics of a source. With `bestEffort` a container that cannot be decoded to its end
still gives those of what came before. -/
def Source.analyze (cfg : Settings.Reader) (analysis : Settings.Analysis) (bestEffort : Bool)
    (source : Source) : Analysis :=
  match Statistics.create analysis with
  | .error f => ⟨[], .error (.statistics f)⟩
  | .ok fresh =>
    let trace := source.trace cfg
    let o := Outcome.each Tracking.observe { statistics := fresh } trace.entries
    let notes := o.value.notes.reverse
    let s := o.value.statistics
    match o.error, trace.error with
    | some f, _ => ⟨notes, .error (.statistics f)⟩
    | none, none => ⟨notes, s.conclude none⟩
    | none, some e =>
      if bestEffort && e.isContainer then
        ⟨notes ++ [.aborted e], s.conclude (some e.message)⟩
      else ⟨notes, .error (.stream e)⟩

end MetricCapture
