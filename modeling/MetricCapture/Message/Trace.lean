import MetricCapture.Message.Line
import MetricCapture.Source.Open
import MetricCapture.Text.Blank
/-! Messages of a source: its lines that are not blank, as they stand or read one by one. -/
namespace MetricCapture
open MetricCapture.Text

def Lines.messages (l : Lines) : Delivery String :=
  ⟨l.delivery.items.filter fun line => !allBlank line.toList, l.error⟩

def Source.messages (cfg : Settings.Reader) (s : Source) : Delivery String :=
  (s.lines cfg).messages

inductive Entry where
  | note (n : Note)
  | reading (r : Reading)

/-- The entries of one line. A blank line has none, and a failure is noted before it counts. -/
def Entry.ofReading : Reading → List Entry
  | .message m => [.reading (.message m)]
  | .failure f =>
    if f.reason = .emptyLine then [] else [.note (.rejected f), .reading (.failure f)]

structure Trace where
  entries : List Entry
  error : Option StreamError

def traceLines (done : List Entry) : List String → Trace
  | [] => ⟨done.reverse, none⟩
  | line :: rest =>
    match Reading.ofLine line with
    | .error e => ⟨done.reverse, some (.integer e)⟩
    | .ok r => traceLines ((Entry.ofReading r).reverse ++ done) rest

def Trace.andThen (t next : Trace) : Trace :=
  if t.error.isSome then t else ⟨t.entries ++ next.entries, next.error⟩

def Trace.ofNotes (notes : List Note) : Trace :=
  ⟨notes.map .note, none⟩

/-- What reading a source comes upon: its notes at the start, the lines that are ended, the notes
behind the last chunk, and the unfinished line. -/
def Source.trace (cfg : Settings.Reader) (s : Source) : Trace :=
  let p := s.payloads cfg
  let l := Lines.ofChunks cfg.textPolicy p.chunks
  let closing := if l.drained then p.closing else []
  (((Trace.ofNotes p.opening).andThen (traceLines [] l.complete)).andThen
    (Trace.ofNotes closing)).andThen ((traceLines [] l.rest.toList).andThen ⟨[], l.error⟩)

def Trace.readings (t : Trace) : List Reading :=
  t.entries.filterMap fun
    | .reading r => some r
    | .note _ => none

end MetricCapture
