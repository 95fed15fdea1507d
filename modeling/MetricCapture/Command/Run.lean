import MetricCapture.Command.Log
import MetricCapture.Command.Options
import MetricCapture.Report.Document
import MetricCapture.Report.Text
/-! The two commands, over any host that can open, read and write what they name. -/
namespace MetricCapture.Command
open MetricCapture.Text

inductive FileFault where
  | missing
  | denied
  | inTheWay
  | notDirectory
  | isDirectory
  | nameTooLong
  /-- Any other fault, in the words of the host. -/
  | other (code : Nat) (text : String)
  deriving Repr, DecidableEq

def FileFault.words : FileFault → Nat × String
  | .missing => (2, "No such file or directory")
  | .denied => (13, "Permission denied")
  | .inTheWay => (17, "File exists")
  | .notDirectory => (20, "Not a directory")
  | .isDirectory => (21, "Is a directory")
  | .nameTooLong => (36, "File name too long")
  | .other code text => (code, text)

structure FileError where
  fault : FileFault
  path : String
  deriving Repr, DecidableEq

def FileError.message (e : FileError) : String :=
  "[Errno " ++ toString e.fault.words.1 ++ "] " ++ e.fault.words.2 ++ ": " ++
    Quoted.text e.path.toList

structure Host (m : Type → Type) where
  /-- Checks that an input can be read. -/
  openInput : Target → m (Option FileError)
  /-- Everything that an input holds. -/
  readInput : Target → m Bytes
  /-- Makes an output, empty at first. -/
  openOutput : Target → m (Option FileError)
  write : Target → String → m Unit
  /-- Makes a file for the log and the directories above it. -/
  openLog : String → m (Option FileError)
  log : String → m Unit

structure Surroundings where
  level : String := "WARNING"
  logFile : String := ""

inductive Escape where
  | analysis (e : AnalysisError)
  | report (f : Sketch.Failure)
  | file (e : FileError)
  /-- A level that a log cannot have. -/
  | level (f : LevelFault)
  /-- An output that names nothing. -/
  | noTarget

inductive Exit where
  | status (code : Nat)
  | escaped (e : Escape)

def Exit.done : Exit := .status 0

def Exit.failed : Exit := .status 1

def Exit.refused : Exit := .status 2

structure Copy where
  messages : Delivery String
  notes : List Note

def copySource (cfg : Settings.Reader) (s : Source) : Copy :=
  let p := s.payloads cfg
  let l := Lines.ofChunks cfg.textPolicy p.chunks
  ⟨l.messages, p.opening ++ if l.drained then p.closing else []⟩

def isCaught (e : StreamError) : Bool :=
  e.isContainer ||
    match e with
    | .text _ => true
    | _ => false

def endOf (e : StreamError) : Exit :=
  if isCaught e then .failed else .escaped (.analysis (.stream e))

section

variable {m : Type → Type} [Monad m]

def logLines (host : Host m) (least : Nat) (ls : List LogLine) : m Unit :=
  (ls.filter (·.shown least)).forM fun l => host.log l.render

def failWith (host : Host m) (least : Nat) (text : String) : m Exit := do
  logLines host least [⟨.error, text⟩]
  pure .failed

def openLog (host : Host m) (around : Surroundings) (level : Option String) :
    m (Except Escape Nat) := do
  match threshold (level.getD around.level) with
  | .error f => pure (.error (.level f))
  | .ok least =>
    if around.logFile = "" then return .ok least
    match ← host.openLog around.logFile with
    | some e => pure (.error (.file e))
    | none => pure (.ok least)

def runCopy (host : Host m) (around : Surroundings) (args : List String) : m Exit := do
  match readCopyOptions args with
  | .error _ => pure .refused
  | .ok options =>
    if options.help then return .done
    match ← openLog host around options.level with
    | .error x => pure (.escaped x)
    | .ok least =>
      if let some e ← host.openInput options.input then
        return ← failWith host least ("dsd-cat failed: " ++ e.message)
      if options.output = .nowhere then return .escaped .noTarget
      if let some e ← host.openOutput options.output then
        return ← failWith host least ("dsd-cat failed: " ++ e.message)
      let bytes ← host.readInput options.input
      let copy := copySource options.reader (Source.ofBytes bytes)
      logLines host least (copy.notes.map LogLine.ofNote)
      host.write options.output (String.join (copy.messages.items.map (· ++ "\n")))
      match copy.messages.error with
      | none =>
        let count := copy.messages.items.length
        logLines host least [⟨.info, "Wrote " ++ toString count ++ " messages"⟩]
        pure .done
      | some e =>
        if isCaught e then failWith host least ("dsd-cat failed: " ++ e.message)
        else pure (endOf e)

/-- Writes the report of a snapshot. One that was cut short counts as a failure. -/
def writeReport (host : Host m) (least : Nat) (options : ReportOptions)
    (quantiles : List Float) (snap : Snapshot) : m Exit := do
  let target := options.common.output
  if target = .nowhere then return .escaped .noTarget
  if let some e ← host.openOutput target then
    return ← failWith host least ("dsd-analyze could not write report: " ++ e.message)
  match Report.ofSnapshot snap quantiles with
  | .error f => pure (.escaped (.report f))
  | .ok report =>
    match options.form with
    | .text => host.write target report.text
    | .json => host.write target (report.json ++ "\n")
    pure (if snap.aborted then .failed else .done)

def runReport (host : Host m) (around : Surroundings) (args : List String) : m Exit := do
  match readReportOptions args with
  | .error _ => pure .refused
  | .ok options =>
    if options.common.help then return .done
    match ← openLog host around options.common.level with
    | .error x => pure (.escaped x)
    | .ok least =>
      match Settings.Analysis.ofValues options.settings with
      | .error _ => pure .refused
      | .ok cfg =>
        if let some e ← host.openInput options.common.input then
          return ← failWith host least ("dsd-analyze failed: " ++ e.message)
        let bytes ← host.readInput options.common.input
        let analysis :=
          (Source.ofBytes bytes).analyze options.common.reader cfg options.bestEffort
        logLines host least (analysis.notes.map LogLine.ofNote)
        match analysis.result with
        | .ok snap => writeReport host least options cfg.quantiles snap
        | .error (.stream e) =>
          if isCaught e then failWith host least ("dsd-analyze failed: " ++ e.message)
          else pure (endOf e)
        | .error e => pure (.escaped (.analysis e))

end

end MetricCapture.Command
