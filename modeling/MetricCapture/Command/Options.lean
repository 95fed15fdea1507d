import MetricCapture.Command.Arguments
import MetricCapture.Number.Literal
import MetricCapture.Settings.Analysis
import MetricCapture.Settings.Reader
import MetricCapture.Text.Blank
/-! The options of the two commands: one copies the messages of a capture, the other reports its
statistics. -/
namespace MetricCapture.Command
open MetricCapture.Text

inductive Key where
  | help
  | output
  | logLevel
  | keepCompressed
  | format
  | bestEffort
  | progress
  | accuracy
  | quantiles
  deriving Repr, DecidableEq

def commonSpecs : List (OptionSpec Key) :=
  [{ key := .help, spellings := ["-h", "--help"], ends := true },
    { key := .output, spellings := ["-o", "--output"], takesValue := true },
    { key := .logLevel, spellings := ["--log-level"], takesValue := true },
    { key := .keepCompressed, spellings := ["--no-decompress"] }]

def reportSpecs : List (OptionSpec Key) :=
  commonSpecs ++
    [{ key := .format, spellings := ["--format"], takesValue := true },
      { key := .bestEffort, spellings := ["--best-effort"] },
      { key := .progress, spellings := ["--progress"] },
      { key := .accuracy, spellings := ["--relative-accuracy"], takesValue := true },
      { key := .quantiles, spellings := ["--quantiles"], takesValue := true }]

inductive Target where
  | standard
  | file (path : String)
  /-- An option without a value. -/
  | nowhere
  deriving Repr, DecidableEq

def Target.ofName (name : String) : Target :=
  if name = "-" then .standard else .file name

structure Common where
  help : Bool
  input : Target
  output : Target
  /-- The log level. Without one, that of the environment counts. -/
  level : Option String
  reader : Settings.Reader

def Common.ofCollected (c : Collected Key) : Common where
  help := (c.value? .help).isSome
  input := ((c.input.join).map Target.ofName).getD .standard
  output :=
    match c.value? .output with
    | none => .standard
    | some none => .nowhere
    | some (some name) => Target.ofName name
  level := ((c.value? .logLevel).join).filter (· != "")
  reader := { Settings.Reader.standard with unwrap := (c.value? .keepCompressed).isNone }

inductive Form where
  | text
  | json
  deriving Repr, DecidableEq

structure ReportOptions where
  common : Common
  form : Form
  bestEffort : Bool
  /-- The settings as they are given, not yet checked. -/
  settings : List (String × Settings.Value)

def readForm (value : Option String) : Except Refusal Form :=
  match value with
  | none | some "text" => .ok .text
  | some "json" => .ok .json
  | some other => .error (.badValue other)

def readNumber (text : String) : Except Refusal Settings.Value :=
  match Number.readFree? text.toList with
  | some x => .ok (.number x)
  | none => .error (.badValue text)

def readNumbers (text : String) : Except Refusal Settings.Value := do
  let pieces := (text.toList.splitOn ',').filter fun piece => !allBlank piece
  let numbers ← pieces.mapM fun piece => readNumber (String.ofList piece)
  pure (.list numbers)

def readSetting (c : Collected Key) (key : Key) (name : String)
    (read : String → Except Refusal Settings.Value) :
    Except Refusal (List (String × Settings.Value)) :=
  match c.value? key with
  | none => .ok []
  | some none => .error (.badValue name)
  | some (some text) => (read text).map fun v => [(name, v)]

def readCopyOptions (args : List String) : Except Refusal Common := do
  let c ← Collected.ofArguments commonSpecs args
  pure (Common.ofCollected c)

/-- The options of a report. Every value given has to be well formed, also if another replaces
it. -/
def readReportOptions (args : List String) : Except Refusal ReportOptions := do
  let c ← Collected.ofArguments reportSpecs args
  for (key, value) in c.given do
    match key, value with
    | .format, some text => let _ ← readForm (some text)
    | .accuracy, some text => let _ ← readNumber text
    | .quantiles, some text => let _ ← readNumbers text
    | _, _ => pure ()
  let accuracy ← readSetting c .accuracy "relative_accuracy" readNumber
  let quantiles ← readSetting c .quantiles "quantiles" readNumbers
  let form ← readForm (c.value? .format).join
  pure
    { common := Common.ofCollected c
      form
      bestEffort := (c.value? .bestEffort).isSome
      settings := accuracy ++ quantiles }

end MetricCapture.Command
