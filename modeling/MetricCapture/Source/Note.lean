import MetricCapture.Message.Basic
import MetricCapture.Source.Failure
import MetricCapture.Source.Sniff
import MetricCapture.Text.Quoted
/-! Notes: what a reader remarks on the way, beside what it delivers. -/
namespace MetricCapture
open MetricCapture.Text

inductive Level where
  | debug
  | info
  | warning
  | error
  | critical
  deriving Repr, DecidableEq

namespace Level

def weight : Level → Nat
  | .debug => 10
  | .info => 20
  | .warning => 30
  | .error => 40
  | .critical => 50

def name : Level → String
  | .debug => "DEBUG"
  | .info => "INFO"
  | .warning => "WARNING"
  | .error => "ERROR"
  | .critical => "CRITICAL"

end Level

inductive Note where
  | resolved (kind : SourceKind) (compressed : Bool)
  /-- Bytes at the end of a container that are too few for a frame. -/
  | trailing (count offset : Nat)
  | separator (offset : Nat)
  | unknownLink (number : Nat)
  | rejected (f : Failure)
  | aborted (e : StreamError)

namespace Note

def level : Note → Level
  | .unknownLink _ | .aborted _ => .warning
  | _ => .debug

private def truth (b : Bool) : String :=
  if b then "True" else "False"

def text : Note → String
  | .resolved kind compressed =>
    "Resolved source kind=" ++ kind.name ++ " compressed=" ++ truth compressed
  | .trailing count offset =>
    "Ignoring " ++ toString count ++ " trailing bytes at offset " ++ toString offset
  | .separator offset =>
    "Record separator at offset " ++ toString offset ++ "; ignoring trailing state"
  | .unknownLink number =>
    "Unsupported pcap link type " ++ toString number ++ "; no payloads extracted"
  | .rejected f =>
    "Parse failure (" ++ f.reason.name ++ "): " ++ Quoted.text f.line.toList ++ " " ++
      f.detail.getD ""
  | .aborted e => "Stream aborted, returning partial results: " ++ e.message

end Note
end MetricCapture
