import MetricCapture.Message.Metric
import MetricCapture.Message.Notice
import MetricCapture.Message.ServiceCheck
import MetricCapture.Text.Blank
/-! Lines: one message each, of the form its first characters tell. -/
namespace MetricCapture.Message
open MetricCapture.Text

def parseTrimmed (text : List Char) : Except Trouble Message :=
  if ServiceCheck.opening.isPrefixOf text then ServiceCheck.parse text
  else if Notice.opening.isPrefixOf text then Notice.parse text
  else Metric.parse text

end MetricCapture.Message

namespace MetricCapture
open MetricCapture.Text

/-- Reads one line: a message, or a failure that keeps the line as it was given. The only error
is an integer that cannot be read. -/
def Reading.ofLine (line : String) : Except Number.IntegerError Reading :=
  let text := trimEnd line.toList
  if text.isEmpty then .ok (.failure ⟨.emptyLine, line, none⟩)
  else
    match Message.parseTrimmed text with
    | .ok m => .ok (.message m)
    | .error (.defect d) => .ok (.failure ⟨d.reason, line, some d.detail⟩)
    | .error (.integer e) => .error e

end MetricCapture
