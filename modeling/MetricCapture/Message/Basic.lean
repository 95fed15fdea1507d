/-! Messages: what a line of the protocol says, or why it says nothing. -/
namespace MetricCapture

inductive Kind where
  | count
  | gauge
  | histogram
  | distribution
  | set
  | timer
  | serviceCheck
  | event
  deriving Repr, DecidableEq

namespace Kind

def all : List Kind :=
  [.count, .gauge, .histogram, .distribution, .set, .timer, .serviceCheck, .event]

def name : Kind → String
  | .count => "count"
  | .gauge => "gauge"
  | .histogram => "histogram"
  | .distribution => "distribution"
  | .set => "set"
  | .timer => "timer"
  | .serviceCheck => "service_check"
  | .event => "event"

def isMetric : Kind → Bool
  | .serviceCheck | .event => false
  | _ => true

end Kind

inductive Reason where
  | missingName
  | missingValue
  | badNumericValue
  | unknownType
  | malformedTagSection
  | emptyLine
  deriving Repr, DecidableEq

namespace Reason

/-- The reasons a report counts, in its order. An empty line is no failure. -/
def counted : List Reason :=
  [.missingName, .missingValue, .badNumericValue, .unknownType, .malformedTagSection]

def name : Reason → String
  | .missingName => "missing_name"
  | .missingValue => "missing_value"
  | .badNumericValue => "bad_numeric_value"
  | .unknownType => "unknown_type"
  | .malformedTagSection => "malformed_tag_section"
  | .emptyLine => "empty_line"

end Reason

/-- A message: a named list of values with its annotations. Tags stand as they were written. -/
structure Message where
  name : String
  values : List Float
  kind : Kind
  rate : Option Float := none
  tags : List String := []
  container : Option String := none
  timestamp : Option Nat := none

structure Failure where
  reason : Reason
  line : String
  detail : Option String := none

inductive Reading where
  | message (m : Message)
  | failure (f : Failure)

end MetricCapture
