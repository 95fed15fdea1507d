import MetricCapture.Source.Note
/-! Logs: the lines that a command writes about its run, down to a level it is given. -/
namespace MetricCapture.Command

/-- The capitals of a letter. Some letters beyond ASCII have such that belong to it. -/
def capitals (c : Char) : List Char :=
  if c = 'ı' then ['I']
  else if c = 'ſ' then ['S']
  else if c = 'ﬅ' || c = 'ﬆ' then ['S', 'T']
  else [c.toUpper]

inductive LevelFault where
  | format
  | styles
  deriving Repr, DecidableEq

def LevelFault.message : LevelFault → String
  | .format => "Unknown level: '%(levelname)s:%(name)s:%(message)s'"
  | .styles =>
    "Level not an integer or a valid string: \x7b" ++
      "'%': (<class 'logging.PercentStyle'>, '%(levelname)s:%(name)s:%(message)s'), " ++
      "'\x7b': (<class 'logging.StrFormatStyle'>, " ++
      "'\x7blevelname\x7d:\x7bname\x7d:\x7bmessage\x7d'), " ++
      "'$': (<class 'logging.StringTemplateStyle'>, " ++
      "'$\x7blevelname\x7d:$\x7bname\x7d:$\x7bmessage\x7d')\x7d"

/-- The least weight that a log shows. A name it does not know stands for that of warnings, and so
does the one that sets none. -/
def threshold (name : String) : Except LevelFault Nat :=
  match String.ofList (name.toList.flatMap capitals) with
  | "DEBUG" => .ok Level.debug.weight
  | "INFO" => .ok Level.info.weight
  | "ERROR" => .ok Level.error.weight
  | "CRITICAL" | "FATAL" => .ok Level.critical.weight
  | "BASIC_FORMAT" => .error .format
  | "_STYLES" => .error .styles
  | _ => .ok Level.warning.weight

structure LogLine where
  level : Level
  text : String

namespace LogLine

def ofNote (n : Note) : LogLine := ⟨n.level, n.text⟩

def render (l : LogLine) : String := l.level.name ++ " - " ++ l.text

def shown (least : Nat) (l : LogLine) : Bool :=
  least ≤ l.level.weight

end LogLine
end MetricCapture.Command
