import MetricCapture.Report.Basic
/-! Reports as JSON documents. -/
namespace MetricCapture
open MetricCapture.Number

inductive Document where
  | null
  | flag (b : Bool)
  | integer (n : Int)
  | number (x : Float)
  | text (s : String)
  | object (fields : List (String × Document))

namespace Document

def ofFigure : Option Float → Document
  | none => .null
  | some x => .number x

def ofCount (n : Nat) : Document := .integer n

def ofCounts (counts : List (String × Nat)) : Document :=
  .object (counts.map fun c => (c.1, ofCount c.2))

def ofSummary : Option Summary → Document
  | none => .null
  | some s => .object
    [("count", ofCount s.count), ("min", ofFigure s.least), ("max", ofFigure s.greatest),
      ("sum", ofFigure s.sum), ("mean", ofFigure s.mean),
      ("quantiles", .object (s.quantiles.map fun f => (f.1, ofFigure f.2)))]

def ofReport (r : Report) : Document :=
  .object
    [("partial", .flag r.aborted), ("error", (r.cause.map .text).getD .null),
      ("total", ofCount r.total), ("valid", ofCount r.valid), ("failed", ofCount r.failed),
      ("by_type", ofCounts r.byKind), ("failures_by_reason", ofCounts r.byReason),
      ("multivalue_messages", ofCount r.multivalue), ("float_values", ofCount r.fractional),
      ("sampled_messages", ofCount r.sampled), ("unique_tags", .integer r.tags),
      ("contexts", .integer r.contexts),
      ("attributes", .object (r.attributes.map fun a => (a.1.name, ofSummary a.2)))]

def fourDigits (n : Nat) : List Char :=
  (Bytes.hex (Bytes.little 2 n).reverse).toList

/-- A character of a string. All but printable ASCII is escaped, beyond the first plane in two
halves. -/
def escape (c : Char) : List Char :=
  let n := c.toNat
  let unit (u : Nat) : List Char := '\\' :: 'u' :: fourDigits u
  if c = '"' then ['\\', '"']
  else if c = '\\' then ['\\', '\\']
  else if c = '\n' then ['\\', 'n']
  else if c = '\r' then ['\\', 'r']
  else if c = '\t' then ['\\', 't']
  else if n = 8 then ['\\', 'b']
  else if n = 12 then ['\\', 'f']
  else if 32 ≤ n && n < 127 then [c]
  else if n < 0x10000 then unit n
  else unit (0xD800 + (n - 0x10000) / 0x400) ++ unit (0xDC00 + (n - 0x10000) % 0x400)

def quoted (s : String) : String :=
  String.ofList ('"' :: (s.toList.flatMap escape ++ ['"']))

def newLine (depth : Nat) : String :=
  String.ofList ('\n' :: List.replicate (2 * depth) ' ')

mutual

def render (depth : Nat) : Document → String
  | .null => "null"
  | .flag b => if b then "true" else "false"
  | .integer n => toString n
  | .number x => shortestText x
  | .text s => quoted s
  | .object [] => "\x7b\x7d"
  | .object (f :: rest) =>
    "\x7b" ++ renderField (depth + 1) f ++ renderRest (depth + 1) rest ++ newLine depth ++ "\x7d"

def renderField (depth : Nat) : String × Document → String
  | (name, value) => newLine depth ++ quoted name ++ ": " ++ render depth value

def renderRest (depth : Nat) : List (String × Document) → String
  | [] => ""
  | f :: rest => "," ++ renderField depth f ++ renderRest depth rest

end

end Document

def Report.json (r : Report) : String :=
  (Document.ofReport r).render 0

end MetricCapture
