import MetricCapture.Text.Printable
/-! Quoted text: how a message about a text shows it between quotes, on one line and with
every character recognisable. -/
namespace MetricCapture.Text.Quoted

private def hexDigit (n : Nat) : Char :=
  if n < 10 then Char.ofNat (48 + n) else Char.ofNat (87 + n)

def hex : Nat → Nat → List Char
  | 0, _ => []
  | width + 1, n => hex width (n / 16) ++ [hexDigit (n % 16)]

def mark (cs : List Char) : Char :=
  if cs.contains '\'' && !cs.contains '"' then '"' else '\''

def escape (c : Char) : List Char :=
  let n := c.toNat
  if c = '\t' then ['\\', 't']
  else if c = '\n' then ['\\', 'n']
  else if c = '\r' then ['\\', 'r']
  else if n < 0x100 then '\\' :: 'x' :: hex 2 n
  else if n < 0x10000 then '\\' :: 'u' :: hex 4 n
  else '\\' :: 'U' :: hex 8 n

def encodeChar (quote c : Char) : List Char :=
  if c = quote || c = '\\' then ['\\', c]
  else if isPrintable c then [c]
  else escape c

def encode (cs : List Char) : List Char :=
  let quote := mark cs
  quote :: (cs.flatMap (encodeChar quote) ++ [quote])

def text (cs : List Char) : String :=
  String.ofList (encode cs)

end MetricCapture.Text.Quoted
