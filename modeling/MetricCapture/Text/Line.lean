import MetricCapture.Settings.Reader
import MetricCapture.Text.Utf8
/-! Lines: bytes that arrive in chunks, cut at line feeds and decoded line by line. -/
namespace MetricCapture.Text

/-- A cutter between two chunks: the line begun, and the lines before it, the last one first. -/
structure LineFeed where
  carry : Bytes
  lines : List Bytes
  deriving Repr, DecidableEq

namespace LineFeed

def empty : LineFeed := ⟨[], []⟩

/-- One more chunk. What stands behind its last line feed is carried over to the next chunk. -/
def chunk (f : LineFeed) (bs : Bytes) : LineFeed :=
  if bs.isEmpty then f
  else
    let parts := (f.carry ++ bs).splitOn 10
    ⟨parts.getLastD [], parts.dropLast.reverse ++ f.lines⟩

def ofChunks (chunks : List Bytes) : LineFeed :=
  chunks.foldl chunk empty

def complete (f : LineFeed) : List Bytes := f.lines.reverse

def rest (f : LineFeed) : Bytes := f.carry

end LineFeed

/-- A line without the carriage return at its end. Only one is taken off. -/
def dropReturn (bs : Bytes) : Bytes :=
  if bs.getLast? = some 13 then bs.dropLast else bs

def decodeLine (policy : Settings.TextPolicy) (bs : Bytes) : Except Utf8.Fault String :=
  match policy with
  | .replace => .ok (String.ofList (Utf8.decodeLossy (dropReturn bs)))
  | .refuse => (Utf8.decode (dropReturn bs)).map String.ofList

def decodeLines (policy : Settings.TextPolicy) (done : List String) :
    List Bytes → List String × Option Utf8.Fault
  | [] => (done.reverse, none)
  | l :: ls =>
    match decodeLine policy l with
    | .ok s => decodeLines policy (s :: done) ls
    | .error f => (done.reverse, some f)

end MetricCapture.Text
