import MetricCapture.Source.Delivery
import MetricCapture.Source.Note
import MetricCapture.Text.Line
/-! From a source to its lines: the payload chunks that its reader gives, and the lines in
them. -/
namespace MetricCapture
open MetricCapture.Text

structure Resolved where
  kind : SourceKind
  compressed : Bool
  source : Source

def textChunks (size : Nat) (done : List Bytes) (s : Source) : Delivery Bytes :=
  match _h : s.read size with
  | .error _ => ⟨done.reverse, some .corrupt⟩
  | .ok (chunk, rest) =>
    if _hc : chunk = [] then ⟨done.reverse, none⟩ else textChunks size (chunk :: done) rest
termination_by s.bytes.length
decreasing_by
  have := Source.length_read_le _h
  have := List.length_pos_iff.2 _hc
  omega

def terminated (datagram : Bytes) : Bytes :=
  if datagram.getLast? = some 10 then datagram else datagram ++ [10]

structure Payloads where
  chunks : Delivery Bytes
  opening : List Note := []
  closing : List Note := []

/-- Lines of a sequence of chunks: those that a line feed ends, and the unfinished one. It counts
only if the chunks were `drained`, read to their end without an error and without a fault in a
line before. -/
structure Lines where
  complete : List String
  drained : Bool
  rest : Option String
  error : Option StreamError

def Lines.delivery (l : Lines) : Delivery String :=
  ⟨l.complete ++ l.rest.toList, l.error⟩

/-- The lines of some chunks. A fault in a finished line comes before an error that ends the
chunks. -/
def Lines.ofChunks (policy : Settings.TextPolicy) (chunks : Delivery Bytes) : Lines :=
  let feed := LineFeed.ofChunks chunks.items
  let (complete, fault) := decodeLines policy [] feed.complete
  match fault, chunks.error with
  | some f, _ => ⟨complete, false, none, some (.text f)⟩
  | none, some e => ⟨complete, false, none, some e⟩
  | none, none =>
    if feed.rest.isEmpty then ⟨complete, true, none, none⟩
    else
      match decodeLine policy feed.rest with
      | .ok s => ⟨complete, true, some s, none⟩
      | .error f => ⟨complete, true, none, some (.text f)⟩

end MetricCapture
