import MetricCapture.Compression.Frame
import MetricCapture.Packet.Block
import MetricCapture.Replay.Reader
import MetricCapture.Source.Payload
/-! Opening a source: compression is undone at most once, and every byte looked at is given
again. -/
namespace MetricCapture

def orCorrupt {α : Type} (r : Except Source.Corrupt α) : Except StreamError α :=
  r.mapError fun _ => .corrupt

namespace Source

/-- Looks at the first bytes of a source, unwraps it if they say so, and tells what it holds.
What is compressed twice is left as text. -/
def resolve (cfg : Settings.Reader) (s : Source) : Except StreamError Resolved := do
  let (head, s1) ← orCorrupt (s.peek cfg.sniffLength)
  match cfg.detect head with
  | .compressed =>
    let wrapped ← orCorrupt s1.readAll
    let (inner, s2) ← orCorrupt ((Compression.inflate wrapped).peek cfg.sniffLength)
    let kind := cfg.detect inner
    pure ⟨if kind = .compressed then .text else kind, true, s2⟩
  | kind => pure ⟨kind, false, s1⟩

def frames (cfg : Settings.Reader) (s : Source) : List Replay.Frame × Replay.FrameEnd :=
  match s.peek cfg.sniffLength with
  | .error _ => ([], .failed .corrupt)
  | .ok (head, s1) =>
    if cfg.unwrap && cfg.beginsCompressed head then
      match s1.readAll with
      | .error _ => ([], .failed .corrupt)
      | .ok wrapped => Replay.framesAfterHeader cfg (Compression.inflate wrapped)
    else Replay.framesAfterHeader cfg s1

def replayPayloads (cfg : Settings.Reader) (s : Source) : Delivery Bytes :=
  let (frames, how) := s.frames cfg
  ⟨frames.map (·.payload), how.error?⟩

def capture (blocks : Bool) (s : Source) : Except StreamError Packet.Capture :=
  if blocks then Packet.Capture.ofBlocks s else Packet.Capture.ofRecords s

def datagrams (blocks : Bool) (s : Source) : Delivery Bytes :=
  match s.capture blocks with
  | .error e => ⟨[], some e⟩
  | .ok c => c.datagrams

end Source

def Replay.FrameEnd.notes : Replay.FrameEnd → List Note
  | .exhausted 0 _ => []
  | .exhausted leftover offset => [.trailing leftover offset]
  | .separator offset => [.separator offset]
  | .failed _ => []

def Packet.Capture.notes (c : Packet.Capture) : List Note :=
  if (Packet.Link.ofNumber? c.linkType).isSome then [] else [.unknownLink c.linkType]

namespace Source

def payloadsOf (cfg : Settings.Reader) (r : Resolved) : Payloads :=
  let opening := [Note.resolved r.kind r.compressed]
  let packets (blocks : Bool) : Payloads :=
    match r.source.capture blocks with
    | .error e => { chunks := ⟨[], some e⟩, opening }
    | .ok c =>
      let d := c.datagrams
      { chunks := ⟨d.items.map terminated, d.error⟩, opening, closing := c.notes }
  match r.kind with
  | .replay =>
    let (frames, how) := r.source.frames cfg
    { chunks := ⟨frames.map (·.payload), how.error?⟩, opening, closing := how.notes }
  | .pcap => packets false
  | .pcapng => packets true
  | .compressed | .text => { chunks := textChunks cfg.chunkSize [] r.source, opening }

def payloads (cfg : Settings.Reader) (s : Source) : Payloads :=
  match s.resolve cfg with
  | .error e => { chunks := ⟨[], some e⟩ }
  | .ok r => payloadsOf cfg r

def lines (cfg : Settings.Reader) (s : Source) : Lines :=
  Lines.ofChunks cfg.textPolicy (s.payloads cfg).chunks

end Source
end MetricCapture
