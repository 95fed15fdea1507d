import MetricCapture.Settings.Reader
/-! What a source holds, told by its first bytes. -/
namespace MetricCapture

/-- What a source holds. Anything without a marker is text. -/
inductive SourceKind where
  | compressed
  | replay
  | pcap
  | pcapng
  | text
  deriving Repr, DecidableEq

def SourceKind.name : SourceKind → String
  | .compressed => "zstd"
  | .replay => "replay"
  | .pcap => "pcap"
  | .pcapng => "pcapng"
  | .text => "text"

namespace Settings.Reader

def sniffLength (cfg : Reader) : Nat :=
  max 8 (max (cfg.replayMarker.length + 1) cfg.compressedMarker.length)

def beginsCompressed (cfg : Reader) (head : Bytes) : Bool :=
  cfg.compressedMarker.isPrefixOf head

def beginsReplay (cfg : Reader) (head : Bytes) : Bool :=
  cfg.replayMarker.isPrefixOf head

def pcapMarkers : List Bytes :=
  [[0xA1, 0xB2, 0xC3, 0xD4], [0xD4, 0xC3, 0xB2, 0xA1], [0xA1, 0xB2, 0x3C, 0x4D],
    [0x4D, 0x3C, 0xB2, 0xA1]]

def pcapngMarker : Bytes := [0x0A, 0x0D, 0x0D, 0x0A]

/-- What a source holds that begins with the given bytes. Compression is tried first. -/
def detect (cfg : Reader) (head : Bytes) : SourceKind :=
  if cfg.unwrap && cfg.beginsCompressed head then .compressed
  else if cfg.beginsReplay head then .replay
  else if cfg.packets && pcapMarkers.any (·.isPrefixOf head) then .pcap
  else if cfg.packets && pcapngMarker.isPrefixOf head then .pcapng
  else .text

end Settings.Reader
end MetricCapture
