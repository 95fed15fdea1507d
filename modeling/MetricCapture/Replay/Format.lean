import MetricCapture.Settings.Reader
/-! Replay containers: a file header, and frames of a timestamp, out-of-band bytes and a
payload. All numbers are written least significant byte first. -/
namespace MetricCapture.Replay

/-- One unit of a container. Of the out-of-band bytes only the count is kept. -/
structure Frame where
  timestamp : Int
  outOfBandLength : Nat
  payloadLength : Nat
  payload : Bytes
  deriving Repr, DecidableEq

def versionFlag : UInt8 := 0xF0

def headerTail : Nat := 4

def headerLength (cfg : Settings.Reader) : Nat :=
  cfg.replayMarker.length + headerTail

def header (cfg : Settings.Reader) (version : Int) : Bytes :=
  cfg.replayMarker ++ [UInt8.ofNat (0xF0 + (version % 16).toNat), 0xFF, 0x00, 0x00]

def frameHeaderLength : Nat := 16

def frameHeader (timestamp : Int) (outOfBand payload : Nat) : Bytes :=
  Bytes.little 8 (Bytes.wrap64 timestamp) ++ Bytes.little 4 outOfBand ++ Bytes.little 4 payload

structure FrameHeader where
  timestamp : Int
  outOfBand : Nat
  payload : Nat
  deriving Repr, DecidableEq

def FrameHeader.ofBytes (bs : Bytes) : FrameHeader where
  timestamp := Bytes.unwrap64 (Bytes.ofLittle (bs.take 8))
  outOfBand := Bytes.ofLittle (Bytes.slice 8 4 bs)
  payload := Bytes.ofLittle (Bytes.slice 12 4 bs)

end MetricCapture.Replay
