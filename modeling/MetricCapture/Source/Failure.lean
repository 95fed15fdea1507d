import MetricCapture.Number.Literal
import MetricCapture.Source.Basic
import MetricCapture.Text.Utf8
/-! Stream errors: what ends the reading of a capture before its end. -/
namespace MetricCapture
open MetricCapture.Text

inductive FramingFault where
  | shortHeader (found needed : Nat)
  | overLimit (offset claimed limit : Nat)
  | shortOutOfBand (offset claimed found : Nat)
  | shortPayload (offset claimed found : Nat)
  deriving Repr, DecidableEq

namespace FramingFault

def offset : FramingFault → Nat
  | .shortHeader .. => 0
  | .overLimit o .. => o
  | .shortOutOfBand o .. => o
  | .shortPayload o .. => o

def message : FramingFault → String
  | .shortHeader found needed =>
    "Truncated container header (" ++ toString found ++ " of " ++ toString needed ++ " bytes)"
  | .overLimit o claimed limit =>
    "Frame at offset " ++ toString o ++ " claims " ++ toString claimed ++
      " payload bytes (limit " ++ toString limit ++ ")"
  | .shortOutOfBand o claimed found =>
    "Frame at offset " ++ toString o ++ " claims " ++ toString claimed ++
      " oob bytes, only " ++ toString found ++ " remain"
  | .shortPayload o claimed found =>
    "Frame at offset " ++ toString o ++ " claims " ++ toString claimed ++
      " payload bytes, only " ++ toString found ++ " remain"

end FramingFault

inductive CaptureFault where
  | marker
  | shortSection
  | sectionType
  | byteOrder
  | version (major minor : Nat)
  | noInterface
  deriving Repr, DecidableEq

def CaptureFault.message : CaptureFault → String
  | .marker => "invalid tcpdump header"
  | .shortSection => "invalid pcapng header"
  | .sectionType => "invalid pcapng header: not a SHB"
  | .byteOrder => "unknown endianness"
  | .version major minor =>
    "unknown pcapng version " ++ toString major ++ "." ++ toString minor
  | .noInterface => "IDB not found"

inductive PacketFault where
  /-- A header that does not fit into the bytes left. -/
  | shortHeader
  /-- First bytes that begin no packet capture. -/
  | badStart (f : CaptureFault)
  /-- A block whose two lengths differ. -/
  | badBlock
  /-- An option whose value has the wrong size. -/
  | badOption
  deriving Repr, DecidableEq

inductive StreamError where
  /-- The bytes do not begin with the marker of a container. -/
  | noMarker (found : Bytes)
  | framing (f : FramingFault)
  | unsupportedVersion (version : Nat)
  | corrupt
  | packet (f : PacketFault)
  | text (f : Utf8.Fault)
  | integer (e : Number.IntegerError)

namespace StreamError

def isContainer : StreamError → Bool
  | .noMarker _ | .framing _ | .unsupportedVersion _ | .corrupt => true
  | _ => false

private def byteText (b : UInt8) : String :=
  "0x" ++ Bytes.hex [b]

def causeText : Utf8.Cause → String
  | .invalidStart => "invalid start byte"
  | .invalidContinuation => "invalid continuation byte"
  | .unexpectedEnd => "unexpected end of data"

def textMessage (f : Utf8.Fault) : String :=
  let place :=
    if f.length = 1 then
      "byte " ++ byteText f.lead ++ " in position " ++ toString f.start
    else
      "bytes in position " ++ toString f.start ++ "-" ++ toString (f.start + f.length - 1)
  "'utf-8' codec can't decode " ++ place ++ ": " ++ causeText f.cause

def message : StreamError → String
  | .noMarker found => "No replay marker found. Found: " ++ Bytes.hex (found.take 8)
  | .framing f => f.message
  | .unsupportedVersion v => "Unsupported replay version " ++ toString v
  | .corrupt => "Corrupt zstd data"
  | .packet (.badStart f) => f.message
  | .packet _ => ""
  | .text f => textMessage f
  | .integer e => e.message

end StreamError
end MetricCapture
