import MetricCapture.Compression.Frame.Writer
import MetricCapture.Replay.Format
import MetricCapture.Text.Utf8
/-! Writing replay containers. -/
namespace MetricCapture.Replay
open MetricCapture.Text

inductive WriteError where
  /-- A payload may not be cut into pieces without a byte. -/
  | frameSize
  | timestamps (frames given : Nat)
  /-- A number does not fit into its field. -/
  | field
  deriving Repr, DecidableEq

def WriteError.message : WriteError → String
  | .frameSize => "frame_size must be >= 1"
  | .timestamps frames given =>
    toString frames ++ " frames but only " ++ toString given ++ " timestamps"
  | .field => ""

def encodeFrame (timestamp : Int) (outOfBand payload : Bytes) : Except WriteError Bytes :=
  if -(0x8000000000000000 : Int) ≤ timestamp && timestamp < 0x8000000000000000 &&
      outOfBand.length < 0x100000000 && payload.length < 0x100000000 then
    .ok (frameHeader timestamp outOfBand.length payload.length ++ (outOfBand ++ payload))
  else .error .field

/-- A splitter of bytes into lines, between two bytes: the line begun and the lines before it,
both last first, and whether a carriage return has just been read. -/
structure LineCutter where
  line : Bytes
  lines : List Bytes
  afterReturn : Bool

/-- One more byte. A line ends with a line feed, a carriage return or both in this order. -/
def LineCutter.step (c : LineCutter) (b : UInt8) : LineCutter :=
  if c.afterReturn then
    if b = 10 then ⟨[], (10 :: c.line).reverse :: c.lines, false⟩
    else
      ⟨if b = 13 then [13] else [b], c.line.reverse :: c.lines, b = 13⟩
  else if b = 10 then ⟨[], (10 :: c.line).reverse :: c.lines, false⟩
  else ⟨b :: c.line, c.lines, b = 13⟩

def splitLines (bs : Bytes) : List Bytes :=
  let c := bs.foldl LineCutter.step ⟨[], [], false⟩
  (if c.line.isEmpty then c.lines else c.line.reverse :: c.lines).reverse

def pieces (size : Nat) (done : List Bytes) (bs : Bytes) : List Bytes :=
  if _h : 0 < size ∧ bs ≠ [] then pieces size (bs.take size :: done) (bs.drop size)
  else done.reverse
termination_by bs.length
decreasing_by
  have := List.length_pos_iff.2 _h.2
  simp only [List.length_drop]
  omega

/-- The payloads of some bytes: pieces of the given size, or a line each. -/
def splitPayload (bs : Bytes) (frameSize : Option Int) : Except WriteError (List Bytes) :=
  if bs.isEmpty then .ok []
  else
    match frameSize with
    | none => .ok (splitLines bs)
    | some n => if n < 1 then .error .frameSize else .ok (pieces n.toNat [] bs)

structure Layout where
  /-- The size of a payload. Without one, every payload is a line. -/
  frameSize : Option Int := none
  /-- The out-of-band bytes of every frame. -/
  outOfBand : Bytes := []
  /-- The timestamps of the frames. Without them, frames are counted from zero. -/
  timestamps : Option (List Int) := none
  version : Int := 3
  /-- Whether a separator follows the frames. -/
  terminate : Bool := false

def messageText (messages : List String) : Bytes :=
  messages.flatMap fun m => Utf8.ofString m ++ [10]

def frameTimes (layout : Layout) (count : Nat) : Except WriteError (List Int) :=
  match layout.timestamps with
  | none => .ok ((List.range count).map Int.ofNat)
  | some ts =>
    if ts.length < count then .error (.timestamps count ts.length) else .ok (ts.take count)

def encode (cfg : Settings.Reader) (layout : Layout) (messages : List String) :
    Except WriteError Bytes := do
  let payloads ← splitPayload (messageText messages) layout.frameSize
  let times ← frameTimes layout payloads.length
  let frames ← (payloads.zip times).mapM fun (p, t) => encodeFrame t layout.outOfBand p
  let separator := if layout.terminate then frameHeader 0 0 0 else []
  pure (header cfg layout.version ++ (frames.flatten ++ separator))

def encodeCompressed (cfg : Settings.Reader) (layout : Layout) (messages : List String) :
    Except WriteError Bytes :=
  (encode cfg layout messages).map Compression.deflate

end MetricCapture.Replay
