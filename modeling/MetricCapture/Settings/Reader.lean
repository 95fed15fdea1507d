import MetricCapture.Settings.Value
/-! Reader settings: the markers a capture is told by, and the limits on reading it. -/
namespace MetricCapture.Settings

inductive TextPolicy where
  | replace
  | refuse
  deriving Repr, DecidableEq

def TextPolicy.name : TextPolicy → String
  | .replace => "replace"
  | .refuse => "strict"

/-- Settings for reading a capture. Markers are not empty, and sizes are positive. -/
structure Reader where
  /-- The bytes that begin a replay container. -/
  replayMarker : Bytes := [0xD4, 0x74, 0xD0, 0x60]
  /-- The container versions that are read. -/
  versions : List Int := [3]
  /-- The largest payload a frame may claim. -/
  payloadLimit : Nat := 16 * 1024 * 1024
  /-- The bytes that begin a compressed stream. -/
  compressedMarker : Bytes := [0x28, 0xB5, 0x2F, 0xFD]
  /-- Whether compressed streams are unwrapped. -/
  unwrap : Bool := true
  /-- Whether packet captures are read as such. -/
  packets : Bool := true
  /-- How many bytes of plain text are read at once. -/
  chunkSize : Nat := 64 * 1024
  /-- What becomes of text that is not well formed. -/
  textPolicy : TextPolicy := .replace
  replayMarker_ne : replayMarker ≠ [] := by decide
  compressedMarker_ne : compressedMarker ≠ [] := by decide
  versions_ne : versions ≠ [] := by decide
  payloadLimit_pos : 0 < payloadLimit := by decide
  chunkSize_pos : 0 < chunkSize := by decide

def Reader.standard : Reader := {}

def readMarker (v : Value) : Except Problem { bs : Bytes // bs ≠ [] } := do
  let bs ← v.toBytes
  if h : bs ≠ [] then pure ⟨bs, h⟩ else .error .bytesTooShort

def readSize (v : Value) : Except Problem { n : Nat // 0 < n } := do
  let n ← v.toInteger
  if h : 0 < n.toNat then pure ⟨n.toNat, h⟩ else .error .greaterThanEqual

def readPolicy : Value → Except Problem TextPolicy
  | .text s =>
    if s = "replace" then .ok .replace
    else if s = "strict" then .ok .refuse
    else .error .literalError
  | _ => .error .literalError

def readVersions (v : Value) : Except (List Complaint) { ns : List Int // ns ≠ [] } :=
  match nonEmptyList "replay_versions" Value.toInteger v with
  | .error cs => .error cs
  | .ok ns =>
    if h : ns ≠ [] then .ok ⟨ns, h⟩ else .error [⟨"replay_versions", none, .tooShort⟩]

/-- Reads reader settings. What is not given has its default, and every complaint is reported
in the order of the settings. -/
def Reader.ofValues (given : List (String × Value)) : Except (List Complaint) Reader :=
  let d := Reader.standard
  let replay := field given "replay_magic" ⟨d.replayMarker, d.replayMarker_ne⟩
    (plain "replay_magic" readMarker)
  let versions := field given "replay_versions" ⟨d.versions, d.versions_ne⟩ readVersions
  let limit := field given "max_payload_len" ⟨d.payloadLimit, d.payloadLimit_pos⟩
    (plain "max_payload_len" readSize)
  let compressed := field given "zstd_magic" ⟨d.compressedMarker, d.compressedMarker_ne⟩
    (plain "zstd_magic" readMarker)
  let unwrap := field given "allow_compression" d.unwrap (plain "allow_compression" Value.toFlag)
  let packets := field given "allow_pcap" d.packets (plain "allow_pcap" Value.toFlag)
  let chunk := field given "chunk_size" ⟨d.chunkSize, d.chunkSize_pos⟩
    (plain "chunk_size" readSize)
  let policy := field given "utf8_errors" d.textPolicy (plain "utf8_errors" readPolicy)
  match replay, versions, limit, compressed, unwrap, packets, chunk, policy with
  | .ok m, .ok vs, .ok l, .ok z, .ok u, .ok p, .ok c, .ok t =>
    .ok
      { replayMarker := m.1, replayMarker_ne := m.2
        versions := vs.1, versions_ne := vs.2
        payloadLimit := l.1, payloadLimit_pos := l.2
        compressedMarker := z.1, compressedMarker_ne := z.2
        unwrap := u
        packets := p
        chunkSize := c.1, chunkSize_pos := c.2
        textPolicy := t }
  | _, _, _, _, _, _, _, _ =>
    .error (complaints replay ++ complaints versions ++ complaints limit ++
      complaints compressed ++ complaints unwrap ++ complaints packets ++ complaints chunk ++
      complaints policy)

end MetricCapture.Settings
