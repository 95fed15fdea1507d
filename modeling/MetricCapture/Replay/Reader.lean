import MetricCapture.Replay.Format
import MetricCapture.Source.Failure
/-! Reading replay containers: the frames up to the end, a separator or a fault. -/
namespace MetricCapture.Replay

inductive FrameEnd where
  /-- Fewer bytes are left than a frame's header has. -/
  | exhausted (leftover offset : Nat)
  /-- A header without out-of-band bytes and without a payload. -/
  | separator (offset : Nat)
  | failed (e : StreamError)

def FrameEnd.error? : FrameEnd → Option StreamError
  | .failed e => some e
  | _ => none

inductive FrameStep where
  | frame (f : Frame) (rest : Source)
  | stop (how : FrameEnd)

def skipStep : Nat := 0x10000

def skip (s : Source) (n : Nat) : Except Source.Corrupt (Nat × Source) :=
  if n = 0 then .ok (0, s)
  else
    match s.read (min skipStep n) with
    | .error e => .error e
    | .ok (piece, rest) =>
      if _hpiece : piece = [] then .ok (0, rest)
      else (skip rest (n - piece.length)).map fun (more, rest') => (piece.length + more, rest')
termination_by n
decreasing_by
  have := List.length_pos_iff.mpr _hpiece
  omega

theorem length_skip_le {s r : Source} {n k : Nat} (h : skip s n = .ok (k, r)) :
    r.bytes.length ≤ s.bytes.length := by
  fun_induction skip s n generalizing k r with
  | case1 =>
    cases h
    exact Nat.le_refl _
  | case2 => cases h
  | case3 s n hn rest hread =>
    cases h
    have := Source.length_read_le hread
    omega
  | case4 s n hn piece rest hread hpiece ih =>
    cases hmore : skip rest (n - piece.length) with
    | error e =>
      rw [hmore] at h
      cases h
    | ok more =>
      obtain ⟨k', r'⟩ := more
      have := ih hmore
      have := Source.length_read_le hread
      rw [hmore] at h
      cases h
      omega

/-- Reads the body of a frame whose header begins at `offset`. The payload's length is checked
before anything is read. -/
def readBody (limit offset : Nat) (h : FrameHeader) (s : Source) : FrameStep :=
  if limit < h.payload then .stop (.failed (.framing (.overLimit offset h.payload limit)))
  else
    match skip s h.outOfBand with
    | .error _ => .stop (.failed .corrupt)
    | .ok (skipped, s1) =>
      if skipped < h.outOfBand then
        .stop (.failed (.framing (.shortOutOfBand offset h.outOfBand skipped)))
      else
        match s1.read h.payload with
        | .error _ => .stop (.failed .corrupt)
        | .ok (payload, s2) =>
          if payload.length < h.payload then
            .stop (.failed (.framing (.shortPayload offset h.payload payload.length)))
          else .frame ⟨h.timestamp, h.outOfBand, h.payload, payload⟩ s2

def readFrame (limit offset : Nat) (s : Source) : FrameStep :=
  match s.read frameHeaderLength with
  | .error _ => .stop (.failed .corrupt)
  | .ok (raw, rest) =>
    if raw.length < frameHeaderLength then .stop (.exhausted raw.length offset)
    else
      let h := FrameHeader.ofBytes raw
      if h.outOfBand = 0 && h.payload = 0 then .stop (.separator (offset + frameHeaderLength))
      else readBody limit offset h rest

theorem length_readBody_le {limit offset : Nat} {h : FrameHeader} {s r : Source} {f : Frame}
    (e : readBody limit offset h s = .frame f r) : r.bytes.length ≤ s.bytes.length := by
  unfold readBody at e
  split at e
  · cases e
  · split at e
    · cases e
    · rename_i h1
      split at e
      · cases e
      · split at e
        · cases e
        · rename_i h2
          split at e
          · cases e
          · cases e
            have := length_skip_le h1
            have := Source.length_read_le h2
            omega

theorem length_readFrame_lt {limit offset : Nat} {s r : Source} {f : Frame}
    (e : readFrame limit offset s = .frame f r) : r.bytes.length < s.bytes.length := by
  unfold readFrame at e
  split at e
  · cases e
  · rename_i h
    split at e
    · cases e
    · rename_i hlen
      dsimp only at e
      split at e
      · cases e
      · have := Source.length_read_le h
        have := length_readBody_le e
        have : frameHeaderLength = 16 := rfl
        omega

def Frame.span (f : Frame) : Nat :=
  frameHeaderLength + f.outOfBandLength + f.payloadLength

def readFrames (limit offset : Nat) (done : List Frame) (s : Source) : List Frame × FrameEnd :=
  match _h : readFrame limit offset s with
  | .stop how => (done.reverse, how)
  | .frame f rest => readFrames limit (offset + f.span) (f :: done) rest
termination_by s.bytes.length
decreasing_by exact length_readFrame_lt _h

def framesAfterHeader (cfg : Settings.Reader) (s : Source) : List Frame × FrameEnd :=
  let failed (e : StreamError) : List Frame × FrameEnd := ([], .failed e)
  match s.read (headerLength cfg) with
  | .error _ => failed .corrupt
  | .ok (raw, rest) =>
    if !cfg.replayMarker.isPrefixOf raw then failed (.noMarker raw)
    else if raw.length < headerLength cfg then
      failed (.framing (.shortHeader raw.length (headerLength cfg)))
    else
      let version := ((raw.getD cfg.replayMarker.length 0) ^^^ versionFlag).toNat
      if cfg.versions.contains (version : Int) then
        readFrames cfg.payloadLimit (headerLength cfg) [] rest
      else failed (.unsupportedVersion version)

end MetricCapture.Replay
