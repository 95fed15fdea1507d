import MetricCapture.Proofs.Compression.Stored
import MetricCapture.Proofs.Replay.Acceptance
import MetricCapture.Proofs.Source.Payload
/-! Compressed sources: what is compressed once is read as if it were not, and what is compressed
twice is unwrapped once. -/
namespace MetricCapture

namespace Settings.Reader

/-- Bytes that are not left as they are begin a compressed stream. -/
theorem detect_compressed_iff (cfg : Reader) (bs : Bytes) :
    cfg.detect (bs.take cfg.sniffLength) = .compressed ↔ ¬ cfg.Leaves bs := by
  rw [cfg.leaves_iff]
  unfold detect
  split
  · rename_i h
    simp [h]
  · rename_i h
    refine iff_of_false ?_ (not_not_intro (Bool.not_eq_true _ ▸ h))
    split
    · simp
    · split
      · simp
      · split <;> simp

theorem not_leaves (cfg : Reader) {bs : Bytes} (hu : cfg.unwrap = true)
    (hm : cfg.compressedMarker <+: bs) : ¬ cfg.Leaves bs := by
  rintro (hno | hno)
  · rw [hu] at hno
    cases hno
  · exact hno hm

end Settings.Reader

namespace Source

/-- A source that gives its bytes whatever the sizes of the reads: it is not cut off right behind a
block. -/
def Steady (s : Source) : Prop :=
  ∀ window, s.ending ≠ .cut window

theorem steady_ofBytes (bs : Bytes) : (ofBytes bs).Steady :=
  fun _ h => nomatch h

/-- A read takes bytes from the front and leaves the rest. -/
theorem Steady.read {s rest : Source} (h : s.Steady) {n : Nat} {piece : Bytes}
    (hr : s.read n = .ok (piece, rest)) :
    piece = s.bytes.take n ∧ rest = { s with bytes := s.bytes.drop n } := by
  unfold Source.read at hr
  split at hr
  · rename_i hn
    cases hr
    subst hn
    exact ⟨rfl, rfl⟩
  · split at hr
    · cases hr
    · cases hr
      refine ⟨rfl, ?_⟩
      unfold advance
      split
      · rename_i window he
        exact absurd he (h window)
      · rfl

/-- A look changes nothing. -/
theorem Steady.peek {s rest : Source} (h : s.Steady) {n : Nat} {head : Bytes}
    (hp : s.peek n = .ok (head, rest)) : head = s.bytes.take n ∧ rest = s := by
  unfold Source.peek at hp
  cases hr : s.read n with
  | error e =>
    rw [hr] at hp
    cases hp
  | ok taken =>
    obtain ⟨piece, left⟩ := taken
    obtain ⟨rfl, rfl⟩ := h.read hr
    rw [hr] at hp
    cases hp
    refine ⟨rfl, ?_⟩
    rw [List.take_append_drop]

variable {cfg : Settings.Reader} {d : Bytes}

/-- What begins a compressed stream is unwrapped, and told by what it holds. -/
theorem resolve_unwrapped (h : ¬ cfg.Leaves d) :
    (ofBytes d).resolve cfg =
      ((orCorrupt ((Compression.inflate d).peek cfg.sniffLength)).map fun (inner, s) =>
        ⟨if cfg.detect inner = .compressed then .text else cfg.detect inner, true, s⟩) := by
  have hpeek : orCorrupt ((ofBytes d).peek cfg.sniffLength) =
      .ok (d.take cfg.sniffLength, ofBytes d) := by
    rw [peek_ofBytes]
    rfl
  have hall : orCorrupt (ofBytes d).readAll = .ok d := by
    rw [readAll_ofBytes]
    rfl
  unfold resolve
  rw [hpeek]
  simp only [bind, Except.bind, (cfg.detect_compressed_iff d).mpr h, hall]
  cases orCorrupt ((Compression.inflate d).peek cfg.sniffLength) with
  | error e => rfl
  | ok v => rfl

theorem resolve_inflated {x : Bytes} (h : ¬ cfg.Leaves d)
    (hx : Compression.inflate d = ofBytes x) :
    (ofBytes d).resolve cfg =
      .ok ⟨if cfg.detect (x.take cfg.sniffLength) = .compressed then .text
        else cfg.detect (x.take cfg.sniffLength), true, ofBytes x⟩ := by
  rw [resolve_unwrapped h, hx, peek_ofBytes]
  rfl

/-- The frames of what begins a compressed stream are those of what it holds. -/
theorem frames_unwrapped (h : ¬ cfg.Leaves d) :
    (ofBytes d).frames cfg = Replay.framesAfterHeader cfg (Compression.inflate d) := by
  rw [cfg.leaves_iff, Bool.not_eq_false] at h
  unfold frames
  simp only [peek_ofBytes, h, if_true, readAll_ofBytes]

/-- What a source held when it was compressed shows in the note at the start alone. -/
theorem payloadsOf_compressed (cfg : Settings.Reader) (kind : SourceKind) (s : Source) :
    payloadsOf cfg ⟨kind, true, s⟩ =
      { payloadsOf cfg ⟨kind, false, s⟩ with opening := [.resolved kind true] } := by
  unfold payloadsOf
  cases kind with
  | compressed => rfl
  | replay => rfl
  | text => rfl
  | pcap =>
    dsimp only
    cases s.capture false with
    | error e => rfl
    | ok c => rfl
  | pcapng =>
    dsimp only
    cases s.capture true with
    | error e => rfl
    | ok c => rfl

theorem chunks_of_resolve {r : Resolved} (h : (ofBytes d).resolve cfg = .ok r) :
    ((ofBytes d).payloads cfg).chunks = (payloadsOf cfg r).chunks := by
  unfold payloads
  rw [h]

/-- Where a container is told, its second look at the first bytes unwraps nothing. -/
theorem frames_of_resolve {r : Resolved} (hs : cfg.Leaves d ∨ (Compression.inflate d).Steady)
    (hr : (ofBytes d).resolve cfg = .ok r) (hk : r.kind = .replay) :
    r.source.frames cfg = (ofBytes d).frames cfg := by
  by_cases hleaves : cfg.Leaves d
  · have hkind : cfg.detect (d.take cfg.sniffLength) ≠ .compressed :=
      fun h => (cfg.detect_compressed_iff d).mp h hleaves
    rw [resolve_ofBytes rfl hkind] at hr
    cases hr
    rfl
  · have hsteady := hs.resolve_left hleaves
    rw [resolve_unwrapped hleaves] at hr
    cases hpeek : (Compression.inflate d).peek cfg.sniffLength with
    | error e =>
      rw [hpeek] at hr
      cases hr
    | ok taken =>
      obtain ⟨inner, s⟩ := taken
      obtain ⟨rfl, rfl⟩ := hsteady.peek hpeek
      rw [hpeek] at hr
      cases hr
      have hdetect : cfg.detect ((Compression.inflate d).bytes.take cfg.sniffLength) = .replay := by
        dsimp only at hk
        split at hk
        · cases hk
        · exact hk
      have hno : (cfg.unwrap && cfg.beginsCompressed
          ((Compression.inflate d).bytes.take cfg.sniffLength)) = false := by
        rw [← cfg.leaves_iff]
        refine Classical.not_not.mp fun h => ?_
        rw [(cfg.detect_compressed_iff _).mpr h] at hdetect
        cases hdetect
      rw [frames_unwrapped hleaves]
      unfold frames
      simp only [hpeek, hno]
      rfl

/-- Compression is undone, and no more than once. What is compressed once gives the frames, the
payloads and the lines of what it holds, and is told to be of its kind. What is compressed twice is
text, byte for byte. A container that has been told is not unwrapped again by its reader, unless
it is cut off and so is not read the same in all sizes. -/
theorem unwrapped_once (cfg : Settings.Reader) :
    (∀ z x : Bytes, cfg.unwrap = true → cfg.compressedMarker <+: z →
      Compression.inflate z = ofBytes x →
      (¬ cfg.compressedMarker <+: x →
        (ofBytes z).frames cfg = (ofBytes x).frames cfg ∧
        ((ofBytes z).payloads cfg).chunks = ((ofBytes x).payloads cfg).chunks ∧
        (ofBytes z).lines cfg = (ofBytes x).lines cfg ∧
        ∃ kind, (ofBytes x).resolve cfg = .ok ⟨kind, false, ofBytes x⟩ ∧
          (ofBytes z).resolve cfg = .ok ⟨kind, true, ofBytes x⟩) ∧
      (cfg.compressedMarker <+: x →
        (ofBytes z).resolve cfg = .ok ⟨.text, true, ofBytes x⟩ ∧
        ((ofBytes z).payloads cfg).chunks.error = none ∧
        ((ofBytes z).payloads cfg).chunks.items.flatten = x)) ∧
    ∀ (d : Bytes) (r : Resolved), cfg.Leaves d ∨ (Compression.inflate d).Steady →
      (ofBytes d).resolve cfg = .ok r → r.kind = .replay →
      ((ofBytes d).payloads cfg).chunks = (ofBytes d).replayPayloads cfg := by
  refine ⟨fun z x hu hz hx => ?_, fun d r hs hr hk => ?_⟩
  · have hwrapped : ¬ cfg.Leaves z := cfg.not_leaves hu hz
    have hresolve := resolve_inflated hwrapped hx
    refine ⟨fun hplain => ?_, fun htwice => ?_⟩
    · have hleaves : cfg.Leaves x := .inr hplain
      have hkind : cfg.detect (x.take cfg.sniffLength) ≠ .compressed :=
        fun h => (cfg.detect_compressed_iff x).mp h hleaves
      rw [if_neg hkind] at hresolve
      have hresolve' := resolve_ofBytes rfl hkind
      have hchunks : ((ofBytes z).payloads cfg).chunks = ((ofBytes x).payloads cfg).chunks := by
        rw [chunks_of_resolve hresolve, chunks_of_resolve hresolve', payloadsOf_compressed]
      refine ⟨?_, hchunks, ?_, _, hresolve', hresolve⟩
      · rw [frames_unwrapped hwrapped, hx, Replay.frames_ofBytes hleaves]
      · unfold lines
        rw [hchunks]
    · rw [if_pos ((cfg.detect_compressed_iff x).mpr (cfg.not_leaves hu htwice))] at hresolve
      rw [chunks_of_resolve hresolve]
      exact ⟨hresolve, textChunks_ofBytes cfg.chunkSize_pos [] x⟩
  · obtain ⟨kind, compressed, s⟩ := r
    obtain rfl : kind = .replay := hk
    rw [chunks_of_resolve hr]
    unfold replayPayloads
    rw [← frames_of_resolve hs hr rfl]
    rfl

def wrappedSample : Bytes :=
  Replay.Container.bytes .standard ⟨0xF3, [0xFF, 0, 0], [⟨7, [9], [65, 10]⟩], []⟩

theorem unwrapped_sample :
    (ofBytes (Compression.stored wrappedSample)).frames .standard =
        (ofBytes wrappedSample).frames .standard ∧
      ((ofBytes (Compression.stored wrappedSample)).payloads .standard).chunks =
        (ofBytes (Compression.stored wrappedSample)).replayPayloads .standard ∧
      (ofBytes (Compression.stored (Compression.stored wrappedSample))).resolve .standard =
        .ok ⟨.text, true, ofBytes (Compression.stored wrappedSample)⟩ := by
  have honce : Compression.inflate (Compression.stored wrappedSample) = ofBytes wrappedSample :=
    Compression.inflate_stored (by decide)
  have htwice : Compression.inflate (Compression.stored (Compression.stored wrappedSample)) =
      ofBytes (Compression.stored wrappedSample) :=
    Compression.inflate_stored (by decide)
  obtain ⟨hunwrap, hreplay⟩ := unwrapped_once .standard
  obtain ⟨honceless, _⟩ := hunwrap _ _ rfl (by decide) honce
  obtain ⟨_, hdouble⟩ := hunwrap _ _ rfl (by decide) htwice
  obtain ⟨hframes, _, _, kind, hplain, hwrapped⟩ := honceless (by decide)
  have hkind : kind = .replay := by
    rw [resolve_ofBytes rfl (by decide)] at hplain
    cases hplain
    rfl
  refine ⟨hframes, hreplay _ _ (.inr ?_) hwrapped hkind, (hdouble (by decide)).1⟩
  rw [honce]
  exact steady_ofBytes wrappedSample

end Source
end MetricCapture
