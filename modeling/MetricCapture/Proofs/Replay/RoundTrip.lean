import MetricCapture.Proofs.Replay.Acceptance
import MetricCapture.Proofs.Replay.Split
import MetricCapture.Proofs.Source.Payload
/-! Containers are read as they were written: what the writer makes is a container of the grammar
with a frame for each payload, and its lines are the messages. -/
namespace MetricCapture.Replay

open MetricCapture.Source (ofBytes)
open Bytes (Signed64)

/-- The timestamp of the frame with the given number: the one given for it, or else the number. -/
def Layout.time (layout : Layout) (i : Nat) : Int :=
  match layout.timestamps with
  | none => i
  | some ts => ts.getD i 0

theorem frameTimes_eq_ok {layout : Layout} {count : Nat} {times : List Int}
    (h : frameTimes layout count = .ok times) : times = (List.range count).map layout.time := by
  unfold frameTimes at h
  cases hts : layout.timestamps with
  | none =>
    have htime : ∀ i, layout.time i = i := by
      intro i
      unfold Layout.time
      rw [hts]
    rw [hts] at h
    obtain rfl := Except.ok.inj h
    exact List.map_congr_left fun i _ => (htime i).symm
  | some ts =>
    have htime : ∀ i, layout.time i = ts.getD i 0 := by
      intro i
      unfold Layout.time
      rw [hts]
    rw [hts] at h
    dsimp only at h
    split at h
    · cases h
    · obtain rfl := Except.ok.inj h
      apply List.ext_getElem
      · rw [List.length_take, List.length_map, List.length_range]
        omega
      · intro i hi hi'
        rw [List.length_take] at hi
        rw [List.getElem_take, List.getElem_map, List.getElem_range, htime,
          List.getD_eq_getElem?_getD, List.getElem?_eq_getElem (by omega), Option.getD_some]

def Layout.segment (layout : Layout) (i : Nat) (payload : Bytes) : Segment :=
  ⟨layout.time i, layout.outOfBand, payload⟩

private theorem encodeFrame_eq_ok {t : Int} {o p bs : Bytes} (h : encodeFrame t o p = .ok bs) :
    bs = (Segment.mk t o p).bytes ∧ Signed64 t ∧ o.length < 256 ^ (4 : Nat) ∧
      p.length < 256 ^ (4 : Nat) := by
  unfold encodeFrame at h
  split at h
  · rename_i hb
    obtain rfl := Except.ok.inj h
    simp only [Bool.and_eq_true, decide_eq_true_eq] at hb
    obtain ⟨⟨⟨hl, hu⟩, ho⟩, hp⟩ := hb
    exact ⟨rfl, ⟨hl, hu⟩, ho, hp⟩
  · cases h

/-- The frames that are written are those of the payloads, each with numbers that fit. -/
private theorem encodeFrames_eq_ok {o : Bytes} {xs : List (Bytes × Int)} {frames : List Bytes}
    (h : (xs.mapM fun (p, t) => encodeFrame t o p) = .ok frames) :
    frames = xs.map (fun x => (Segment.mk x.2 o x.1).bytes) ∧
      ∀ x ∈ xs, Signed64 x.2 ∧ o.length < 256 ^ (4 : Nat) ∧ x.1.length < 256 ^ (4 : Nat) := by
  induction xs generalizing frames with
  | nil =>
    obtain rfl := Except.ok.inj h
    exact ⟨rfl, fun x hx => absurd hx List.not_mem_nil⟩
  | cons x xs ih =>
    rw [List.mapM_cons] at h
    cases hx : encodeFrame x.2 o x.1 with
    | error e =>
      simp only [hx, bind, Except.bind] at h
      cases h
    | ok bs =>
      cases hxs : xs.mapM fun (p, t) => encodeFrame t o p with
      | error e =>
        simp only [hx, hxs, bind, Except.bind] at h
        cases h
      | ok rest =>
        simp only [hx, hxs, bind, Except.bind, pure, Except.pure] at h
        obtain rfl := Except.ok.inj h
        obtain ⟨hbs, hfit⟩ := encodeFrame_eq_ok hx
        obtain ⟨hrest, hall⟩ := ih hxs
        refine ⟨by rw [hbs, hrest, List.map_cons], fun y hy => ?_⟩
        rcases List.mem_cons.mp hy with rfl | hy
        · exact hfit
        · exact hall y hy

private theorem zip_times (layout : Layout) (payloads : List Bytes) :
    (payloads.zip ((List.range payloads.length).map layout.time)).map
      (fun x => Segment.mk x.2 layout.outOfBand x.1) = payloads.mapIdx layout.segment := by
  apply List.ext_getElem
  · simp
  · intro i hi hi'
    simp [Layout.segment]

def Layout.container (layout : Layout) (payloads : List Bytes) : Container where
  version := UInt8.ofNat (0xF0 + (layout.version % 16).toNat)
  padding := [0xFF, 0x00, 0x00]
  segments := payloads.mapIdx layout.segment
  tail := if layout.terminate then frameHeader 0 0 0 else []

private theorem version_byte (n : Nat) (h : n < 16) :
    (UInt8.ofNat (0xF0 + n) ^^^ versionFlag).toNat = n := by
  revert n
  decide

private theorem tail_separator (terminate : Bool) :
    Tail (if terminate then frameHeader 0 0 0 else []) := by
  cases terminate with
  | false => exact .inl (Nat.succ_pos 15)
  | true => exact .inr ⟨by decide, by decide⟩

/-- What the writer makes are the bytes of the container of some payloads, with numbers that fit. -/
theorem encode_bytes {cfg : Settings.Reader} {layout : Layout} {messages : List String} {b : Bytes}
    {payloads : List Bytes} (hb : encode cfg layout messages = .ok b)
    (hp : splitPayload (messageText messages) layout.frameSize = .ok payloads) :
    b = (layout.container payloads).bytes cfg ∧
      ∀ s ∈ (layout.container payloads).segments, s.payload ∈ payloads ∧ Signed64 s.timestamp ∧
        s.outOfBand.length < 256 ^ (4 : Nat) ∧ s.payload.length < 256 ^ (4 : Nat) := by
  unfold encode at hb
  rw [hp] at hb
  simp only [bind, Except.bind, pure, Except.pure] at hb
  split at hb
  · cases hb
  · rename_i times ht
    split at hb
    · cases hb
    · rename_i frames hf
      obtain rfl := Except.ok.inj hb
      obtain rfl := frameTimes_eq_ok ht
      obtain ⟨rfl, hfit⟩ := encodeFrames_eq_ok hf
      have hsegs := zip_times layout payloads
      refine ⟨?_, fun s hs => ?_⟩
      · rw [Container.bytes, Layout.container, ← hsegs, header, List.append_assoc, List.flatMap_map,
          List.flatMap_def]
        rfl
      · change s ∈ payloads.mapIdx layout.segment at hs
        rw [← hsegs] at hs
        obtain ⟨x, hx, rfl⟩ := List.mem_map.mp hs
        exact ⟨(List.of_mem_zip hx).1, hfit x hx⟩

/-- What the writer makes is a container of the grammar. -/
theorem encode_eq_ok {cfg : Settings.Reader} {layout : Layout} {messages : List String} {b : Bytes}
    {payloads : List Bytes} (hb : encode cfg layout messages = .ok b)
    (hp : splitPayload (messageText messages) layout.frameSize = .ok payloads)
    (hv : layout.version % 16 ∈ cfg.versions) (hl : ∀ p ∈ payloads, p.length ≤ cfg.payloadLimit) :
    b = (layout.container payloads).bytes cfg ∧ (layout.container payloads).WellFormed cfg := by
  obtain ⟨hbytes, hfit⟩ := encode_bytes hb hp
  refine ⟨hbytes, ?_, rfl, fun s hs => ?_, tail_separator layout.terminate⟩
  · change ((UInt8.ofNat (0xF0 + (layout.version % 16).toNat) ^^^ versionFlag).toNat : Int) ∈ _
    rw [version_byte _ (by omega), Int.toNat_of_nonneg (by omega)]
    exact hv
  · obtain ⟨hmem, ht, ho, hq⟩ := hfit s hs
    exact ⟨ht, ho, hq, fun he => (splitPayload_eq_ok hp).2 _ hmem he.2, hl _ hmem⟩

/-- The payloads of a container that is not unwrapped, with the error that ends its frames. -/
theorem payloads_replay {cfg : Settings.Reader} {b : Bytes} (hz : cfg.Leaves b)
    (hr : cfg.replayMarker <+: b) :
    ((ofBytes b).payloads cfg).chunks =
      ⟨((ofBytes b).frames cfg).1.map (·.payload), ((ofBytes b).frames cfg).2.error?⟩ := by
  have hresolve := Source.resolve_ofBytes
    (Settings.Reader.detect_replay hz hr) (fun he => nomatch he)
  unfold Source.payloads
  rw [hresolve]
  rfl

/-- A container gives back what it was written from: its frames are the payloads in order, with
their timestamps and the count of out-of-band bytes, and its lines are the messages. -/
theorem messages_of_encode (cfg : Settings.Reader) (layout : Layout) (messages : List String)
    (b : Bytes) (payloads : List Bytes)
    (hm : ∀ m ∈ messages, '\n' ∉ m.toList ∧ m.toList.getLast? ≠ some '\r')
    (hb : encode cfg layout messages = .ok b)
    (hp : splitPayload (messageText messages) layout.frameSize = .ok payloads)
    (hv : layout.version % 16 ∈ cfg.versions) (hl : ∀ p ∈ payloads, p.length ≤ cfg.payloadLimit)
    (hz : cfg.Leaves b) :
    ((ofBytes b).frames cfg).2.error? = none ∧
      ((ofBytes b).frames cfg).1 =
        payloads.mapIdx (fun i p => ⟨layout.time i, layout.outOfBand.length, p.length, p⟩) ∧
      ∀ policy, ((ofBytes b).lines { cfg with textPolicy := policy }).delivery =
        ⟨messages, none⟩ := by
  obtain ⟨rfl, hwell⟩ := encode_eq_ok hb hp hv hl
  obtain ⟨hframes, hclean⟩ := framesAfterHeader_container hwell
  rw [← frames_ofBytes hz] at hframes hclean
  have hmap : (layout.container payloads).segments.map Segment.frame =
      payloads.mapIdx (fun i p => ⟨layout.time i, layout.outOfBand.length, p.length, p⟩) := by
    apply List.ext_getElem
    · simp [Layout.container]
    · intro i hi hi'
      simp [Layout.container, Layout.segment, Segment.frame]
  have hpayloads : ((ofBytes ((layout.container payloads).bytes cfg)).frames cfg).1.map
      (·.payload) = payloads := by
    rw [hframes, hmap]
    apply List.ext_getElem
    · simp
    · intro i hi hi'
      simp
  have hmarker : cfg.replayMarker <+: (layout.container payloads).bytes cfg := List.prefix_append ..
  have hchunks := payloads_replay hz hmarker
  rw [hpayloads, hclean] at hchunks
  refine ⟨hclean, hframes.trans hmap, fun policy => ?_⟩
  have hlines := Lines.ofChunks_messageText policy (splitPayload_eq_ok hp).1 fun m h => (hm m h).1
  have hsame : ∀ m ∈ messages, String.ofList (Text.chomp m.toList) = m := by
    intro m h
    rw [Text.chomp_of_ne (hm m h).2]
    exact String.ofList_toList
  have hdelivered : (Lines.ofChunks policy ⟨payloads, none⟩).delivery = ⟨messages, none⟩ := by
    rw [hlines, Lines.delivery]
    dsimp only
    rw [List.map_congr_left hsame, List.map_id', Option.toList_none, List.append_nil]
  rw [← hdelivered, ← hchunks]
  rfl

def sampleMessages : List String := ["aé", "", "b\rc"]

def sampleLayout : Layout := ⟨some 2, [7], some [-1, 5, 5, 0, 9, 9], 19, true⟩

def samplePayloads : List Bytes := [[0x61, 0xC3], [0xA9, 10], [10, 0x62], [13, 0x63], [10]]

private theorem splitPayload_sample :
    splitPayload (messageText sampleMessages) sampleLayout.frameSize = .ok samplePayloads := by
  rw [show messageText sampleMessages = [0x61, 0xC3, 0xA9, 10, 10, 0x62, 13, 0x63, 10] from rfl,
    show sampleLayout.frameSize = some 2 from rfl]
  simp [splitPayload, pieces, samplePayloads]

theorem messages_of_encode_sample :
    ∃ b, encode .standard sampleLayout sampleMessages = .ok b ∧
      ((ofBytes b).frames .standard).1 =
        [⟨-1, 1, 2, [0x61, 0xC3]⟩, ⟨5, 1, 2, [0xA9, 10]⟩, ⟨5, 1, 2, [10, 0x62]⟩,
          ⟨0, 1, 2, [13, 0x63]⟩, ⟨9, 1, 1, [10]⟩] ∧
      ((ofBytes b).lines .standard).delivery = ⟨["aé", "", "b\rc"], none⟩ := by
  have hb : encode .standard sampleLayout sampleMessages =
      .ok ((sampleLayout.container samplePayloads).bytes .standard) := by
    unfold encode
    rw [splitPayload_sample]
    rfl
  obtain ⟨_, hframes, hlines⟩ := messages_of_encode .standard sampleLayout sampleMessages _
    samplePayloads (by decide) hb splitPayload_sample (by decide) (by decide) (.inr (by decide))
  exact ⟨_, hb, hframes, hlines .replace⟩

end MetricCapture.Replay
