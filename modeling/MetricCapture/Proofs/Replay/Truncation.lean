import MetricCapture.Proofs.Replay.Cut
import MetricCapture.Proofs.Replay.RoundTrip
import MetricCapture.Proofs.Source.Chunks
import MetricCapture.Proofs.Statistics.Estimate
/-! Analysing a container that is cut short: which messages count, and how the analysis ends. -/
namespace MetricCapture
open MetricCapture.Text
open Source (ofBytes)

namespace Replay

def Container.textWithin (cfg : Settings.Reader) (c : Container) (k : Nat) : Bytes :=
  (c.within cfg k).flatMap Segment.payload

def endedMessages (messages : List String) (room : Nat) : List String :=
  endingWithin (fun i => (messageText (messages.take (i + 1))).length) room messages

/-- The text of the frames left is the beginning of the text written. -/
theorem textWithin_isPrefix (cfg : Settings.Reader) (layout : Layout) (payloads : List Bytes) (k : Nat) :
    (layout.container payloads).textWithin cfg k <+: payloads.flatten := by
  have hpayloads : (layout.container payloads).segments.flatMap Segment.payload =
      payloads.flatten := by
    rw [List.flatMap_def]
    congr 1
    apply List.ext_getElem
    · simp [Layout.container]
    · intro i hi hi'
      simp [Layout.container, Layout.segment]
  obtain ⟨more, hmore⟩ := Container.within_isPrefix cfg (layout.container payloads) k
  rw [← hpayloads, ← hmore, List.flatMap_append]
  exact List.prefix_append ..

/-- The beginning of the text of some messages is the text of the first of them and of a part of the
next, in which no line feed stands. -/
theorem exists_messages_of_isPrefix {ms : List String} (h : ∀ m ∈ ms, '\n' ∉ m.toList) {text : Bytes}
    (hpre : text <+: messageText ms) :
    ∃ rest : Bytes, text = messageText (endedMessages ms text.length) ++ rest ∧ 10 ∉ rest := by
  suffices hsplit : ∃ (n : Nat) (rest : Bytes), text = messageText (ms.take n) ++ rest ∧ 10 ∉ rest ∧
      ∀ i < ms.length, (messageText (ms.take (i + 1))).length ≤ text.length ↔ i < n by
    obtain ⟨n, rest, htext, hrest, hends⟩ := hsplit
    refine ⟨rest, ?_, hrest⟩
    rw [endedMessages, endingWithin_eq_take hends]
    exact htext
  induction ms generalizing text with
  | nil =>
    obtain rfl := List.prefix_nil.mp hpre
    exact ⟨0, [], rfl, List.not_mem_nil, fun i hi => absurd hi (Nat.not_lt_zero i)⟩
  | cons m ms ih =>
    have hcons : ∀ ms', messageText (m :: ms') = (Utf8.ofString m ++ [10]) ++ messageText ms' :=
      fun ms' => List.flatMap_cons
    rw [hcons] at hpre
    by_cases hlen : text.length ≤ (Utf8.ofString m).length
    · have hpart : text <+: Utf8.ofString m := by
        rw [List.append_assoc] at hpre
        exact List.prefix_of_prefix_length_le hpre (List.prefix_append ..) hlen
      refine ⟨0, text, rfl, fun hmem => ?_, fun i _ => ?_⟩
      · exact not_mem_ofString (h m List.mem_cons_self) (hpart.subset hmem)
      · rw [List.take_succ_cons, hcons]
        simp only [List.length_append, List.length_singleton]
        omega
    · obtain ⟨text', rfl⟩ : Utf8.ofString m ++ [10] <+: text := by
        refine List.prefix_of_prefix_length_le (List.prefix_append ..) hpre ?_
        rw [List.length_append, List.length_singleton]
        omega
      obtain ⟨n, rest, rfl, hrest, hends⟩ :=
        ih (fun m' hm' => h m' (List.mem_cons_of_mem m hm')) (List.prefix_append_right_inj _ |>.mp hpre)
      refine ⟨n + 1, rest, ?_, hrest, fun i hi => ?_⟩
      · rw [List.take_succ_cons, hcons, List.append_assoc _ _ rest]
      · have hlength : ∀ bs : Bytes, (Utf8.ofString m ++ [10] ++ bs).length =
            (Utf8.ofString m ++ [10]).length + bs.length := fun _ => List.length_append
        rw [List.take_succ_cons, hcons, hlength, hlength, Nat.add_le_add_iff_left]
        cases i with
        | zero => simp [messageText]
        | succ i =>
          rw [hends i (Nat.lt_of_succ_lt_succ hi)]
          exact Nat.add_lt_add_iff_right.symm

/-- The lines that are ended in the beginning of the text of some messages are messages. -/
theorem map_endedPieces {ms : List String}
    (h : ∀ m ∈ ms, '\n' ∉ m.toList ∧ m.toList.getLast? ≠ some '\r') {text : Bytes}
    (hpre : text <+: messageText ms) :
    (endedPieces text).map lossyLine = endedMessages ms text.length := by
  obtain ⟨rest, htext, hrest⟩ := exists_messages_of_isPrefix (fun m hm => (h m hm).1) hpre
  have hmem : ∀ m ∈ endedMessages ms text.length, m ∈ ms :=
    fun m hm => (endingWithin_subset _ _ ms) hm
  have hpieces := splitOn_messageText (fun m hm => (h m (hmem m hm)).1) hrest
  rw [← htext] at hpieces
  rw [(pieces_of_splitOn hpieces).1, List.map_map]
  refine (List.map_congr_left fun m hm => ?_).trans (List.map_id _)
  have hline : lossyLine (Utf8.ofString m) = String.ofList (chomp m.toList) :=
    Except.ok.inj (decodeLine_ofString .replace m)
  rw [Function.comp_apply, hline, chomp_of_ne (h m (hmem m hm)).2, String.ofList_toList, id]

end Replay

/-- The lines of a container that is cut short are those in the text of the frames left whole. Where a
frame is cut behind its header the unfinished one is not among them. -/
theorem Replay.delivery_take {cfg : Settings.Reader} {c : Container} {k : Nat} (h : c.WellFormed cfg)
    (ht : c.tail = []) (hk : headerLength cfg ≤ k) (hz : cfg.Leaves ((c.bytes cfg).take k))
    (htext : cfg.textPolicy = .replace) :
    ∃ e, ((ofBytes ((c.bytes cfg).take k)).lines cfg).delivery =
        ⟨(countedPieces e (c.textWithin cfg k)).map lossyLine, e⟩ ∧
      ((∀ i, ¬ c.Cuts cfg k i) ∧ e = none ∨
        ∃ i, c.Cuts cfg k i ∧ ∃ f : FramingFault, f.offset = c.start cfg i ∧
          e = some (.framing f)) := by
  have hmarker : cfg.replayMarker <+: (c.bytes cfg).take k :=
    List.prefix_take_iff.mpr
      ⟨List.prefix_append .., Nat.le_of_lt (Nat.lt_of_lt_of_le (replayMarker_lt_header cfg) hk)⟩
  obtain ⟨hframes, hend⟩ := frames_take h ht hk hz
  refine ⟨_, ?_, hend⟩
  unfold Source.lines
  rw [payloads_replay hz hmarker, hframes, htext, Lines.delivery_eq, Lines.ofPieces_replace,
    List.map_map, Container.textWithin, List.flatMap_def]
  rfl

/-- A container of messages that is cut short behind its header. Where the header of a frame is left
but not all of its body, the best effort gives the snapshot of the messages whose line feeds stand in
whole frames, noted as broken off, and without it the fault is the outcome. After any other cut both
give the snapshot of all lines in the frames left, the unfinished one with them. There is no such
outcome only if these messages cannot be observed, or if no snapshot can be taken of them. -/
theorem Source.analyze_truncated (cfg : Settings.Reader) (layout : Replay.Layout)
    (messages : List String) (b : Bytes) (payloads : List Bytes) (k : Nat)
    (hm : ∀ m ∈ messages, '\n' ∉ m.toList ∧ m.toList.getLast? ≠ some '\r')
    (hb : Replay.encode cfg layout messages = .ok b)
    (hp : Replay.splitPayload (Replay.messageText messages) layout.frameSize = .ok payloads)
    (hv : layout.version % 16 ∈ cfg.versions) (hl : ∀ p ∈ payloads, p.length ≤ cfg.payloadLimit)
    (hz : cfg.Leaves b) (hopen : layout.terminate = false) (htext : cfg.textPolicy = .replace)
    (hk : Replay.headerLength cfg ≤ k)
    (hread : ∀ line ∈ ((ofBytes (b.take k)).lines cfg).delivery.items, Readable line) :
    let c := layout.container payloads
    let text := c.textWithin cfg k
    let ended := (Replay.endedMessages messages text.length).filter fun m => !allBlank m.toList
    let outcome := fun analysis bestEffort =>
      ((ofBytes (b.take k)).analyze cfg analysis bestEffort).result
    (∀ i, c.Cuts cfg k i → ∃ f : FramingFault, f.offset = c.start cfg i ∧ ∀ analysis,
      outcome analysis true = (Statistics.ofReadings analysis (ended.flatMap Reading.counted)).map
          (fun snap => { snap with aborted := true, cause := some f.message }) ∧
        ((∃ snap, outcome analysis true = .ok snap) ↔
          Statistics.HasSnapshot analysis (ended.flatMap Reading.counted)) ∧
        outcome analysis false = (Statistics.observed analysis (ended.flatMap Reading.counted)).bind
          (fun _ => .error (.stream (.framing f))) ∧
        (outcome analysis false = .error (.stream (.framing f)) ↔
          (Ledger.ofReadings (ended.flatMap Reading.counted)).Accepted analysis.accuracy)) ∧
    ((∀ i, ¬ c.Cuts cfg k i) → ∀ analysis bestEffort,
      outcome analysis bestEffort =
          Statistics.ofReadings analysis (((linePieces text).map lossyLine).flatMap Reading.counted) ∧
        ((∃ snap, outcome analysis bestEffort = .ok snap) ↔
          Statistics.HasSnapshot analysis
            (((linePieces text).map lossyLine).flatMap Reading.counted))) := by
  intro c text ended outcome
  obtain ⟨rfl, hwell⟩ := Replay.encode_eq_ok hb hp hv hl
  have htail : c.tail = [] := if_neg (by rw [hopen]; exact Bool.false_ne_true)
  have hcut : cfg.Leaves ((c.bytes cfg).take k) :=
    hz.imp_right fun hno hpre => hno (hpre.trans (List.take_prefix k _))
  obtain ⟨e, hlines, hend⟩ := Replay.delivery_take hwell htail hk hcut htext
  rw [hlines] at hread
  have hresult : ∀ analysis bestEffort, outcome analysis bestEffort = _ :=
    Source.analyze_delivery hlines hread
  have hprefix : text <+: Replay.messageText messages := by
    rw [← (Replay.splitPayload_eq_ok hp).1]
    exact Replay.textWithin_isPrefix cfg layout payloads k
  rcases hend with ⟨hno, rfl⟩ | ⟨i, hi, f, hoffset, rfl⟩
  · refine ⟨fun i hi => absurd hi (hno i), fun _ analysis bestEffort => ?_⟩
    have hall : outcome analysis bestEffort =
        Statistics.ofReadings analysis
          (((linePieces text).map lossyLine).flatMap Reading.counted) := by
      rw [hresult, Statistics.ofReadings_eq]
      rfl
    refine ⟨hall, ?_⟩
    rw [hall]
    exact Statistics.exists_ofReadings_iff analysis _
  · refine ⟨fun j hj => ?_, fun hno => absurd hi (hno i)⟩
    obtain rfl := hi.unique hj
    refine ⟨f, hoffset, fun analysis => ?_⟩
    have hended : ((countedPieces (some (.framing f)) text).map lossyLine).flatMap Reading.counted =
        ended.flatMap Reading.counted := by
      rw [countedPieces, Replay.map_endedPieces hm hprefix, Reading.counted_filter]
    rw [hresult, hresult, hended]
    have hpartial := Statistics.observed_finish analysis (ended.flatMap Reading.counted)
      (show (StreamError.framing f).isContainer = true from rfl)
    refine ⟨hpartial, ?_, rfl, Statistics.observed_bind_error_iff ..⟩
    rw [hpartial, ← Statistics.exists_ofReadings_iff]
    cases Statistics.ofReadings analysis (ended.flatMap Reading.counted) with
    | error e => constructor <;> rintro ⟨snap, hsnap⟩ <;> cases hsnap
    | ok snap => exact iff_of_true ⟨_, rfl⟩ ⟨snap, rfl⟩

def crowdedMessages : List String :=
  ["a:1|c|#0,z,c,5,e,v,l,k,m,n,q,r,7,t,w,y", "b:2|g"]

def crowdedContainer : Replay.Container :=
  Replay.Layout.container {} (crowdedMessages.map fun m => Utf8.ofString m ++ [10])

def sixteenRegisters : Settings.Analysis :=
  { Settings.Analysis.standard with precision := 4, precision_mem := ⟨Nat.le_refl 4, by decide⟩ }

private theorem encode_crowded :
    Replay.encode .standard {} crowdedMessages = .ok (crowdedContainer.bytes .standard) := rfl

private theorem leaves_crowded :
    Settings.Reader.standard.Leaves (crowdedContainer.bytes .standard) :=
  .inr (by decide +kernel)

private theorem cuts_crowded : crowdedContainer.Cuts .standard 83 1 :=
  ⟨by decide, by decide, by decide⟩

/-- Of the cut container the first line alone is left. -/
private theorem readable_crowded :
    ∀ line ∈ ((ofBytes ((crowdedContainer.bytes .standard).take 83)).lines
      .standard).delivery.items, Readable line := by
  have hwell : crowdedContainer.WellFormed .standard :=
    (Replay.encode_eq_ok encode_crowded rfl (by decide) (by decide)).2
  obtain ⟨e, hlines, hend⟩ := Replay.delivery_take hwell rfl (k := 83) (by decide)
    (leaves_crowded.imp_right fun hno hpre => hno (hpre.trans (List.take_prefix 83 _))) rfl
  rcases hend with ⟨hno, _⟩ | ⟨_, _, f, _, rfl⟩
  · exact absurd cuts_crowded (hno 1)
  · have hleft : (endedPieces (crowdedContainer.textWithin .standard 83)).map lossyLine =
        ["a:1|c|#0,z,c,5,e,v,l,k,m,n,q,r,7,t,w,y"] := by decide +kernel
    intro line hline
    rw [hlines, countedPieces, hleft] at hline
    rw [List.mem_singleton.mp hline]
    exact ⟨_, rfl⟩

/-- The cut stands behind four bytes of the second body. The first message alone is ended, and with
sixteen registers there is no estimate of how many tags it has. -/
theorem analyze_crowded :
    Replay.encode .standard {} crowdedMessages = .ok (crowdedContainer.bytes .standard) ∧
      (∃ f : FramingFault, f.offset = 63 ∧ ∀ analysis,
        ((ofBytes ((crowdedContainer.bytes .standard).take 83)).analyze .standard analysis
            true).result =
          (Statistics.ofReadings analysis
            (Reading.counted "a:1|c|#0,z,c,5,e,v,l,k,m,n,q,r,7,t,w,y")).map
            fun snap => { snap with aborted := true, cause := some f.message }) ∧
      ∀ snap, ((ofBytes ((crowdedContainer.bytes .standard).take 83)).analyze .standard
        sixteenRegisters true).result ≠ .ok snap := by
  obtain ⟨hcut, _⟩ := Source.analyze_truncated .standard {} crowdedMessages _ _ 83 (by decide)
    encode_crowded rfl (by decide) (by decide) leaves_crowded rfl rfl (by decide) readable_crowded
  obtain ⟨f, hoffset, houtcome⟩ := hcut 1 cuts_crowded
  refine ⟨encode_crowded, ⟨f, hoffset, fun analysis => (houtcome analysis).1⟩, fun snap hsnap => ?_⟩
  have hsnapshot := (houtcome sixteenRegisters).2.1.mp ⟨snap, hsnap⟩
  exact hsnapshot.tags (by decide +kernel)

end MetricCapture
