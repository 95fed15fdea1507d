import MetricCapture.Proofs.Packet.Fault
import MetricCapture.Proofs.Source.Chunks
import MetricCapture.Proofs.Source.Passes
/-! How the reading of a source ends: which errors end its chunks and its messages, and what becomes of
an analysis that meets a line which cannot be read. -/
namespace MetricCapture
open MetricCapture.Text

def StreamError.Foreseen (e : StreamError) : Prop :=
  e.isContainer = true ∨ ∃ f, e = .text f

theorem StreamError.EndsCapture.foreseen_or {e : StreamError} (h : e.EndsCapture) :
    e.Foreseen ∨ ∃ f, e = .packet f := by
  cases e with
  | corrupt => exact .inl (.inl rfl)
  | text f => exact .inl (.inr ⟨f, rfl⟩)
  | packet f => exact .inr ⟨f, rfl⟩
  | noMarker | framing | unsupportedVersion | integer => exact h.elim

namespace Replay

theorem isContainer_of_readBody {limit offset : Nat} {h : FrameHeader} {s : Source} {how : FrameEnd}
    {e : StreamError} (hstep : readBody limit offset h s = .stop how) (he : how.error? = some e) :
    e.isContainer = true := by
  have hfailed : ∀ {x : StreamError}, x.isContainer = true →
      FrameStep.stop (.failed x) = .stop how → e.isContainer = true := by
    intro x hx hstop
    cases hstop
    cases he
    exact hx
  unfold readBody at hstep
  split at hstep
  · exact hfailed rfl hstep
  · split at hstep
    · exact hfailed rfl hstep
    · split at hstep
      · exact hfailed rfl hstep
      · split at hstep
        · exact hfailed rfl hstep
        · split at hstep
          · exact hfailed rfl hstep
          · cases hstep

theorem isContainer_of_readFrame {limit offset : Nat} {s : Source} {how : FrameEnd} {e : StreamError}
    (hstep : readFrame limit offset s = .stop how) (he : how.error? = some e) :
    e.isContainer = true := by
  unfold readFrame at hstep
  split at hstep
  · cases hstep
    cases he
    rfl
  · split at hstep
    · cases hstep
      cases he
    · dsimp only at hstep
      split at hstep
      · cases hstep
        cases he
      · exact isContainer_of_readBody hstep he

theorem isContainer_of_readFrames (limit offset : Nat) (done : List Frame) (s : Source)
    {e : StreamError} (he : (readFrames limit offset done s).2.error? = some e) :
    e.isContainer = true := by
  fun_induction readFrames limit offset done s with
  | case1 offset done s how hstop => exact isContainer_of_readFrame hstop he
  | case2 offset done s f rest _ ih => exact ih he

theorem isContainer_of_framesAfterHeader {cfg : Settings.Reader} {s : Source} {e : StreamError}
    (he : (framesAfterHeader cfg s).2.error? = some e) : e.isContainer = true := by
  unfold framesAfterHeader at he
  dsimp only at he
  split at he
  · cases he
    rfl
  · split at he
    · cases he
      rfl
    · split at he
      · cases he
        rfl
      · split at he
        · exact isContainer_of_readFrames _ _ _ _ he
        · cases he
          rfl

end Replay

namespace Source

def Broken (s : Source) : Prop := ∃ inFrame, s.ending = .corrupt inFrame

theorem broken_of_fails {s : Source} {n : Nat} (h : s.fails n = true) : s.Broken := by
  unfold fails at h
  split at h
  · rename_i inFrame hending
    exact ⟨inFrame, hending⟩
  · cases h

theorem broken_advance_iff (s : Source) (n : Nat) : (s.advance n).Broken ↔ s.Broken := by
  unfold advance Broken
  dsimp only
  split
  · rename_i window hending
    split <;> simp [hending]
  · rfl

/-- Behind the last byte of a source that is broken a read fails. -/
theorem Broken.fails {s : Source} {n : Nat} (h : s.Broken) (hs : s.bytes = []) (hn : 0 < n) :
    s.fails n = true := by
  obtain ⟨inFrame, h⟩ := h
  unfold Source.fails
  rw [h, hs]
  cases inFrame with
  | true => simp
  | false => simpa using hn

theorem read_of_pos (s : Source) {n : Nat} (hn : 0 < n) :
    s.read n = if s.fails n then .error ⟨⟩ else .ok (s.bytes.take n, s.advance n) :=
  if_neg (Nat.ne_of_gt hn)

end Source

/-- The chunks of text run out unless the decoding of the source breaks off. One that is cut off counts as
run out. -/
theorem textChunks_error_eq_none_iff {size : Nat} (hsize : 0 < size) (done : List Bytes) (s : Source) :
    (textChunks size done s).error = none ↔ ¬ s.Broken := by
  fun_induction textChunks size done s with
  | case1 done s c h =>
    rw [s.read_of_pos hsize] at h
    split at h
    · rename_i hfails
      exact iff_of_false (Option.some_ne_none _) (not_not_intro (Source.broken_of_fails hfails))
    · cases h
  | case2 done s rest h =>
    rw [s.read_of_pos hsize] at h
    split at h
    · cases h
    · rename_i hfails
      have hempty : s.bytes = [] := by
        have htake := congrArg Prod.fst (Except.ok.inj h)
        exact (List.take_eq_nil_iff.mp htake).resolve_left (Nat.ne_of_gt hsize)
      exact iff_of_true rfl fun hbroken => hfails (hbroken.fails hempty hsize)
  | case3 done s chunk rest h hne ih =>
    rw [s.read_of_pos hsize] at h
    split at h
    · cases h
    · obtain rfl : s.advance size = rest := congrArg Prod.snd (Except.ok.inj h)
      rw [ih, Source.broken_advance_iff]
theorem isContainer_of_textChunks (size : Nat) (done : List Bytes) (s : Source) {e : StreamError}
    (he : (textChunks size done s).error = some e) : e.isContainer = true := by
  fun_induction textChunks size done s with
  | case1 => cases he; rfl
  | case2 => cases he
  | case3 _ _ _ _ _ _ ih => exact ih he

namespace Source

theorem isContainer_of_frames {cfg : Settings.Reader} {s : Source} {e : StreamError}
    (he : (s.frames cfg).2.error? = some e) : e.isContainer = true := by
  unfold frames at he
  split at he
  · cases he
    rfl
  · split at he
    · split at he
      · cases he
        rfl
      · exact Replay.isContainer_of_framesAfterHeader he
    · exact Replay.isContainer_of_framesAfterHeader he

theorem breaksWith_resolve (cfg : Settings.Reader) (s : Source) :
    BreaksWith (·.isContainer = true) (s.resolve cfg) := by
  have hread : ∀ {α : Type} (x : Except Corrupt α), BreaksWith (·.isContainer = true) (orCorrupt x) := by
    intro α x e he
    cases x with
    | error c => cases he; rfl
    | ok a => cases he
  unfold resolve
  refine (hread _).bind fun looked => ?_
  dsimp only
  split
  · exact (hread _).bind fun wrapped => (hread _).bind fun inner => breaksWith_ok _
  · exact breaksWith_ok _

def HoldsPackets (cfg : Settings.Reader) (s : Source) : Prop :=
  ∃ r, s.resolve cfg = .ok r ∧ (r.kind = .pcap ∨ r.kind = .pcapng)

/-- The chunks of a packet capture end as its datagrams do. -/
theorem error_payloadsOf_packets (cfg : Settings.Reader) (compressed : Bool) (s : Source) :
    (payloadsOf cfg ⟨.pcap, compressed, s⟩).chunks.error = (s.datagrams false).error ∧
      (payloadsOf cfg ⟨.pcapng, compressed, s⟩).chunks.error = (s.datagrams true).error := by
  unfold payloadsOf datagrams
  dsimp only
  constructor
  · cases s.capture false <;> rfl
  · cases s.capture true <;> rfl

/-- Unless its error is foreseen, a source whose chunks end early is a packet capture at fault. -/
theorem error_payloads {cfg : Settings.Reader} {s : Source} {e : StreamError}
    (he : (s.payloads cfg).chunks.error = some e) :
    e.Foreseen ∨ (∃ f, e = .packet f) ∧ s.HoldsPackets cfg := by
  unfold payloads at he
  split at he
  · rename_i hfail
    cases he
    exact .inl (.inl (breaksWith_resolve cfg s e hfail))
  · rename_i r hr
    obtain ⟨kind, compressed, inner⟩ := r
    obtain ⟨hrecords, hblocks⟩ := error_payloadsOf_packets cfg compressed inner
    cases kind with
    | replay => exact .inl (.inl (isContainer_of_frames he))
    | pcap =>
      rw [hrecords] at he
      exact (endsCapture_of_datagrams he).foreseen_or.imp_right fun hf => ⟨hf, _, hr, .inl rfl⟩
    | pcapng =>
      rw [hblocks] at he
      exact (endsCapture_of_datagrams he).foreseen_or.imp_right fun hf => ⟨hf, _, hr, .inr rfl⟩
    | compressed => exact .inl (.inl (isContainer_of_textChunks _ _ _ he))
    | text => exact .inl (.inl (isContainer_of_textChunks _ _ _ he))

/-- Text ends early only where the decoding of the source breaks off. -/
theorem error_text {cfg : Settings.Reader} {s : Source} {r : Resolved} (hr : s.resolve cfg = .ok r)
    (hkind : r.kind = .text) : (s.payloads cfg).chunks.error = none ↔ ¬ r.source.Broken := by
  obtain ⟨kind, compressed, inner⟩ := r
  dsimp only at hkind
  subst hkind
  unfold payloads
  rw [hr]
  exact textChunks_error_eq_none_iff cfg.chunkSize_pos [] inner

end Source

/-- The messages in some chunks: the texts, with their faults replaced, of the pieces that count and are
not blank. -/
def messagesIn (chunks : Delivery Bytes) : List String :=
  ((countedPieces chunks.error chunks.items.flatten).map lossyLine).filter
    fun line => !allBlank line.toList

/-- Where faults of the text are replaced, the messages are those in the chunks and end as these do. -/
theorem Source.messages_replace {cfg : Settings.Reader} (h : cfg.textPolicy = .replace) (s : Source) :
    s.messages cfg = ⟨messagesIn (s.payloads cfg).chunks, (s.payloads cfg).chunks.error⟩ := by
  have hlines : (s.lines cfg).delivery = _ := Lines.delivery_eq cfg.textPolicy (s.payloads cfg).chunks
  rw [h, Lines.ofPieces_replace] at hlines
  have herror := congrArg Delivery.error hlines
  unfold messages Lines.messages
  rw [hlines]
  exact congrArg (Delivery.mk _) herror

namespace Trace

theorem error_andThen (t next : Trace) : (t.andThen next).error = t.error.or next.error := by
  unfold andThen
  cases h : t.error <;> simp [h]

@[simp] theorem error_ofNotes (notes : List Note) : (ofNotes notes).error = none := rfl

end Trace

/-- Lines of which one cannot be read end with its integer. -/
theorem error_traceLines (done : List Entry) {ls : List String} (h : ¬ ∀ line ∈ ls, Readable line) :
    ∃ e, (traceLines done ls).error = some (.integer e) := by
  induction ls generalizing done with
  | nil => exact absurd nofun h
  | cons line ls ih =>
    rw [traceLines]
    cases hr : Reading.ofLine line with
    | error e => exact ⟨e, rfl⟩
    | ok r => exact ih _ fun hls => h (List.forall_mem_cons.mpr ⟨⟨r, hr⟩, hls⟩)

namespace Source

variable {cfg : Settings.Reader} {s : Source}

/-- Notes end nothing: a source ends with its finished lines, the unfinished one, or its chunks. -/
theorem error_trace (cfg : Settings.Reader) (s : Source) :
    (s.trace cfg).error = (traceLines [] (s.lines cfg).complete).error.or
      ((traceLines [] (s.lines cfg).rest.toList).error.or (s.lines cfg).error) := by
  unfold trace
  simp only [Trace.error_andThen, Trace.error_ofNotes, Option.none_or, Option.or_none]
  rfl

/-- A source with a message that cannot be read ends with the integer of such a message. -/
theorem trace_unreadable (h : ¬ ∀ line ∈ (s.messages cfg).items, Readable line) :
    ∃ e, (s.trace cfg).Ends (s.trace cfg).readings (some (.integer e)) := by
  have hends : ∃ e, (s.trace cfg).error = some (.integer e) := by
    rw [error_trace]
    by_cases hcomplete : ∀ line ∈ (s.lines cfg).complete, Readable line
    · obtain ⟨e, he⟩ := error_traceLines [] fun hrest => h <| readable_messages_iff.mpr
        fun line hline => (List.mem_append.mp hline).elim (hcomplete line) (hrest line)
      exact ⟨e, by rw [(traceLines_ends [] hcomplete).error, he, Option.none_or, Option.some_or]⟩
    · obtain ⟨e, he⟩ := error_traceLines [] hcomplete
      exact ⟨e, by rw [he, Option.some_or]⟩
  obtain ⟨e, he⟩ := hends
  exact ⟨e, he, rfl⟩

/-- An analysis that meets a line which cannot be read fails, and not with an error that ends the
reading of a capture. -/
theorem analyze_unreadable (h : ¬ ∀ line ∈ (s.messages cfg).items, Readable line)
    (analysis : Settings.Analysis) (bestEffort : Bool) :
    ∃ e, (s.analyze cfg analysis bestEffort).result = .error e ∧
      ∀ x, e = .stream x → ∃ i, x = .integer i := by
  obtain ⟨i, hends⟩ := trace_unreadable h
  rw [analyze_ends hends]
  rcases Statistics.observed_cases analysis (s.trace cfg).readings with ⟨_, st, hst, _⟩ | ⟨_, f, hf⟩
  · rw [hst]
    refine ⟨.stream (.integer i), Statistics.finish_of_not_concludes nofun, fun x hx => ⟨i, ?_⟩⟩
    exact (AnalysisError.stream.inj hx).symm
  · rw [hf]
    exact ⟨.statistics f, rfl, nofun⟩

end Source
end MetricCapture
