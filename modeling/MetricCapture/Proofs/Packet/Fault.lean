import MetricCapture.Proofs.Attempt
import MetricCapture.Source.Open
/-! Faults of packet captures: what can end the reading of one before its end. -/
namespace MetricCapture

/-- The errors that end a packet capture: one of its compression, one of its form, and a comment that
is no text. -/
def StreamError.EndsCapture : StreamError → Prop
  | .corrupt | .packet _ | .text _ => True
  | _ => False

open StreamError

namespace Packet
open MetricCapture.Text

theorem breaksWith_readBody (length done : Nat) (s : Source) :
    BreaksWith EndsCapture (readBody length done s) := by
  unfold readBody
  refine BreaksWith.ite ?_ ?_
  · split
    · exact breaksWith_error trivial
    · exact breaksWith_ok _
  · split
    · exact breaksWith_error trivial
    · exact breaksWith_ok _

theorem breaksWith_readBlock (big : Bool) (s : Source) :
    BreaksWith EndsCapture (readBlock big s) := by
  unfold readBlock
  split
  · exact breaksWith_error trivial
  · refine (breaksWith_ok none).ite ?_
    dsimp only
    split
    · rename_i h
      exact breaksWith_error (breaksWith_readBody _ _ _ _ h)
    · exact breaksWith_ok _

/-- Here alone text can be at fault: in a comment among the options of a block. -/
theorem breaksWith_readOptions (big : Bool) (done : List BlockOption) (bs : Bytes) :
    BreaksWith EndsCapture (readOptions big done bs) := by
  fun_induction readOptions big done bs with
  | case1 => exact breaksWith_ok _
  | case2 => exact breaksWith_error trivial
  | case3 => exact breaksWith_error trivial
  | case4 => exact breaksWith_ok _
  | case5 _ _ _ _ _ _ _ _ _ _ ih => exact ih

theorem Block.breaksWith_checkRoom (b : Block) (fields : Nat) :
    BreaksWith EndsCapture (b.checkRoom fields) :=
  (breaksWith_error trivial).ite (breaksWith_ok ())

theorem Block.breaksWith_options (big : Bool) (b : Block) (offset : Nat) :
    BreaksWith EndsCapture (b.options big offset) :=
  (breaksWith_readOptions big [] _).bind fun _ => (breaksWith_ok _).ite (breaksWith_error trivial)

theorem Block.breaksWith_linkType (big : Bool) (b : Block) :
    BreaksWith EndsCapture (b.linkType big) :=
  (b.breaksWith_checkRoom 20).bind fun _ => (b.breaksWith_options big 16).bind fun _ =>
    (breaksWith_ok _).ite (breaksWith_error trivial)

theorem Block.breaksWith_frame (big : Bool) (b : Block) : BreaksWith EndsCapture (b.frame big) :=
  (b.breaksWith_checkRoom 32).bind fun _ => (b.breaksWith_options big _).bind fun _ =>
    breaksWith_ok _

theorem breaksWith_readSection (s : Source) : BreaksWith EndsCapture (readSection s) := by
  have hrefuse : ∀ f, BreaksWith EndsCapture
      (.error (.packet (.badStart f)) : Except StreamError (Bool × Source)) :=
    fun f => breaksWith_error trivial
  unfold readSection
  split
  · exact breaksWith_error trivial
  · refine (hrefuse _).ite ((hrefuse _).ite ((hrefuse _).ite ?_))
    refine (breaksWith_readBody _ _ _).bind fun body => ?_
    refine (Block.breaksWith_checkRoom _ 28).bind fun _ => ?_
    exact (Block.breaksWith_options _ _ 24).bind fun _ => (breaksWith_ok _).ite (hrefuse _)

theorem breaksWith_readInterface (big : Bool) (s : Source) :
    BreaksWith EndsCapture (readInterface big s) := by
  fun_induction readInterface big s with
  | case1 s e h => exact breaksWith_error (breaksWith_readBlock big s e h)
  | case2 => exact breaksWith_error trivial
  | case3 s b rest h _ => exact (b.breaksWith_linkType big).map _
  | case4 s b rest h _ ih => exact ih

/-- What stops the reading of a capture ends it. -/
theorem of_error_collect {P : StreamError → Prop} {step : Source → Step} (shrinks : Shrinks step)
    (h : ∀ s e, step s = .stop (some e) → P e) (done : List Bytes) (s : Source) {e : StreamError}
    (he : (collect step shrinks done s).error = some e) : P e := by
  fun_induction collect step shrinks done s with
  | case1 done s stop hstop =>
    dsimp only at he
    exact h s e (he ▸ hstop)
  | case2 done s frame? rest _ ih => exact ih he

/-- A capture that stops at once has the frames already read. -/
theorem collect_stop {step : Source → Step} (shrinks : Shrinks step) (done : List Bytes)
    {s : Source} {e : Option StreamError} (h : step s = .stop e) :
    collect step shrinks done s = ⟨done.reverse, e⟩ := by
  fun_induction collect step shrinks done s with
  | case1 done s stop hstop =>
    cases h.symm.trans hstop
    rfl
  | case2 done s frame? rest hnext => cases h.symm.trans hnext

/-- A capture that goes on has the frame behind those already read. -/
theorem collect_next {step : Source → Step} (shrinks : Shrinks step) (done : List Bytes)
    {s rest : Source} {frame? : Option Bytes} (h : step s = .next frame? rest) :
    collect step shrinks done s = collect step shrinks (frame?.toList ++ done) rest := by
  fun_cases collect step shrinks done s with
  | case1 stop hstop => cases h.symm.trans hstop
  | case2 frame? rest hnext =>
    cases h.symm.trans hnext
    rfl

theorem endsCapture_of_readRecord {layout : RecordLayout} {s : Source} {e : StreamError}
    (h : readRecord layout s = .stop (some e)) : e.EndsCapture := by
  unfold readRecord at h
  split at h
  · cases h
    trivial
  · split at h
    · cases h
    · split at h
      · cases h
        trivial
      · split at h
        · cases h
          trivial
        · cases h

theorem endsCapture_of_readPacket {big : Bool} {s : Source} {e : StreamError}
    (h : readPacket big s = .stop (some e)) : e.EndsCapture := by
  unfold readPacket at h
  split at h
  · rename_i hblock
    cases h
    exact breaksWith_readBlock big s e hblock
  · cases h
  · split at h
    · split at h
      · rename_i hframe
        cases h
        exact Block.breaksWith_frame big _ e hframe
      · cases h
    · cases h

/-- A capture of records fails, and its frames end early, only with an error of a capture. -/
theorem Capture.endsCapture_ofRecords (s : Source) :
    BreaksWith EndsCapture (ofRecords s) ∧
      ∀ c, ofRecords s = .ok c → ∀ e, c.frames.error = some e → e.EndsCapture := by
  have hfail {e : StreamError} (he : e.EndsCapture) :
      BreaksWith EndsCapture (.error e : Except StreamError Capture) ∧
        ∀ c : Capture, .error e = Except.ok c → ∀ e', c.frames.error = some e' → e'.EndsCapture :=
    ⟨breaksWith_error he, fun c hc => by cases hc⟩
  unfold ofRecords
  split
  · exact hfail trivial
  · split
    · exact hfail trivial
    · split
      · exact hfail trivial
      · refine ⟨breaksWith_ok _, fun c hc e he => ?_⟩
        cases hc
        exact of_error_collect _ (fun _ _ => endsCapture_of_readRecord) _ _ he

/-- So does a capture in blocks. -/
theorem Capture.endsCapture_ofBlocks (s : Source) :
    BreaksWith EndsCapture (ofBlocks s) ∧
      ∀ c, ofBlocks s = .ok c → ∀ e, c.frames.error = some e → e.EndsCapture := by
  refine ⟨?_, fun c hc e he => ?_⟩
  · exact (breaksWith_readSection s).bind fun _ => (breaksWith_readInterface _ _).bind fun _ =>
      breaksWith_ok _
  · obtain ⟨_, _, hc⟩ := bind_eq_ok_iff.mp hc
    obtain ⟨_, _, hc⟩ := bind_eq_ok_iff.mp hc
    cases hc
    exact of_error_collect _ (fun _ _ => endsCapture_of_readPacket) _ _ he

end Packet

/-- Datagrams end early only with an error of their capture. -/
theorem Source.endsCapture_of_datagrams {s : Source} {blocks : Bool} {e : StreamError}
    (h : (s.datagrams blocks).error = some e) : e.EndsCapture := by
  have hcapture : BreaksWith EndsCapture (s.capture blocks) ∧
      ∀ c, s.capture blocks = .ok c → ∀ e, c.frames.error = some e → e.EndsCapture := by
    cases blocks with
    | false => exact Packet.Capture.endsCapture_ofRecords s
    | true => exact Packet.Capture.endsCapture_ofBlocks s
  unfold datagrams at h
  split at h
  · rename_i hfail
    cases h
    exact hcapture.1 _ hfail
  · rename_i c hc
    unfold Packet.Capture.datagrams at h
    split at h
    · cases h
    · exact hcapture.2 c hc e h

end MetricCapture
