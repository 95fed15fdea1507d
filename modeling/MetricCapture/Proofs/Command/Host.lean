import Mathlib.Data.List.Basic
import MetricCapture.Command.Run
/-! Hosts that serve a command: its input can be read and its output written, and what a run on such a
host gives and writes. -/
namespace MetricCapture.Command
open Std.Do

variable {m : Type → Type} {ps : PostShape} [Monad m] [WPMonad m ps] {α β : Type}
  {held : List (Target × String) → Assertion ps}

/-- A run that gives `a` and writes `texts` behind all that has been written before. What `held` tells
of a state is what has been written in it. -/
def Gives (held : List (Target × String) → Assertion ps) (x : m α) (a : α)
    (texts : List (Target × String)) : Prop :=
  ∀ before, ⦃held before⦄ x ⦃⇓ r => ⌜r = a⌝ ∧ held (before ++ texts)⦄

theorem gives_pure (a : α) : Gives held (pure a : m α) a [] := by
  intro before
  refine Triple.pure a ?_
  rw [List.append_nil]
  exact SPred.and_intro (SPred.pure_intro rfl) SPred.entails.rfl

/-- One run behind another writes behind it. -/
theorem Gives.bind {x : m α} {f : α → m β} {a : α} {b : β} {texts more : List (Target × String)}
    (hx : Gives held x a texts) (hf : Gives held (f a) b more) :
    Gives held (x >>= f) b (texts ++ more) := by
  intro before
  refine Triple.bind x f (hx before) fun r => ?_
  refine SPred.pure_elim SPred.and_elim_l fun hr => ?_
  subst hr
  rw [← List.append_assoc]
  exact SPred.and_elim_r.trans (hf (before ++ texts))

/-- A run that writes nothing leaves it to the next one how both end. -/
theorem Gives.exists_bind {x : m α} {f : α → m β} {a : α} {P : β → List (Target × String) → Prop}
    (hx : Gives held x a []) (hf : ∃ b texts, Gives held (f a) b texts ∧ P b texts) :
    ∃ b texts, Gives held (x >>= f) b texts ∧ P b texts := by
  obtain ⟨b, texts, hgives, h⟩ := hf
  exact ⟨b, texts, hx.bind hgives, h⟩

/-- A level that a log cannot have is let out before the host is asked for anything. -/
theorem gives_openLog_of_fault {host : Host m} {around : Surroundings} {level : Option String}
    {f : LevelFault} (hlevel : threshold (level.getD around.level) = .error f) :
    Gives held (openLog host around level) (.error (.level f)) [] := by
  unfold openLog
  rw [hlevel]
  exact gives_pure _

/-- A host on which an input holds the given bytes, an output can be written, and the log, if it has a
file of its own, can be kept in it. -/
structure Serves (host : Host m) (held : List (Target × String) → Assertion ps) (around : Surroundings)
    (input output : Target) (bytes : Bytes) : Prop where
  openLog : around.logFile ≠ "" → Gives held (host.openLog around.logFile) none []
  log : ∀ line, Gives held (host.log line) () []
  openInput : Gives held (host.openInput input) none []
  readInput : Gives held (host.readInput input) bytes []
  openOutput : Gives held (host.openOutput output) none []
  write : ∀ text, Gives held (host.write output text) () [(output, text)]

namespace Serves

variable {host : Host m} {around : Surroundings} {input output : Target} {bytes : Bytes}

theorem gives_openLog (h : Serves host held around input output bytes) {level : Option String}
    {least : Nat} (hlevel : threshold (level.getD around.level) = .ok least) :
    Gives held (Command.openLog host around level) (.ok least) [] := by
  unfold Command.openLog
  rw [hlevel]
  dsimp only
  split
  · exact gives_pure _
  · rename_i hfile
    exact (h.openLog hfile).bind (gives_pure _)

theorem gives_logLines (h : Serves host held around input output bytes) (least : Nat)
    (ls : List LogLine) : Gives held (logLines host least ls) () [] := by
  unfold logLines
  induction ls.filter (·.shown least) with
  | nil => exact gives_pure ()
  | cons l ls ih => exact (h.log l.render).bind ih

theorem gives_failWith (h : Serves host held around input output bytes) (least : Nat) (text : String) :
    Gives held (failWith host least text) .failed [] :=
  (h.gives_logLines least _).bind (gives_pure _)

end Serves

end MetricCapture.Command
