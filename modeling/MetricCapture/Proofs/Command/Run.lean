import MetricCapture.Proofs.Command.Host
/-! Runs of the two commands on a host that serves them: what each gives and writes, by what the reading
of its input comes to. -/
namespace MetricCapture.Command
open Std.Do

def copyExit : Option StreamError → Exit
  | none => .done
  | some e => endOf e

def ReportOptions.render (options : ReportOptions) (r : Report) : String :=
  match options.form with
  | .text => r.text
  | .json => r.json ++ "\n"

inductive ReportRun (options : ReportOptions) (quantiles : List Float) :
    Except AnalysisError Snapshot → Exit → List (Target × String) → Prop
  | written {snap : Snapshot} {r : Report} (h : Report.ofSnapshot snap quantiles = .ok r) :
    ReportRun options quantiles (.ok snap) (if snap.aborted then .failed else .done)
      [(options.common.output, options.render r)]
  | unwritten {snap : Snapshot} {f : Sketch.Failure} (h : Report.ofSnapshot snap quantiles = .error f) :
    ReportRun options quantiles (.ok snap) (.escaped (.report f)) []
  | failed {e : StreamError} (h : isCaught e = true) :
    ReportRun options quantiles (.error (.stream e)) .failed []
  | escaped {e : AnalysisError} (h : ∀ x, e = .stream x → isCaught x = false) :
    ReportRun options quantiles (.error e) (.escaped (.analysis e)) []

theorem copySource_messages (cfg : Settings.Reader) (s : Source) :
    (copySource cfg s).messages = s.messages cfg := rfl

section

variable {m : Type → Type} {ps : PostShape} [Monad m] [WPMonad m ps]
  {held : List (Target × String) → Assertion ps} {host : Host m} {around : Surroundings}
  {bytes : Bytes} {args : List String}

theorem gives_runCopy_of_fault {options : Common} (hargs : readCopyOptions args = .ok options)
    (hhelp : options.help = false) {f : LevelFault}
    (hlevel : threshold (options.level.getD around.level) = .error f) :
    Gives held (runCopy host around args) (.escaped (.level f)) [] := by
  unfold runCopy
  rw [hargs]
  dsimp only
  rw [if_neg (by rw [hhelp]; exact Bool.false_ne_true)]
  exact (gives_openLog_of_fault hlevel).bind (gives_pure _)

theorem gives_runReport_of_fault {options : ReportOptions} (hargs : readReportOptions args = .ok options)
    (hhelp : options.common.help = false) {f : LevelFault}
    (hlevel : threshold (options.common.level.getD around.level) = .error f) :
    Gives held (runReport host around args) (.escaped (.level f)) [] := by
  unfold runReport
  rw [hargs]
  dsimp only
  rw [if_neg (by rw [hhelp]; exact Bool.false_ne_true)]
  exact (gives_openLog_of_fault hlevel).bind (gives_pure _)

theorem gives_runCopy {options : Common} (hargs : readCopyOptions args = .ok options)
    (hhelp : options.help = false) {least : Nat}
    (hlevel : threshold (options.level.getD around.level) = .ok least)
    (htarget : options.output ≠ .nowhere)
    (h : Serves host held around options.input options.output bytes) :
    Gives held (runCopy host around args)
      (copyExit ((Source.ofBytes bytes).messages options.reader).error)
      [(options.output, String.join
        (((Source.ofBytes bytes).messages options.reader).items.map (· ++ "\n")))] := by
  unfold runCopy
  rw [hargs]
  dsimp only
  rw [if_neg (by rw [hhelp]; exact Bool.false_ne_true)]
  refine (h.gives_openLog hlevel).bind ?_
  refine h.openInput.bind ?_
  dsimp only
  rw [if_neg htarget]
  refine h.openOutput.bind ?_
  refine h.readInput.bind ?_
  refine (h.gives_logLines _ _).bind ?_
  refine (h.write _).bind ?_
  rw [copySource_messages]
  cases ((Source.ofBytes bytes).messages options.reader).error with
  | none => exact (h.gives_logLines _ _).bind (gives_pure _)
  | some e =>
    dsimp only [copyExit]
    by_cases hc : isCaught e = true
    · rw [if_pos hc, endOf, if_pos hc]
      exact h.gives_failWith _ _
    · rw [if_neg hc]
      exact gives_pure _

theorem gives_writeReport {options : ReportOptions} {input : Target} (least : Nat)
    (quantiles : List Float) (snap : Snapshot) (htarget : options.common.output ≠ .nowhere)
    (h : Serves host held around input options.common.output bytes) :
    ∃ exit texts, Gives held (writeReport host least options quantiles snap) exit texts ∧
      ReportRun options quantiles (.ok snap) exit texts := by
  unfold writeReport
  dsimp only
  rw [if_neg htarget]
  cases hr : Report.ofSnapshot snap quantiles with
  | error f => exact ⟨_, _, h.openOutput.bind (gives_pure _), .unwritten hr⟩
  | ok r =>
    refine ⟨_, _, h.openOutput.bind ?_, .written hr⟩
    dsimp only
    unfold ReportOptions.render
    cases options.form with
    | text => exact (h.write _).bind (gives_pure _)
    | json => exact (h.write _).bind (gives_pure _)

theorem gives_runReport {options : ReportOptions} {analysis : Settings.Analysis}
    (hargs : readReportOptions args = .ok options) (hhelp : options.common.help = false) {least : Nat}
    (hlevel : threshold (options.common.level.getD around.level) = .ok least)
    (htarget : options.common.output ≠ .nowhere)
    (hsettings : Settings.Analysis.ofValues options.settings = .ok analysis)
    (h : Serves host held around options.common.input options.common.output bytes) :
    ∃ exit texts, Gives held (runReport host around args) exit texts ∧
      ReportRun options analysis.quantiles
        ((Source.ofBytes bytes).analyze options.common.reader analysis options.bestEffort).result
        exit texts := by
  unfold runReport
  rw [hargs]
  dsimp only
  rw [if_neg (by rw [hhelp]; exact Bool.false_ne_true)]
  refine (h.gives_openLog hlevel).exists_bind ?_
  dsimp only
  rw [hsettings]
  refine h.openInput.exists_bind ?_
  refine h.readInput.exists_bind ?_
  refine (h.gives_logLines _ _).exists_bind ?_
  cases ((Source.ofBytes bytes).analyze options.common.reader analysis options.bestEffort).result with
  | ok snap => exact gives_writeReport _ _ _ htarget h
  | error e =>
    cases e with
    | statistics f => exact ⟨_, _, gives_pure _, .escaped nofun⟩
    | stream e =>
      dsimp only
      by_cases hc : isCaught e = true
      · rw [if_pos hc]
        exact ⟨_, _, h.gives_failWith _ _, .failed hc⟩
      · rw [if_neg hc, endOf, if_neg hc]
        refine ⟨_, _, gives_pure _, .escaped fun x hx => ?_⟩
        cases hx
        exact Bool.not_eq_true _ ▸ hc

end

end MetricCapture.Command
