import MetricCapture.Proofs.Command.Run
import MetricCapture.Proofs.Report.Reportable
import MetricCapture.Proofs.Source.Ending
/-! How the two commands end: with which status, or by which errors let out, and what has been written by
then. -/
namespace MetricCapture.Command
open Std.Do MetricCapture.Text

theorem isCaught_iff (e : StreamError) : isCaught e = true ↔ e.Foreseen := by
  cases e <;> simp [isCaught, StreamError.Foreseen, StreamError.isContainer]

/-- How a copy of some chunks ends: with status zero if they have run out, with status one if an error
that the command foresees has ended them, and else by letting the error out, which is a fault of a packet
capture. The messages before the end are written in each case. -/
structure CopyEnds (options : Common) (chunks : Delivery Bytes) (exit : Exit)
    (texts : List (Target × String)) : Prop where
  texts_eq : texts = [(options.output, String.join ((messagesIn chunks).map (· ++ "\n")))]
  total : exit = .done ∨ exit = .failed ∨ ∃ x, exit = .escaped x
  done_iff : exit = .done ↔ chunks.error = none
  failed_iff : exit = .failed ↔ ∃ e, chunks.error = some e ∧ e.Foreseen
  escaped_iff : ∀ x, exit = .escaped x ↔
    ∃ f, chunks.error = some (.packet f) ∧ x = .analysis (.stream (.packet f))

theorem Exit.done_ne_failed : Exit.done ≠ .failed := nofun

theorem Exit.done_ne_escaped (x : Escape) : Exit.done ≠ .escaped x := nofun

theorem Exit.failed_ne_escaped (x : Escape) : Exit.failed ≠ .escaped x := nofun

theorem isCaught_packet (f : PacketFault) : isCaught (.packet f) = false := rfl

theorem not_foreseen_packet (f : PacketFault) : ¬ (StreamError.packet f).Foreseen := by
  simp [StreamError.Foreseen, StreamError.isContainer]

/-- What the end of the chunks says decides how a copy ends. -/
theorem copyEnds_of_error {options : Common} {chunks : Delivery Bytes}
    (h : ∀ e, chunks.error = some e → e.Foreseen ∨ ∃ f, e = .packet f) :
    CopyEnds options chunks (copyExit chunks.error)
      [(options.output, String.join ((messagesIn chunks).map (· ++ "\n")))] := by
  cases herror : chunks.error with
  | none =>
    refine ⟨rfl, .inl rfl, iff_of_true rfl herror, iff_of_false Exit.done_ne_failed ?_,
      fun x => iff_of_false (Exit.done_ne_escaped x) ?_⟩
    · simp [herror]
    · simp [herror]
  | some e =>
    have hsome : chunks.error ≠ none := by simp [herror]
    rcases h e herror with hforeseen | ⟨f, rfl⟩
    · rw [show copyExit (some e) = .failed from if_pos ((isCaught_iff e).mpr hforeseen)]
      refine ⟨rfl, .inr (.inl rfl), iff_of_false Exit.done_ne_failed.symm hsome,
        iff_of_true rfl ⟨e, herror, hforeseen⟩,
        fun x => iff_of_false (Exit.failed_ne_escaped x) ?_⟩
      rintro ⟨f, hf, _⟩
      cases herror.symm.trans hf
      exact not_foreseen_packet f hforeseen
    · refine ⟨rfl, .inr (.inr ⟨_, rfl⟩), iff_of_false (Exit.done_ne_escaped _).symm hsome,
        iff_of_false (Exit.failed_ne_escaped _).symm ?_, fun x => ?_⟩
      · rintro ⟨e, he, hforeseen⟩
        cases herror.symm.trans he
        exact not_foreseen_packet f hforeseen
      · simp [herror, copyExit, endOf, isCaught_packet, eq_comm]

def Writes (options : ReportOptions) (analysis : Settings.Analysis) (rs : List Reading)
    (cause : Option String) (texts : List (Target × String)) : Prop :=
  ∃ r, Reported analysis rs cause r ∧ texts = [(options.common.output, options.render r)]

/-- What ends a report in good order before the input has run out: a foreseen error, if the readings
before it can be observed, and reported if that is asked for. -/
def Fails (options : ReportOptions) (analysis : Settings.Analysis) (rs : List Reading)
    (ending : Option StreamError) : Prop :=
  ∃ e, ending = some e ∧ e.Foreseen ∧
    if options.bestEffort = true ∧ e.isContainer = true then Reportable analysis rs
    else (Ledger.ofReadings rs).Accepted analysis.accuracy

/-- What lets an error out of a report: readings that cannot be observed, a fault of a packet capture,
and statistics to be reported of which there is no report. -/
def Trips (options : ReportOptions) (analysis : Settings.Analysis) (rs : List Reading)
    (ending : Option StreamError) : Prop :=
  ¬ (Ledger.ofReadings rs).Accepted analysis.accuracy ∨ (∃ f, ending = some (.packet f)) ∨
    Statistics.Concludes options.bestEffort ending ∧ ¬ Reportable analysis rs

/-- How a report ends that has come upon the given readings. The status is zero if the input has run out
and there is a report, which is then written. It is one if a foreseen error has ended the input, and then
nothing is written, unless what came before the end of a container is asked for. Else an error is let out
before anything is written. -/
structure Settled (options : ReportOptions) (analysis : Settings.Analysis) (rs : List Reading)
    (ending : Option StreamError) (exit : Exit) (texts : List (Target × String)) : Prop where
  total : exit = .done ∨ exit = .failed ∨ ∃ x, exit = .escaped x
  done_iff : exit = .done ↔ ending = none ∧ Reportable analysis rs
  done_texts : exit = .done → Writes options analysis rs none texts
  failed_iff : exit = .failed ↔ Fails options analysis rs ending
  failed_texts : exit = .failed → ∀ e, ending = some e →
    if options.bestEffort = true ∧ e.isContainer = true then
      Writes options analysis rs (some e.message) texts
    else texts = []
  escaped_iff : (∃ x, exit = .escaped x) ↔ Trips options analysis rs ending
  escaped_texts : (∃ x, exit = .escaped x) → texts = []

section

variable {options : ReportOptions} {analysis : Settings.Analysis} {rs : List Reading}
  {ending : Option StreamError} {texts : List (Target × String)}

/-- Where there is a full report nothing trips. -/
theorem not_trips_of_reportable (h : Reportable analysis rs) : ¬ Trips options analysis rs none := by
  rintro (hrefused | ⟨f, hf⟩ | ⟨_, hreport⟩)
  · exact hrefused h.snapshot.accepted
  · cases hf
  · exact hreport h

theorem Fails.not_trips (h : Fails options analysis rs ending) :
    ¬ Trips options analysis rs ending := by
  obtain ⟨e, rfl, hforeseen, h⟩ := h
  have haccepted : (Ledger.ofReadings rs).Accepted analysis.accuracy := by
    split at h
    · exact h.snapshot.accepted
    · exact h
  rintro (hrefused | ⟨f, hf⟩ | ⟨⟨hbest, hcontainer⟩, hreport⟩)
  · exact hrefused haccepted
  · cases hf
    exact not_foreseen_packet f hforeseen
  · rw [if_pos ⟨hbest, hcontainer⟩] at h
    exact hreport h

theorem Writes.reportable {cause : Option String} (h : Writes options analysis rs cause texts) :
    Reportable analysis rs := by
  obtain ⟨r, hr, _⟩ := h
  exact (exists_reported_iff analysis rs cause).mp ⟨r, hr⟩

theorem settled_done (h : Writes options analysis rs none texts) :
    Settled options analysis rs none .done texts where
  total := .inl rfl
  done_iff := iff_of_true rfl ⟨rfl, h.reportable⟩
  done_texts _ := h
  failed_iff := iff_of_false Exit.done_ne_failed fun ⟨_, he, _⟩ => nomatch he
  failed_texts hexit := absurd hexit Exit.done_ne_failed
  escaped_iff := iff_of_false (fun ⟨x, hx⟩ => Exit.done_ne_escaped x hx)
    (not_trips_of_reportable h.reportable)
  escaped_texts := fun ⟨x, hx⟩ => absurd hx (Exit.done_ne_escaped x)

theorem settled_failed {e : StreamError} (h : Fails options analysis rs (some e))
    (htexts : if options.bestEffort = true ∧ e.isContainer = true then
        Writes options analysis rs (some e.message) texts
      else texts = []) : Settled options analysis rs (some e) .failed texts where
  total := .inr (.inl rfl)
  done_iff := iff_of_false Exit.done_ne_failed.symm fun he => nomatch he.1
  done_texts hexit := absurd hexit Exit.done_ne_failed.symm
  failed_iff := iff_of_true rfl h
  failed_texts _ _ he := Option.some.inj he ▸ htexts
  escaped_iff := iff_of_false (fun ⟨x, hx⟩ => Exit.failed_ne_escaped x hx) h.not_trips
  escaped_texts := fun ⟨x, hx⟩ => absurd hx (Exit.failed_ne_escaped x)

theorem settled_escaped (x : Escape) (h : Trips options analysis rs ending) :
    Settled options analysis rs ending (.escaped x) [] where
  total := .inr (.inr ⟨x, rfl⟩)
  done_iff := iff_of_false (Exit.done_ne_escaped x).symm
    fun ⟨hnone, hreport⟩ => not_trips_of_reportable hreport (hnone ▸ h)
  done_texts hexit := absurd hexit (Exit.done_ne_escaped x).symm
  failed_iff := iff_of_false (Exit.failed_ne_escaped x).symm fun hf => hf.not_trips h
  failed_texts hexit := absurd hexit (Exit.failed_ne_escaped x).symm
  escaped_iff := iff_of_true ⟨x, rfl⟩ h
  escaped_texts _ := rfl

/-- Where statistics are to be reported, the report is written or there is none. -/
theorem settled_of_conclude {st : Statistics} {exit : Exit}
    (hst : Statistics.observed analysis rs = .ok st)
    (hc : Statistics.Concludes options.bestEffort ending)
    (h : ReportRun options analysis.quantiles (st.conclude (ending.map StreamError.message)) exit
      texts) : Settled options analysis rs ending exit texts := by
  have htrips : ¬ Reportable analysis rs → Trips options analysis rs ending :=
    fun hn => .inr (.inr ⟨hc, hn⟩)
  cases hconclude : st.conclude (ending.map StreamError.message) with
  | error e =>
    rw [hconclude] at h
    have hn : ¬ Reportable analysis rs := by
      intro hr
      obtain ⟨snap, hsnap⟩ := (Statistics.conclude_iff_hasSnapshot hst _).mpr hr.snapshot
      cases hconclude.symm.trans hsnap
    cases h with
    | failed =>
      obtain ⟨f, hf⟩ := Statistics.error_conclude hconclude
      cases hf
    | escaped => exact settled_escaped _ (htrips hn)
  | ok snap =>
    rw [hconclude] at h
    cases h with
    | unwritten hr =>
      refine settled_escaped _ (htrips fun hreport => ?_)
      have hanswers := hreport.answers st hst
      rw [← Statistics.statistics_of_conclude hconclude] at hanswers
      obtain ⟨r, hr'⟩ := (Report.exists_ofSnapshot_iff snap _).mpr hanswers
      cases hr.symm.trans hr'
    | written hr =>
      have hreported : Reported analysis rs (ending.map StreamError.message) _ :=
        ⟨snap, bind_eq_ok_iff.mpr ⟨st, hst, hconclude⟩, hr⟩
      rw [Statistics.aborted_of_conclude hconclude]
      cases ending with
      | none => exact settled_done ⟨_, hreported, rfl⟩
      | some e =>
        have hreport := (exists_reported_iff analysis rs _).mp ⟨_, hreported⟩
        exact settled_failed ⟨e, rfl, .inl hc.2, (if_pos hc).mpr hreport⟩
          ((if_pos hc).mpr ⟨_, hreported, rfl⟩)

/-- A report ends as the outcome of the analysis has it. -/
theorem settled_of_run {exit : Exit}
    (hending : ∀ e, ending = some e → e.Foreseen ∨ ∃ f, e = .packet f)
    (h : ReportRun options analysis.quantiles
      ((Statistics.observed analysis rs).bind fun st => st.finish options.bestEffort ending) exit texts) :
    Settled options analysis rs ending exit texts := by
  rcases Statistics.observed_cases analysis rs with ⟨haccepted, st, hst, _⟩ | ⟨hrefused, f, hf⟩
  · rw [hst] at h
    change ReportRun _ _ (st.finish options.bestEffort ending) _ _ at h
    by_cases hc : Statistics.Concludes options.bestEffort ending
    · rw [Statistics.finish_of_concludes hc] at h
      exact settled_of_conclude hst hc h
    · -- The readings are observed, but not reported: the error of the input is all there is.
      cases ending with
      | none => exact absurd trivial hc
      | some e =>
        rw [Statistics.finish_of_not_concludes hc] at h
        cases h with
        | failed hcaught =>
          exact settled_failed ⟨e, rfl, (isCaught_iff e).mp hcaught, (if_neg hc).mpr haccepted⟩
            ((if_neg hc).mpr rfl)
        | escaped hescaped =>
          refine settled_escaped _ (.inr (.inl ?_))
          rcases hending e rfl with hforeseen | ⟨f, rfl⟩
          · cases (hescaped e rfl).symm.trans ((isCaught_iff e).mpr hforeseen)
          · exact ⟨f, rfl⟩
  · rw [hf] at h
    cases h with
    | escaped => exact settled_escaped _ (.inl hrefused)

end

/-- How a report of some chunks ends: by letting an error out before anything is written, if one of the
messages cannot be read, and else as their readings have it. -/
def ReportEnds (options : ReportOptions) (analysis : Settings.Analysis) (chunks : Delivery Bytes)
    (exit : Exit) (texts : List (Target × String)) : Prop :=
  ((¬ ∀ line ∈ messagesIn chunks, Readable line) ∧ (∃ x, exit = .escaped x) ∧ texts = []) ∨
    ∃ rs, (messagesIn chunks).map Reading.ofLine = rs.map .ok ∧
      Settled options analysis rs chunks.error exit texts

theorem textPolicy_copy {args : List String} {options : Common}
    (h : readCopyOptions args = .ok options) : options.reader.textPolicy = .replace := by
  obtain ⟨c, _, hc⟩ := bind_eq_ok_iff.mp h
  cases hc
  rfl

theorem textPolicy_report {args : List String} {options : ReportOptions}
    (h : readReportOptions args = .ok options) : options.common.reader.textPolicy = .replace := by
  unfold readReportOptions at h
  obtain ⟨c, _, h⟩ := bind_eq_ok_iff.mp h
  obtain ⟨_, _, h⟩ := bind_eq_ok_iff.mp h
  obtain ⟨accuracy, _, h⟩ := bind_eq_ok_iff.mp h
  obtain ⟨quantiles, _, h⟩ := bind_eq_ok_iff.mp h
  obtain ⟨form, _, h⟩ := bind_eq_ok_iff.mp h
  cases h
  rfl

theorem reportEnds_of_run {options : ReportOptions} {analysis : Settings.Analysis}
    {texts : List (Target × String)} {exit : Exit} {cfg : Settings.Reader} {s : Source}
    (hpolicy : cfg.textPolicy = .replace)
    (h : ReportRun options analysis.quantiles (s.analyze cfg analysis options.bestEffort).result exit
      texts) : ReportEnds options analysis (s.payloads cfg).chunks exit texts := by
  have hmessages := Source.messages_replace hpolicy s
  by_cases hread : ∀ line ∈ (s.messages cfg).items, Readable line
  · obtain ⟨rs, hreads, _⟩ := Source.exists_reads hread
    rw [hreads.analyze, hmessages] at h
    refine .inr ⟨rs, ?_, settled_of_run (fun e he => ?_) h⟩
    · rw [Source.Reads, hmessages] at hreads
      exact hreads
    · exact (Source.error_payloads he).imp_right And.left
  · -- Whether the statistics break off first or the line does, the error is none that is caught.
    obtain ⟨e, he, hinteger⟩ := Source.analyze_unreadable hread analysis options.bestEffort
    rw [he] at h
    rw [hmessages] at hread
    cases h with
    | failed hcaught =>
      obtain ⟨i, rfl⟩ := hinteger _ rfl
      cases hcaught
    | escaped => exact .inl ⟨hread, ⟨_, rfl⟩, rfl⟩

/-- How a command ends on account of the level of its log: one that the log cannot have is let out before
anything is written, and with any other the command ends as given. -/
def EndsWith (level : Except LevelFault Nat) (ends : Exit → List (Target × String) → Prop) (exit : Exit)
    (texts : List (Target × String)) : Prop :=
  match level with
  | .error f => exit = .escaped (.level f) ∧ texts = []
  | .ok _ => ends exit texts

section

variable {m : Type → Type} {ps : PostShape} [Monad m] [WPMonad m ps]

/-- On a host that serves it a command always ends. Both commands let out a level that the log cannot have.
With any other a copy lets out the faults of packet captures and nothing else; a report also lets out what a
line that cannot be read breaks off with, what its statistics refuse, and what there is no estimate of. Else
the status is zero if the chunks of the input run out, and one if they do not. Only a packet capture has such
faults, and text runs out unless its decoding breaks off: a compressed stream that is cut off has run out. -/
theorem exit_of_serves (host : Host m) (held : List (Target × String) → Assertion ps) (around : Surroundings)
    (args : List String) (bytes : Bytes) :
    (∀ options, readCopyOptions args = .ok options → options.help = false →
      options.output ≠ .nowhere → Serves host held around options.input options.output bytes →
      ∃ exit texts, Gives held (runCopy host around args) exit texts ∧
        EndsWith (threshold (options.level.getD around.level))
          (CopyEnds options ((Source.ofBytes bytes).payloads options.reader).chunks) exit texts) ∧
    (∀ options analysis, readReportOptions args = .ok options → options.common.help = false →
      options.common.output ≠ .nowhere →
      Settings.Analysis.ofValues options.settings = .ok analysis →
      Serves host held around options.common.input options.common.output bytes →
      ∃ exit texts, Gives held (runReport host around args) exit texts ∧
        EndsWith (threshold (options.common.level.getD around.level))
          (ReportEnds options analysis ((Source.ofBytes bytes).payloads options.common.reader).chunks)
          exit texts) ∧
    (∀ cfg f, ((Source.ofBytes bytes).payloads cfg).chunks.error = some (.packet f) →
      (Source.ofBytes bytes).HoldsPackets cfg) ∧
    ∀ cfg r, (Source.ofBytes bytes).resolve cfg = .ok r → r.kind = .text →
      (((Source.ofBytes bytes).payloads cfg).chunks.error = none ↔ ¬ r.source.Broken) := by
  refine ⟨?_, ?_, ?_, fun cfg r hr hkind => Source.error_text hr hkind⟩
  · intro options hargs hhelp htarget hserves
    cases hlevel : threshold (options.level.getD around.level) with
    | error f => exact ⟨_, _, gives_runCopy_of_fault hargs hhelp hlevel, rfl, rfl⟩
    | ok least =>
      have hgives := gives_runCopy hargs hhelp hlevel htarget hserves
      rw [Source.messages_replace (textPolicy_copy hargs)] at hgives
      exact ⟨_, _, hgives, copyEnds_of_error fun e he => (Source.error_payloads he).imp_right And.left⟩
  · intro options analysis hargs hhelp htarget hsettings hserves
    cases hlevel : threshold (options.common.level.getD around.level) with
    | error f => exact ⟨_, _, gives_runReport_of_fault hargs hhelp hlevel, rfl, rfl⟩
    | ok least =>
      obtain ⟨exit, texts, hgives, hrun⟩ := gives_runReport hargs hhelp hlevel htarget hsettings hserves
      exact ⟨exit, texts, hgives, reportEnds_of_run (textPolicy_report hargs) hrun⟩
  · intro cfg f he
    exact ((Source.error_payloads he).resolve_left (not_foreseen_packet f)).2

end

def memory (bytes : Bytes) : Host (StateM (List (Target × String))) where
  openInput _ := pure none
  readInput _ := pure bytes
  openOutput _ := pure none
  write target text := modify fun written => written ++ [(target, text)]
  openLog _ := pure none
  log _ := pure ()

def kept (texts : List (Target × String)) : Assertion (.arg (List (Target × String)) .pure) :=
  fun written => ⌜written = texts⌝

theorem serves_memory (bytes : Bytes) (around : Surroundings) (input output : Target) :
    Serves (memory bytes) kept around input output bytes where
  openLog _ := gives_pure none
  log _ := gives_pure ()
  openInput := gives_pure none
  readInput := gives_pure bytes
  openOutput := gives_pure none
  write text := by
    intro before written hwritten
    cases hwritten
    exact ⟨rfl, rfl⟩

def cutRecords : Bytes :=
  [0xD4, 0xC3, 0xB2, 0xA1, 2, 0, 4, 0, 0, 0, 0, 0, 0, 0, 0, 0, 0xFF, 0xFF, 0, 0, 1, 0, 0, 0,
    0, 0xF1, 0x53, 0x65, 0, 0]

theorem error_cutRecords :
    ((Source.ofBytes cutRecords).payloads .standard).chunks.error = some (.packet .shortHeader) := by
  have hstep : Packet.readRecord ⟨false, 16⟩ ⟨cutRecords.drop 24, .complete⟩ =
      .stop (some (.packet .shortHeader)) := rfl
  have hrecords : Packet.Capture.ofRecords (Source.ofBytes cutRecords) =
      .ok ⟨1, ⟨[], some (.packet .shortHeader)⟩⟩ := by
    rw [← show _ = Delivery.mk [] _ from Packet.collect_stop (Packet.readRecord_shrinks _) [] hstep]
    rfl
  have hdatagrams : (Source.ofBytes cutRecords).datagrams false =
      ⟨[], some (.packet .shortHeader)⟩ := by
    unfold Source.datagrams Source.capture
    rw [if_neg Bool.false_ne_true, hrecords]
    rfl
  have hdetect : Settings.Reader.standard.detect
      (cutRecords.take Settings.Reader.standard.sniffLength) = .pcap := rfl
  unfold Source.payloads
  rw [Source.resolve_ofBytes hdetect (fun he => nomatch he)]
  dsimp only
  rw [(Source.error_payloadsOf_packets _ _ _).1, hdatagrams]

def plainOptions : Common where
  help := false
  input := .file "capture.bin"
  output := .standard
  level := none
  reader := .standard

private theorem collect_plain : collect {} [(.plain, "capture.bin")] =
    .ok ({ input := some (some "capture.bin") } : Collected Key) := by
  simp [collect]

theorem readCopyOptions_plain : readCopyOptions ["capture.bin"] = .ok plainOptions := by
  have htokens : tokens commonSpecs ["capture.bin"] = .ok [(.plain, "capture.bin")] := rfl
  unfold readCopyOptions Collected.ofArguments
  rw [htokens]
  change (collect _ _ >>= _) >>= _ = _
  rw [collect_plain]
  rfl

theorem readReportOptions_plain :
    readReportOptions ["capture.bin"] = .ok ⟨plainOptions, .text, false, []⟩ := by
  have htokens : tokens reportSpecs ["capture.bin"] = .ok [(.plain, "capture.bin")] := rfl
  unfold readReportOptions Collected.ofArguments
  rw [htokens]
  change (collect _ _ >>= _) >>= _ = _
  rw [collect_plain]
  rfl

theorem exit_cutRecords :
    (∃ texts, Gives kept (runCopy (memory cutRecords) {} ["capture.bin"])
      (.escaped (.analysis (.stream (.packet .shortHeader)))) texts) ∧
    (∃ x, Gives kept (runReport (memory cutRecords) {} ["capture.bin"]) (.escaped x) []) ∧
    Gives kept (runCopy (memory cutRecords) { level := "basic_format" } ["capture.bin"])
      (.escaped (.level .format)) [] ∧
    (Source.ofBytes cutRecords).HoldsPackets .standard := by
  obtain ⟨hcopy, hreport, hpackets, _⟩ :=
    exit_of_serves (memory cutRecords) kept {} ["capture.bin"] cutRecords
  have hwarning : threshold "WARNING" = .ok Level.warning.weight := rfl
  refine ⟨?_, ?_, ?_, hpackets _ _ error_cutRecords⟩
  · obtain ⟨exit, texts, hgives, hends⟩ :=
      hcopy plainOptions readCopyOptions_plain rfl nofun (serves_memory ..)
    change EndsWith (threshold "WARNING") _ _ _ at hends
    rw [hwarning] at hends
    have hexit := (hends.escaped_iff _).mpr ⟨_, error_cutRecords, rfl⟩
    exact ⟨texts, hexit ▸ hgives⟩
  · obtain ⟨exit, texts, hgives, hends⟩ :=
      hreport _ .standard readReportOptions_plain rfl nofun rfl (serves_memory ..)
    change EndsWith (threshold "WARNING") _ _ _ at hends
    rw [hwarning] at hends
    have hescaped : (∃ x, exit = .escaped x) ∧ texts = [] := by
      rcases hends with ⟨_, h⟩ | ⟨rs, _, hsettled⟩
      · exact h
      · have hexit := hsettled.escaped_iff.mpr (.inr (.inl ⟨_, error_cutRecords⟩))
        exact ⟨hexit, hsettled.escaped_texts hexit⟩
    obtain ⟨⟨x, rfl⟩, rfl⟩ := hescaped
    exact ⟨x, hgives⟩
  · obtain ⟨exit, texts, hgives, rfl, rfl⟩ :=
      (exit_of_serves (memory cutRecords) kept { level := "basic_format" } ["capture.bin"] cutRecords).1
        plainOptions readCopyOptions_plain rfl nofun (serves_memory ..)
    exact hgives

end MetricCapture.Command
