import MetricCapture.Proofs.Cardinality.Estimate
import MetricCapture.Proofs.Report.Finite
import MetricCapture.Proofs.Sketch.Representative
/-! The report of some lines: exactly when there is one, what the lines have to keep to for it, and that
its numbers are finite. -/
namespace MetricCapture

open MetricCapture.Number MetricCapture.Sketch

/-- Byte strings whose number can be estimated: they leave a register empty or fill the registers higher,
but not so high that they are taken for as many as there are hashes. -/
structure Registers.Estimable (precision : Nat) (items : List Bytes) : Prop where
  not_crowded : ¬ Crowded precision items (ofItems precision items)
  not_exhausted : ¬ Exhausted (ofItems precision items)

theorem Registers.estimable_iff {precision : Nat} (hp : precision ≤ 16) (items : List Bytes) :
    Estimable precision items ↔ (ofItems precision items).estimate ≠ none := by
  rw [Ne, (represents_ofItems precision items).estimate_eq_none_iff hp, not_or]
  exact ⟨fun h => ⟨h.not_crowded, h.not_exhausted⟩, fun h => ⟨h.1, h.2⟩⟩

namespace Ledger

/-- Ledgers of which there is a report for sure: sketches take in the samples, can count them exactly and
have a representative for every bin, and there are fewer different contexts and tags than registers. -/
structure Manageable (cfg : Settings.Analysis) (l : Ledger) : Prop where
  accepts : ∀ a, ∀ x ∈ l.samples a, (Mapping.ofAccuracy cfg.accuracy).Accepts x
  length_le : ∀ a, (l.samples a).length ≤ 2 ^ (53 : Nat)
  positive : ∀ a, (Mapping.ofAccuracy cfg.accuracy).Covers cfg.binLimit
    ((l.samples a).filterMap (Mapping.ofAccuracy cfg.accuracy).positiveKey?)
  negative : ∀ a, (Mapping.ofAccuracy cfg.accuracy).Covers cfg.binLimit
    ((l.samples a).filterMap (Mapping.ofAccuracy cfg.accuracy).negativeKey?)
  contexts : l.contexts.toFinset.card < 2 ^ cfg.precision
  tags : l.tags.toFinset.card < 2 ^ cfg.precision

theorem mem_reasons_ofReadings {rs : List Reading} {reason : Reason} :
    reason ∈ (ofReadings rs).reasons ↔ ∃ r ∈ rs, reason ∈ (ofReading r).reasons := by
  induction rs with
  | nil => exact iff_of_false List.not_mem_nil nofun
  | cons r rs ih =>
    change reason ∈ (ofReading r).reasons ++ (ofReadings rs).reasons ↔ _
    rw [List.mem_append, ih, List.exists_mem_cons_iff]

/-- What is told of lines tells of no blank one. -/
theorem emptyLine_not_mem (lines : List String) :
    Reason.emptyLine ∉ (ofReadings (lines.flatMap Reading.counted)).reasons := by
  intro hmem
  obtain ⟨r, hr, hreason⟩ := mem_reasons_ofReadings.mp hmem
  obtain ⟨line, _, hline⟩ := List.mem_flatMap.mp hr
  unfold Reading.counted at hline
  split at hline
  · obtain rfl := List.mem_singleton.mp hline
    exact absurd hreason List.not_mem_nil
  · split at hline
    · exact absurd hline List.not_mem_nil
    · rename_i hne
      obtain rfl := List.mem_singleton.mp hline
      exact hne (List.mem_singleton.mp hreason).symm
  · exact absurd hline List.not_mem_nil

end Ledger

variable {cfg : Settings.Analysis} {rs : List Reading}

/-- Quantiles between zero and one can be told unless one lies in a bin beyond the largest double. -/
theorem Sketch.answers_iff (s : Sketch) {quantiles : List Float}
    (hq : ∀ q ∈ quantiles, 0.0 ≤ q ∧ q ≤ 1.0) :
    s.Answers quantiles ↔ ∀ q ∈ quantiles, s.quantile q ≠ .error .valueOverflow := by
  unfold Answers
  constructor
  · intro h q hmem
    by_cases hcount : s.count = 0
    · rw [quantile_of_count_eq_zero (hq q hmem) hcount]
      exact nofun
    · exact (exists_quantile_iff (hq q hmem)).mp (h hcount q hmem)
  · exact fun h _ q hmem => (exists_quantile_iff (hq q hmem)).mpr (h q hmem)

/-- There is a report if the readings can be observed, both estimates can be made, and no quantile that is
asked for lies in a bin beyond the largest double. -/
theorem reportable_iff (cfg : Settings.Analysis) (rs : List Reading) :
    Reportable cfg rs ↔
      (Ledger.ofReadings rs).Accepted cfg.accuracy ∧
      Registers.Estimable cfg.precision (Ledger.ofReadings rs).contexts ∧
      Registers.Estimable cfg.precision (Ledger.ofReadings rs).tags ∧
      ∀ st, Statistics.observed cfg rs = .ok st → ∀ a, ∀ q ∈ cfg.quantiles,
        (st.distributions.get a).quantile q ≠ .error .valueOverflow := by
  have hp := cfg.precision_mem.2
  constructor
  · rintro ⟨⟨haccepted, hcontexts, htags⟩, hanswers⟩
    refine ⟨haccepted, (Registers.estimable_iff hp _).mpr hcontexts,
      (Registers.estimable_iff hp _).mpr htags, fun st hst a => ?_⟩
    exact (Sketch.answers_iff _ cfg.quantiles_mem).mp (hanswers st hst a)
  · rintro ⟨haccepted, hcontexts, htags, hquantiles⟩
    refine ⟨⟨haccepted, (Registers.estimable_iff hp _).mp hcontexts,
      (Registers.estimable_iff hp _).mp htags⟩, fun st hst a => ?_⟩
    exact (Sketch.answers_iff _ cfg.quantiles_mem).mpr (hquantiles st hst a)

/-- There is a report of readings that tell no more than can be managed. -/
theorem Ledger.Manageable.reportable (h : (Ledger.ofReadings rs).Manageable cfg)
    (hr : Reason.emptyLine ∉ (Ledger.ofReadings rs).reasons) : Reportable cfg rs := by
  have haccepted : (Ledger.ofReadings rs).Accepted cfg.accuracy := ⟨hr, h.accepts⟩
  refine ⟨⟨haccepted, ?_, ?_⟩, fun st hst a _ q hq => ?_⟩
  · exact (Registers.represents_ofItems _ _).estimate_ne_none cfg.precision_mem h.contexts
  · exact (Registers.represents_ofItems _ _).estimate_ne_none cfg.precision_mem h.tags
  · rcases Statistics.observed_cases cfg rs with ⟨_, st', hst', hrep⟩ | ⟨hrefused, _⟩
    · obtain rfl : st = st' := Except.ok.inj (hst.symm.trans hst')
      exact (hrep.distributions a).exists_quantile (h.length_le a) (h.positive a) (h.negative a)
        (cfg.quantiles_mem q hq)
    · exact absurd haccepted hrefused

/-- Take any settings and any lines, of which those that are not blank are observed. There is a report of
them exactly if each sketch takes in its samples, both estimates can be made, and no quantile that is asked
for lies in a bin beyond the largest double. That is so if the lines tell no more than can be managed. And
every fractional number in a report is finite. -/
theorem report_lines (cfg : Settings.Analysis) (lines : List String) :
    let rs := lines.flatMap Reading.counted
    let told := Ledger.ofReadings rs
    ((∃ r, Reported cfg rs none r) ↔
      (∀ a, ∀ x ∈ told.samples a, (Mapping.ofAccuracy cfg.accuracy).Accepts x) ∧
      Registers.Estimable cfg.precision told.contexts ∧
      Registers.Estimable cfg.precision told.tags ∧
      ∀ st, Statistics.observed cfg rs = .ok st → ∀ a, ∀ q ∈ cfg.quantiles,
        (st.distributions.get a).quantile q ≠ .error .valueOverflow) ∧
    (told.Manageable cfg → ∃ r, Reported cfg rs none r) ∧
    ∀ r, Reported cfg rs none r → ∀ x ∈ (Document.ofReport r).numbers, IsFinite x := by
  intro rs told
  have hreasons : Reason.emptyLine ∉ told.reasons := Ledger.emptyLine_not_mem lines
  refine ⟨?_, fun h => (exists_reported_iff cfg rs none).mpr (h.reportable hreasons), ?_⟩
  · rw [exists_reported_iff, reportable_iff]
    exact and_congr_left fun _ => ⟨fun h => h.samples, fun h => ⟨hreasons, h⟩⟩
  · rintro r ⟨snap, _, hr⟩
    exact Report.finite_numbers hr

end MetricCapture
