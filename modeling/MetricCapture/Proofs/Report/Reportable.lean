import MetricCapture.Proofs.Attempt
import MetricCapture.Proofs.Statistics.Estimate
import MetricCapture.Report.Basic
/-! Reports of readings: what is in the report of some readings, and when there is one. -/
namespace MetricCapture

def Sketch.Answers (s : Sketch) (quantiles : List Float) : Prop :=
  s.count ≠ 0 → ∀ q ∈ quantiles, ∃ x, s.quantile q = .ok x

theorem Summary.exists_estimates_iff (s : Sketch) (quantiles : List Float) :
    (∃ figures, estimates s quantiles = .ok figures) ↔
      ∀ q ∈ quantiles, ∃ x, s.quantile q = .ok x := by
  refine exists_foldlM_iff (fun done q => ?_) _ _
  constructor
  · rintro ⟨figures, h⟩
    obtain ⟨x, hx, _⟩ := bind_eq_ok_iff.mp h
    exact ⟨x, hx⟩
  · rintro ⟨x, hx⟩
    exact ⟨_, bind_eq_ok_iff.mpr ⟨x, hx, rfl⟩⟩

theorem Summary.exists_ofSketch_iff (s : Sketch) (quantiles : List Float) :
    (∃ summary, ofSketch s quantiles = .ok summary) ↔ s.Answers quantiles := by
  unfold ofSketch Sketch.Answers
  split
  · rename_i h
    exact iff_of_true ⟨none, rfl⟩ fun hne => absurd h hne
  · rename_i h
    rw [imp_iff_right h, ← exists_estimates_iff]
    constructor
    · rintro ⟨summary, hs⟩
      obtain ⟨figures, hfigures, _⟩ := bind_eq_ok_iff.mp hs
      exact ⟨figures, hfigures⟩
    · rintro ⟨figures, hfigures⟩
      exact ⟨_, bind_eq_ok_iff.mpr ⟨figures, hfigures, rfl⟩⟩

/-- There is a report of a snapshot if every quantile asked for can be estimated for every attribute. -/
theorem Report.exists_ofSnapshot_iff (snap : Snapshot) (quantiles : List Float) :
    (∃ r, ofSnapshot snap quantiles = .ok r) ↔
      ∀ a, (snap.statistics.distributions.get a).Answers quantiles := by
  have hsummary : ∀ a, (∃ named, (do
      let summary ← Summary.ofSketch (snap.statistics.distributions.get a) quantiles
      pure (a, summary) : Except Sketch.Failure (Attribute × Option Summary)) = .ok named) ↔
      (snap.statistics.distributions.get a).Answers quantiles := by
    intro a
    rw [← Summary.exists_ofSketch_iff]
    constructor
    · rintro ⟨named, h⟩
      obtain ⟨summary, hs, _⟩ := bind_eq_ok_iff.mp h
      exact ⟨summary, hs⟩
    · rintro ⟨summary, hs⟩
      exact ⟨_, bind_eq_ok_iff.mpr ⟨summary, hs, rfl⟩⟩
  constructor
  · rintro ⟨r, hr⟩ a
    obtain ⟨attributes, hattributes, _⟩ := bind_eq_ok_iff.mp hr
    exact (hsummary a).mp (exists_mapM_iff.mp ⟨_, hattributes⟩ a a.mem_all)
  · intro h
    obtain ⟨attributes, hattributes⟩ := exists_mapM_iff.mpr fun a _ => (hsummary a).mpr (h a)
    exact ⟨_, bind_eq_ok_iff.mpr ⟨attributes, hattributes, rfl⟩⟩

def Reported (analysis : Settings.Analysis) (rs : List Reading) (cause : Option String) (r : Report) :
    Prop :=
  ∃ snap, (Statistics.observed analysis rs).bind (·.conclude cause) = .ok snap ∧
    Report.ofSnapshot snap analysis.quantiles = .ok r

/-- Readings of which there is a report: there is a snapshot of them, and every quantile asked for can
be estimated for every attribute. -/
structure Reportable (analysis : Settings.Analysis) (rs : List Reading) : Prop where
  snapshot : Statistics.HasSnapshot analysis rs
  answers : ∀ st, Statistics.observed analysis rs = .ok st →
    ∀ a, (st.distributions.get a).Answers analysis.quantiles

/-- Whether there is a report does not depend on what has ended the readings. -/
theorem exists_reported_iff (analysis : Settings.Analysis) (rs : List Reading)
    (cause : Option String) : (∃ r, Reported analysis rs cause r) ↔ Reportable analysis rs := by
  constructor
  · rintro ⟨r, snap, hsnap, hr⟩
    obtain ⟨st, hst, hconclude⟩ := bind_eq_ok_iff.mp hsnap
    refine ⟨(Statistics.conclude_iff_hasSnapshot hst cause).mp ⟨snap, hconclude⟩, ?_⟩
    intro st' hst'
    obtain rfl : st = st' := Except.ok.inj (hst.symm.trans hst')
    rw [← Statistics.statistics_of_conclude hconclude]
    exact (Report.exists_ofSnapshot_iff _ _).mp ⟨r, hr⟩
  · rintro ⟨hsnapshot, hanswers⟩
    rcases Statistics.observed_cases analysis rs with ⟨_, st, hst, _⟩ | ⟨hrefused, _⟩
    · obtain ⟨snap, hconclude⟩ := (Statistics.conclude_iff_hasSnapshot hst cause).mpr hsnapshot
      have hstatistics := Statistics.statistics_of_conclude hconclude
      obtain ⟨r, hr⟩ := (Report.exists_ofSnapshot_iff snap analysis.quantiles).mpr
        (hstatistics ▸ hanswers st hst)
      exact ⟨r, snap, bind_eq_ok_iff.mpr ⟨st, hst, hconclude⟩, hr⟩
    · exact absurd hsnapshot.accepted hrefused

end MetricCapture
