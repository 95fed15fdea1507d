import MetricCapture.Proofs.Number.Quotient
import MetricCapture.Proofs.Report.Reportable
import MetricCapture.Report.Document
/-! The numbers of a report. Whatever the statistics are, a report shows finite numbers alone: what is not
finite is left out, and rounding to four places makes nothing infinite. -/
namespace MetricCapture

open MetricCapture.Number

namespace Document

mutual

def numbers : Document → List Float
  | .number x => [x]
  | .object fields => fieldNumbers fields
  | .null | .flag _ | .integer _ | .text _ => []

def fieldNumbers : List (String × Document) → List Float
  | [] => []
  | (_, value) :: rest => value.numbers ++ fieldNumbers rest

end

theorem mem_fieldNumbers {fields : List (String × Document)} {x : Float} :
    x ∈ fieldNumbers fields ↔ ∃ f ∈ fields, x ∈ f.2.numbers := by
  induction fields with
  | nil => exact iff_of_false List.not_mem_nil nofun
  | cons f rest ih =>
    obtain ⟨name, value⟩ := f
    rw [fieldNumbers, List.mem_append, ih, List.exists_mem_cons_iff]

theorem mem_numbers_ofFigure {figure : Option Float} {x : Float} :
    x ∈ (ofFigure figure).numbers ↔ figure = some x := by
  cases figure with
  | none => exact iff_of_false List.not_mem_nil nofun
  | some y =>
    rw [ofFigure, numbers, List.mem_singleton, Option.some.injEq]
    exact eq_comm

theorem numbers_ofCounts (counts : List (String × Nat)) : (ofCounts counts).numbers = [] := by
  rw [List.eq_nil_iff_forall_not_mem]
  intro x hx
  rw [ofCounts, numbers, mem_fieldNumbers] at hx
  obtain ⟨f, hf, hx⟩ := hx
  obtain ⟨c, _, rfl⟩ := List.mem_map.mp hf
  exact absurd hx List.not_mem_nil

end Document

def Summary.figures (s : Summary) : List (Option Float) :=
  [s.least, s.greatest, s.sum, s.mean] ++ s.quantiles.map (·.2)

namespace Document

theorem mem_numbers_ofSummary {s : Summary} {x : Float} :
    x ∈ (ofSummary (some s)).numbers ↔ some x ∈ s.figures := by
  have hquantiles : x ∈ fieldNumbers (s.quantiles.map fun f => (f.1, ofFigure f.2)) ↔
      some x ∈ s.quantiles.map (·.2) := by
    simp only [mem_fieldNumbers, List.mem_map, exists_exists_and_eq_and, mem_numbers_ofFigure]
  simp only [ofSummary, numbers, fieldNumbers, ofCount, Summary.figures, List.mem_append,
    List.mem_cons, List.not_mem_nil, mem_numbers_ofFigure, hquantiles, false_or, or_false, or_assoc,
    eq_comm]

/-- The fractional numbers of a report are the figures of its attributes. -/
theorem mem_numbers_ofReport {r : Report} {x : Float} :
    x ∈ (ofReport r).numbers ↔ ∃ a s, (a, some s) ∈ r.attributes ∧ some x ∈ s.figures := by
  have hcause : ((r.cause.map Document.text).getD .null).numbers = [] := by
    cases r.cause <;> rfl
  have hattributes : x ∈ (ofReport r).numbers ↔
      x ∈ fieldNumbers (r.attributes.map fun a => (a.1.name, ofSummary a.2)) := by
    simp only [ofReport, numbers, fieldNumbers, ofCount, numbers_ofCounts, hcause, List.nil_append,
      List.append_nil]
  rw [hattributes]
  simp only [mem_fieldNumbers, List.mem_map, exists_exists_and_eq_and]
  constructor
  · rintro ⟨⟨a, summary⟩, hmem, hx⟩
    cases summary with
    | none => exact absurd hx List.not_mem_nil
    | some s => exact ⟨a, s, hmem, mem_numbers_ofSummary.mp hx⟩
  · rintro ⟨a, s, hmem, hx⟩
    exact ⟨(a, some s), hmem, mem_numbers_ofSummary.mpr hx⟩

end Document

namespace Summary

def IsFigure (f : Option Float) : Prop := ∀ x, f = some x → IsFinite x

theorem isFigure_figure (x : Float) : IsFigure (figure x) := by
  intro y hy
  unfold figure at hy
  split at hy
  · rename_i h
    cases hy
    exact finite_roundPlaces 4 ((isFinite_iff x).mp h)
  · cases hy

theorem isFigure_bind (x? : Option Float) : IsFigure (x?.bind figure) := by
  cases x? with
  | none => exact nofun
  | some x => exact isFigure_figure x

/-- Putting a figure under a label leaves figures. -/
theorem isFigure_put {figures : List (String × Option Float)} {name : String} {f : Option Float}
    (h : ∀ g ∈ figures, IsFigure g.2) (hf : IsFigure f) : ∀ g ∈ put figures name f, IsFigure g.2 := by
  unfold put
  split
  · intro g hg
    obtain ⟨g', hg', rfl⟩ := List.mem_map.mp hg
    split
    · exact hf
    · exact h g' hg'
  · intro g hg
    rcases List.mem_append.mp hg with hg | hg
    · exact h g hg
    · rw [List.mem_singleton.mp hg]
      exact hf

theorem isFigure_estimates {s : Sketch} {quantiles : List Float} {figures : List (String × Option Float)}
    (h : estimates s quantiles = .ok figures) : ∀ f ∈ figures, IsFigure f.2 := by
  refine foldlM_induction (P := fun done => ∀ f ∈ done, IsFigure f.2) ?_ nofun h
  intro q _ done done' hdone hstep
  obtain ⟨x?, _, hput⟩ := bind_eq_ok_iff.mp hstep
  obtain rfl := Except.ok.inj hput
  exact isFigure_put hdone (isFigure_bind x?)

/-- The figures of a sketch are finite, or left out. -/
theorem isFigure_ofSketch {s : Sketch} {quantiles : List Float} {summary : Summary}
    (h : ofSketch s quantiles = .ok (some summary)) : ∀ f ∈ summary.figures, IsFigure f := by
  unfold ofSketch at h
  split at h
  · cases h
  · obtain ⟨figures, hfigures, hsummary⟩ := bind_eq_ok_iff.mp h
    obtain rfl := Option.some.inj (Except.ok.inj hsummary)
    intro f hf
    rcases List.mem_append.mp hf with hf | hf
    · simp only [List.mem_cons, List.not_mem_nil, or_false] at hf
      rcases hf with rfl | rfl | rfl | rfl
      · exact isFigure_figure _
      · exact isFigure_figure _
      · exact isFigure_figure _
      · exact isFigure_bind _
    · obtain ⟨g, hg, rfl⟩ := List.mem_map.mp hf
      exact isFigure_estimates hfigures g hg

end Summary

/-- Every fractional number of a report is finite. -/
theorem Report.finite_numbers {snap : Snapshot} {quantiles : List Float} {r : Report}
    (h : ofSnapshot snap quantiles = .ok r) : ∀ x ∈ (Document.ofReport r).numbers, IsFinite x := by
  obtain ⟨attributes, hattributes, hr⟩ := bind_eq_ok_iff.mp h
  obtain rfl := Except.ok.inj hr
  intro x hx
  obtain ⟨a, s, hmem, hfigure⟩ := Document.mem_numbers_ofReport.mp hx
  obtain ⟨b, _, hb⟩ := exists_of_mem_mapM hattributes hmem
  obtain ⟨summary, hsummary, hpair⟩ := bind_eq_ok_iff.mp hb
  obtain ⟨rfl, rfl⟩ := Prod.mk.inj (Except.ok.inj hpair)
  exact Summary.isFigure_ofSketch hsummary _ hfigure x rfl

end MetricCapture
