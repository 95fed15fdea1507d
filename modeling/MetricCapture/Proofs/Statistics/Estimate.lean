import MetricCapture.Proofs.Statistics.Observe
import MetricCapture.Proofs.Statistics.Snapshot
/-! When there are statistics of some readings, and when a snapshot can be taken of them. -/
namespace MetricCapture

def Registers.ofItems (precision : Nat) (items : List Bytes) : Registers :=
  items.foldl observe (create precision)

theorem Registers.represents_ofItems (precision : Nat) (items : List Bytes) :
    (ofItems precision items).Represents precision items := by
  refine ((represents_create precision).foldl_observe items).congr fun bs => ?_
  rw [List.append_nil, List.mem_reverse]

theorem Registers.Represents.eq_ofItems {precision : Nat} {items : List Bytes} {r : Registers}
    (h : r.Represents precision items) : r = ofItems precision items :=
  h.eq (represents_ofItems precision items)

namespace Statistics

variable {cfg : Settings.Analysis} {rs : List Reading}

/-- Readings can be observed if what they tell can be taken in. -/
theorem observed_cases (cfg : Settings.Analysis) (rs : List Reading) :
    ((Ledger.ofReadings rs).Accepted cfg.accuracy ∧
      ∃ s, observed cfg rs = .ok s ∧ s.Represents cfg (.ofReadings rs)) ∨
    (¬ (Ledger.ofReadings rs).Accepted cfg.accuracy ∧
      ∃ f, observed cfg rs = .error (.statistics f)) := by
  unfold observed
  rw [create_eq]
  dsimp only
  rcases each_cases (represents_empty cfg) rs with ⟨haccepted, s, hs, hrep'⟩ | ⟨hrefused, herror⟩
  · rw [hs]
    exact .inl ⟨haccepted, s, rfl, hrep'⟩
  · obtain ⟨f, hf⟩ := Option.ne_none_iff_exists'.mp herror
    rw [hf]
    exact .inr ⟨hrefused, f, rfl⟩

/-- Readings of which there is a snapshot: they can be observed, and the registers of their contexts
and of their tags have an estimate. -/
structure HasSnapshot (cfg : Settings.Analysis) (rs : List Reading) : Prop where
  accepted : (Ledger.ofReadings rs).Accepted cfg.accuracy
  contexts : (Registers.ofItems cfg.precision (Ledger.ofReadings rs).contexts).estimate ≠ none
  tags : (Registers.ofItems cfg.precision (Ledger.ofReadings rs).tags).estimate ≠ none

/-- A snapshot can be taken if there are both estimates. -/
theorem exists_conclude_iff (s : Statistics) (cause : Option String) :
    (∃ snap, s.conclude cause = .ok snap) ↔
      s.contexts.estimate ≠ none ∧ s.tags.estimate ≠ none := by
  rw [Option.ne_none_iff_exists', Option.ne_none_iff_exists']
  constructor
  · rintro ⟨snap, h⟩
    obtain ⟨contexts, tags, hc, ht, _⟩ := conclude_eq_ok_iff.mp h
    exact ⟨⟨contexts, hc⟩, tags, ht⟩
  · rintro ⟨⟨contexts, hc⟩, tags, ht⟩
    exact ⟨_, conclude_eq_ok_iff.mpr ⟨contexts, tags, hc, ht, rfl⟩⟩

/-- A snapshot can be taken of the statistics of such readings, whatever has ended them. -/
theorem conclude_iff_hasSnapshot {s : Statistics} (hs : observed cfg rs = .ok s)
    (cause : Option String) : (∃ snap, s.conclude cause = .ok snap) ↔ HasSnapshot cfg rs := by
  rcases observed_cases cfg rs with ⟨haccepted, s', hs', hrep⟩ | ⟨_, f, hf⟩
  · obtain rfl : s = s' := Except.ok.inj (hs.symm.trans hs')
    rw [exists_conclude_iff, hrep.contexts.eq_ofItems, hrep.tags.eq_ofItems]
    exact ⟨fun h => ⟨haccepted, h.1, h.2⟩, fun h => ⟨h.contexts, h.tags⟩⟩
  · cases hs.symm.trans hf

theorem exists_ofReadings_iff (cfg : Settings.Analysis) (rs : List Reading) :
    (∃ snap, ofReadings cfg rs = .ok snap) ↔ HasSnapshot cfg rs := by
  rw [ofReadings_eq]
  rcases observed_cases cfg rs with ⟨_, s, hs, _⟩ | ⟨hrefused, f, hf⟩
  · rw [← conclude_iff_hasSnapshot hs none, hs]
    rfl
  · rw [hf]
    refine iff_of_false ?_ fun h => hrefused h.accepted
    rintro ⟨snap, hsnap⟩
    cases hsnap

/-- The error behind some readings is reached if they can be observed. -/
theorem observed_bind_error_iff (cfg : Settings.Analysis) (rs : List Reading) (e : StreamError) :
    ((observed cfg rs).bind fun _ => (.error (.stream e) : Except AnalysisError Snapshot)) =
        .error (.stream e) ↔
      (Ledger.ofReadings rs).Accepted cfg.accuracy := by
  rcases observed_cases cfg rs with ⟨haccepted, s, hs, _⟩ | ⟨hrefused, f, hf⟩
  · rw [hs]
    exact iff_of_true rfl haccepted
  · rw [hf]
    refine iff_of_false (fun h => ?_) hrefused
    cases h

end Statistics
end MetricCapture
