import MetricCapture.Proofs.Attempt
import MetricCapture.Sketch.Basic
/-! The make of a sketch: what it was made with stays as it is, whatever it takes in, and tells which
sketches it can be merged with. -/
namespace MetricCapture.Sketch

def make (s : Sketch) : Float × Nat × Mapping :=
  (s.accuracy, s.binLimit, s.mapping)

variable {s t : Sketch}

/-- A sketch is made if the settings make sense. -/
theorem create_eq_ok_iff {accuracy : Float} {binLimit : Int} : create accuracy binLimit = .ok s ↔
    (0.0 < accuracy ∧ accuracy < 1.0) ∧ 0 < binLimit ∧ s = empty accuracy binLimit.toNat := by
  unfold create
  split
  · rename_i ha
    refine iff_of_false nofun fun ⟨hmem, _⟩ => ?_
    simp [hmem] at ha
  rename_i ha
  split
  · exact iff_of_false nofun fun ⟨_, hl, _⟩ => by omega
  · rw [Except.ok.injEq, eq_comm]
    exact ⟨fun h => ⟨by simpa using ha, by omega, h⟩, fun h => h.2.2⟩

theorem make_create {accuracy : Float} {binLimit : Int} (h : create accuracy binLimit = .ok s) :
    s.make = (accuracy, binLimit.toNat, .ofAccuracy accuracy) := by
  obtain ⟨_, _, rfl⟩ := create_eq_ok_iff.mp h
  rfl

theorem make_place {x : Float} (h : s.place x = .ok t) : t.make = s.make := by
  unfold place at h
  split at h
  · obtain ⟨key, _, h⟩ := bind_eq_ok_iff.mp h
    cases h
    rfl
  split at h
  · obtain ⟨key, _, h⟩ := bind_eq_ok_iff.mp h
    cases h
    rfl
  · cases h
    rfl

theorem make_add {x : Float} (h : s.add x = .ok t) : t.make = s.make := by
  unfold Sketch.add at h
  split at h
  · cases h
  · obtain ⟨placed, hplaced, h⟩ := bind_eq_ok_iff.mp h
    have hmake := make_place hplaced
    cases h
    exact hmake

theorem make_mergeBins (s t : Sketch) : (s.mergeBins t).make = s.make := by
  unfold mergeBins
  split <;> rfl

theorem make_merge {m : Sketch} (h : s.merge t = .ok m) : m.make = s.make := by
  unfold Sketch.merge at h
  split at h
  · cases h
  split at h
  · cases h
    rfl
  split at h
  · cases h
  · cases h
    exact make_mergeBins s t

def Fits (make make' : Float × Nat × Mapping) : Prop :=
  isClose make.1 make'.1 = true ∧ (make.2.2.base != make'.2.2.base) = false

/-- A sketch that fits is merged. -/
theorem exists_merge_of_fits (h : Fits s.make t.make) : ∃ m, s.merge t = .ok m := by
  obtain ⟨hclose, hbase⟩ := h
  unfold make at hclose hbase
  unfold Sketch.merge
  rw [hclose, hbase, if_neg (by decide)]
  split
  · exact ⟨s, rfl⟩
  · exact ⟨_, if_neg (by decide)⟩

/-- A sketch that does not fit is refused, unless it has no values. Then it changes nothing. -/
theorem merge_of_not_fits (h : ¬ Fits s.make t.make) :
    s.merge t = .ok s ∨ s.merge t = .error .accuracyMismatch ∨
      s.merge t = .error (.baseMismatch s.mapping.base t.mapping.base) := by
  unfold Sketch.merge
  split
  · exact .inr (.inl rfl)
  rename_i hclose
  split
  · exact .inl rfl
  split
  · exact .inr (.inr rfl)
  rename_i hbase
  rw [Bool.not_eq_true] at hclose hbase
  rw [Bool.not_eq_false'] at hclose
  exact absurd ⟨hclose, hbase⟩ h

/-- A sketch without values changes nothing. -/
theorem merge_of_count (h : t.count = 0) {m : Sketch} (hok : s.merge t = .ok m) : m = s := by
  unfold Sketch.merge at hok
  rw [if_pos h] at hok
  split at hok
  · cases hok
  · cases hok
    rfl

end MetricCapture.Sketch
