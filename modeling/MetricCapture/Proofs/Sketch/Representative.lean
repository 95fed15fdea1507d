import MetricCapture.Proofs.Sketch.Quantile
/-! When the quantiles of a sketch can be told. Only a representative beyond the largest double stands in
the way, and there is none if every bin in which a value is counted has one within the doubles. -/
namespace MetricCapture.Sketch

open MetricCapture.Number

/-- Every bin in which some keys are counted has a representative, where the keys below the range that
the bins reach are counted at its lower end. -/
def Mapping.Covers (m : Mapping) (limit : Nat) (keys : List Int) : Prop :=
  ∀ r, IsSpan limit keys r → ∀ k ∈ keys, ∃ x, m.value (max k r.low) = .ok x

theorem Mapping.error_value {m : Mapping} {key : Int} {e : Failure} (h : m.value key = .error e) :
    e = .valueOverflow := by
  unfold value at h
  dsimp only at h
  split at h
  · cases h
  · exact (Except.error.inj h).symm

variable {accuracy : Float} {limit : Nat} {s : Sketch} {xs : List Float} {rank q : Float} {e : Failure}

theorem error_representative (h : s.representative rank = .error e) : e = .valueOverflow := by
  have hvalue : ∀ (key : Int) (f : Float → Option Float),
      (s.mapping.value key).map f = .error e → e = .valueOverflow := by
    intro key f hmap
    cases hv : s.mapping.value key with
    | error e' =>
      rw [hv] at hmap
      cases hmap
      exact Mapping.error_value hv
    | ok x =>
      rw [hv] at hmap
      cases hmap
  unfold representative at h
  dsimp only at h
  split at h
  · split at h
    · cases h
    · exact hvalue _ _ h
  · split at h
    · cases h
    · split at h
      · cases h
      · exact hvalue _ _ h

/-- A quantile between zero and one is told unless its representative is beyond the largest double. -/
theorem error_quantile (hq : 0.0 ≤ q ∧ q ≤ 1.0) (h : s.quantile q = .error e) : e = .valueOverflow := by
  unfold quantile at h
  rw [decide_eq_true hq.1, decide_eq_true hq.2, if_neg (by decide)] at h
  repeat
    split at h
    · cases h
  cases hr : s.representative (q * Float.ofNat (s.count - 1)) with
  | error e' =>
    rw [hr] at h
    cases h
    exact error_representative hr
  | ok v? =>
    rw [hr] at h
    cases h

theorem exists_quantile_iff (hq : 0.0 ≤ q ∧ q ≤ 1.0) :
    (∃ x, s.quantile q = .ok x) ↔ s.quantile q ≠ .error .valueOverflow := by
  cases h : s.quantile q with
  | error e =>
    obtain rfl := error_quantile hq h
    exact iff_of_false nofun fun hne => hne rfl
  | ok x => exact iff_of_true ⟨x, rfl⟩ nofun

/-- Without values every quantile is told: there is none. -/
theorem quantile_of_count_eq_zero (hq : 0.0 ≤ q ∧ q ≤ 1.0) (h : s.count = 0) :
    s.quantile q = .ok none := by
  unfold quantile
  rw [decide_eq_true hq.1, decide_eq_true hq.2, if_neg (by decide), if_pos h]

/-- The values of a rank are represented if every bin is, as long as their number is exact. -/
theorem Represents.exists_representative (h : s.Represents accuracy limit xs)
    (hc : xs.length ≤ 2 ^ (53 : Nat))
    (hpositive : (Mapping.ofAccuracy accuracy).Covers limit
      (xs.filterMap (Mapping.ofAccuracy accuracy).positiveKey?))
    (hnegative : (Mapping.ofAccuracy accuracy).Covers limit
      (xs.filterMap (Mapping.ofAccuracy accuracy).negativeKey?)) (rank : Float) :
    ∃ v, s.representative rank = .ok v := by
  have hle := (Mapping.ofAccuracy accuracy).count_le xs
  have hn := h.negative.count_eq
  unfold Sketch.representative
  rw [hn, h.zeros, h.mapping_eq]
  dsimp only
  generalize xs.countP (Mapping.ofAccuracy accuracy).isZero = z at hle
  split
  · rename_i hneg
    split
    · exact ⟨none, rfl⟩
    · rename_i key hkey
      obtain ⟨r, hspan, k, hk, rfl⟩ := h.negative.firstKey_mem (fun hne =>
        decide_eq_false (not_le_zero (List.length_pos_iff.mpr hne) (by omega) hneg)) hkey
      obtain ⟨x, hx⟩ := hnegative r hspan k hk
      exact ⟨some (-x), by rw [hx]; rfl⟩
  · split
    · exact ⟨some 0.0, rfl⟩
    · rename_i hzero
      split
      · exact ⟨none, rfl⟩
      · rename_i key hkey
        obtain ⟨r, hspan, k, hk, rfl⟩ := h.positive.firstKey_mem (fun _ =>
          decide_eq_false (not_lt_zero (Nat.le_trans hle hc) hzero)) hkey
        obtain ⟨x, hx⟩ := hpositive r hspan k hk
        exact ⟨some x, by rw [hx]; rfl⟩

/-- Quantiles are told if every bin is represented, as long as the number of values is exact. -/
theorem Represents.exists_quantile (h : s.Represents accuracy limit xs)
    (hc : xs.length ≤ 2 ^ (53 : Nat))
    (hpositive : (Mapping.ofAccuracy accuracy).Covers limit
      (xs.filterMap (Mapping.ofAccuracy accuracy).positiveKey?))
    (hnegative : (Mapping.ofAccuracy accuracy).Covers limit
      (xs.filterMap (Mapping.ofAccuracy accuracy).negativeKey?)) (hq : 0.0 ≤ q ∧ q ≤ 1.0) :
    ∃ x, s.quantile q = .ok x := by
  obtain ⟨v, hv⟩ := h.exists_representative hc hpositive hnegative (q * Float.ofNat (s.count - 1))
  unfold Sketch.quantile
  rw [decide_eq_true hq.1, decide_eq_true hq.2, if_neg (by decide), hv]
  repeat
    split
    · exact ⟨_, rfl⟩
  exact ⟨_, rfl⟩

end MetricCapture.Sketch
