import MetricCapture.Proofs.Sketch.Samples
/-! Merging sketches of one scale: what comes out is the sketch of the values of both. -/
namespace MetricCapture.Sketch

open MetricCapture.Number

variable {accuracy : Float} {limit : Nat} {s t : Sketch} {xs ys : List Float}

theorem Represents.count_eq_zero (h : s.Represents accuracy limit xs) : s.count = 0 ↔ xs = [] := by
  rw [h.count, List.length_eq_zero_iff]

/-- Sketches of one scale are merged once both have values, whatever number of bins they keep. -/
theorem Represents.merge_eq {limit' : Nat} (ha : 0.0 < accuracy ∧ accuracy < 1.0)
    (hs : s.Represents accuracy limit xs) (ht : t.Represents accuracy limit' ys) :
    s.merge t = .ok (if ys = [] then s else
      { s.mergeBins t with
        count := s.count + t.count
        sum := s.sum + t.sum
        least := if t.least < s.least then t.least else s.least
        greatest := if s.greatest < t.greatest then t.greatest else s.greatest }) := by
  have hclose : isClose s.accuracy t.accuracy = true := by
    obtain ⟨_, hnum, _⟩ := (lt_iff _ _).mp ha.1
    unfold isClose
    rw [hs.accuracy_eq, ht.accuracy_eq, (beq_iff accuracy accuracy).mpr ⟨hnum, hnum, rfl⟩]
    rfl
  have hbase : (s.mapping.base != t.mapping.base) = false := by
    have hnum := Mapping.isNumber_base ha
    unfold bne
    rw [hs.mapping_eq, ht.mapping_eq, (beq_iff _ _).mpr ⟨hnum, hnum, rfl⟩]
    rfl
  unfold Sketch.merge
  rw [hclose, hbase]
  by_cases hy : ys = []
  · rw [if_pos hy, if_neg (by decide), if_pos (ht.count_eq_zero.mpr hy)]
  · rw [if_neg hy, if_neg (by decide), if_neg fun hc => hy (ht.count_eq_zero.mp hc),
      if_neg (by decide)]

/-- What a sketch is once it has taken over the outermost values of another one, and the stores know
already of all. -/
private theorem Represents.join (hs : s.Represents accuracy limit xs)
    (ht : t.Represents accuracy limit ys) {p n : Store} {z : Nat}
    (hp : p.Represents limit ((xs ++ ys).filterMap (Mapping.ofAccuracy accuracy).positiveKey?))
    (hn : n.Represents limit ((xs ++ ys).filterMap (Mapping.ofAccuracy accuracy).negativeKey?))
    (hz : z = (xs ++ ys).countP (Mapping.ofAccuracy accuracy).isZero) :
    Represents accuracy limit (xs ++ ys)
      { s with
        positive := p, negative := n, zeros := z
        count := s.count + t.count
        sum := s.sum + t.sum
        least := if t.least < s.least then t.least else s.least
        greatest := if s.greatest < t.greatest then t.greatest else s.greatest } := by
  refine ⟨hs.accuracy_eq, hs.mapping_eq, ?_, hp, hn, hz, ?_, ?_, ?_⟩
  · intro x hx
    rcases List.mem_append.mp hx with hx | hx
    · exact hs.accepts x hx
    · exact ht.accepts x hx
  · rw [hs.count, ht.count, List.length_append]
  · exact hs.least.append upward hs.finite ht.finite ht.least
  · exact hs.greatest.append downward hs.finite ht.finite ht.greatest

/-- Merging gives the sketch of the values of both. -/
theorem Represents.merge (ha : 0.0 < accuracy ∧ accuracy < 1.0)
    (hs : s.Represents accuracy limit xs) (ht : t.Represents accuracy limit ys) :
    ∃ m, s.merge t = .ok m ∧ m.Represents accuracy limit (xs ++ ys) := by
  refine ⟨_, hs.merge_eq ha ht, ?_⟩
  by_cases hy : ys = []
  · rw [if_pos hy, hy, List.append_nil]
    exact hs
  rw [if_neg hy]
  unfold mergeBins
  split
  · rename_i hc
    rw [hs.count_eq_zero] at hc
    subst hc
    exact hs.join ht ht.positive ht.negative ht.zeros
  · refine hs.join ht ?_ ?_ ?_
    · rw [List.filterMap_append]
      exact hs.positive.merge ht.positive
    · rw [List.filterMap_append]
      exact hs.negative.merge ht.negative
    · rw [hs.zeros, ht.zeros, List.countP_append]

end MetricCapture.Sketch
