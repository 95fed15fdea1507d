import MetricCapture.Statistics.Tally
/-! Tallies of given things: counting one more and merging are what they are for lists. -/
namespace MetricCapture.Tally

variable {α : Type} [BEq α]

def ofItems (things items : List α) : Tally α :=
  ⟨things.map fun a => (a, items.count a)⟩

theorem ofItems_perm (things : List α) {items others : List α} (h : items.Perm others) :
    ofItems things items = ofItems things others := by
  unfold ofItems
  congr 1
  apply List.map_congr_left
  intro a _
  unfold List.count
  rw [h.countP_eq]

/-- Merging with no counts changes nothing. -/
theorem merge_of_count {t other : Tally α} (h : ∀ a, other.count a = 0) : t.merge other = t := by
  simp [merge, h]

variable [LawfulBEq α]

theorem count_ofItems {things : List α} {a : α} (h : a ∈ things) (items : List α) :
    (ofItems things items).count a = items.count a := by
  unfold count ofItems
  induction things with
  | nil => exact absurd h List.not_mem_nil
  | cons b things ih =>
    rw [List.map_cons, List.lookup_cons]
    by_cases hb : (a == b) = true
    · rw [hb, eq_of_beq hb]
      rfl
    · rw [Bool.not_eq_true] at hb
      rw [hb]
      refine ih ((List.mem_cons.mp h).resolve_left fun he => ?_)
      rw [he, beq_self_eq_true] at hb
      cases hb

theorem bump_ofItems (things items : List α) (a : α) :
    (ofItems things items).bump a = ofItems things (a :: items) := by
  unfold bump ofItems
  rw [List.map_map]
  congr 1
  apply List.map_congr_left
  intro b _
  rw [Function.comp_apply, List.count_cons, BEq.comm]
  dsimp only
  by_cases hb : (b == a) = true
  · rw [if_pos hb, if_pos hb]
  · rw [if_neg hb, if_neg hb]
    rfl

theorem merge_ofItems (things items others : List α) :
    (ofItems things items).merge (ofItems things others) = ofItems things (items ++ others) := by
  have hentries : (ofItems things items).entries = things.map fun a => (a, items.count a) := rfl
  unfold merge
  rw [hentries, List.map_map]
  change Tally.mk _ = Tally.mk _
  congr 1
  apply List.map_congr_left
  intro a ha
  rw [Function.comp_apply]
  dsimp only
  rw [count_ofItems ha, List.count_append]

private theorem sum_count_cons (things : List α) (a : α) (items : List α) :
    (things.map (a :: items).count).sum = (things.map items.count).sum + things.count a := by
  induction things with
  | nil => rfl
  | cons b things ih =>
    rw [List.map_cons, List.map_cons, List.sum_cons, List.sum_cons, ih, List.count_cons,
      List.count_cons, BEq.comm (a := a)]
    omega

/-- Things that are told apart count the items among them. -/
theorem sum_count {things : List α} (hn : things.Nodup) (items : List α) :
    (things.map items.count).sum = items.countP (things.contains ·) := by
  induction items with
  | nil => simp [List.map_const']
  | cons a items ih =>
    rw [sum_count_cons, ih, hn.count, List.countP_cons, List.contains_eq_mem]
    simp only [decide_eq_true_eq]

theorem total_ofItems {things : List α} (hn : things.Nodup) {items : List α}
    (h : ∀ a ∈ items, a ∈ things) : (ofItems things items).total = items.length := by
  have htotal : (ofItems things items).total = (things.map items.count).sum := by
    unfold total ofItems
    rw [List.map_map]
    rfl
  rw [htotal, sum_count hn, List.countP_eq_length]
  exact fun a ha => List.contains_iff_mem.mpr (h a ha)

end MetricCapture.Tally
