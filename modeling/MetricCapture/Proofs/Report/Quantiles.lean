import MetricCapture.Proofs.Number.Significant
import MetricCapture.Proofs.Report.Reportable
import MetricCapture.Proofs.Sketch.Run
/-! The quantiles of a report. Each has a row of its own as long as no two of them have the same label, and
that is so if they lie apart by a little more than a millionth. Of quantiles with the same label only the
last one is shown. -/
namespace MetricCapture

open MetricCapture.Number

namespace Summary

section

variable {figures : List (String × Option Float)} {name : String}

theorem put_of_mem (h : name ∈ figures.map (·.1)) (f : Option Float) :
    put figures name f = figures.map fun g => if g.1 = name then (name, f) else g := by
  rw [put, if_pos (by simpa [List.any_eq_true] using h)]
  simp only [beq_iff_eq]

theorem put_of_not_mem (h : name ∉ figures.map (·.1)) (f : Option Float) :
    put figures name f = figures ++ [(name, f)] :=
  if_neg (by simpa [List.any_eq_true] using h)

theorem names_put (figures : List (String × Option Float)) (name : String) (f : Option Float) :
    (put figures name f).map (·.1) =
      figures.map (·.1) ++ if name ∈ figures.map (·.1) then [] else [name] := by
  by_cases h : name ∈ figures.map (·.1)
  · rw [put_of_mem h, if_pos h, List.append_nil, List.map_map]
    refine List.map_congr_left fun g _ => ?_
    rw [Function.comp_apply]
    split
    · rename_i heq
      exact heq.symm
    · rfl
  · rw [put_of_not_mem h, if_neg h, List.map_append]
    rfl

private theorem lookup_cons (row : String × Option Float) (rows : List (String × Option Float))
    (name : String) : (row :: rows).lookup name = if name = row.1 then some row.2 else rows.lookup name := by
  rw [List.lookup_cons]
  by_cases h : name = row.1
  · rw [if_pos h, beq_iff_eq.mpr h]
  · rw [if_neg h, beq_eq_false_iff_ne.mpr h]

private theorem lookup_replaced (figures : List (String × Option Float)) (name other : String)
    (f : Option Float) :
    (figures.map fun g => if g.1 = name then (name, f) else g).lookup other =
      if other = name ∧ name ∈ figures.map (·.1) then some f else figures.lookup other := by
  induction figures with
  | nil => simp
  | cons g figures ih =>
    rw [List.map_cons, lookup_cons, lookup_cons, ih]
    simp only [List.map_cons, List.mem_cons]
    by_cases hname : g.1 = name
    · by_cases hother : other = name <;> simp [hname, hother]
    · rw [if_neg hname]
      by_cases hother : other = g.1
      · rw [if_pos hother, if_neg fun h => hname (hother.symm.trans h.1), if_pos hother]
      · simp only [if_neg hother, or_iff_right (Ne.symm hname)]

theorem lookup_put (figures : List (String × Option Float)) (name other : String) (f : Option Float) :
    (put figures name f).lookup other = if other = name then some f else figures.lookup other := by
  by_cases h : name ∈ figures.map (·.1)
  · rw [put_of_mem h, lookup_replaced]
    simp only [h, and_true]
  · rw [put_of_not_mem h, List.lookup_append, lookup_cons, List.lookup_nil]
    by_cases hother : other = name
    · have hnone : figures.lookup name = none := by
        rw [List.lookup_eq_none_iff]
        intro g hg
        exact bne_iff_ne.mpr (ne_of_mem_of_not_mem (List.mem_map_of_mem hg) h).symm
      rw [if_pos hother, if_pos hother, hother, hnone, Option.none_or]
    · rw [if_neg hother, if_neg hother, Option.or_none]

def collect (rows : List (String × Option Float)) : List (String × Option Float) :=
  rows.foldl (fun done row => put done row.1 row.2) []

theorem collect_append (rows : List (String × Option Float)) (row : String × Option Float) :
    collect (rows ++ [row]) = put (collect rows) row.1 row.2 :=
  List.foldl_append

/-- Every label is there once, in the order in which they are first asked for. -/
theorem names_collect (rows : List (String × Option Float)) :
    (collect rows).map (·.1) = (rows.map (·.1)).eraseDups := by
  induction rows using List.reverseRecOn with
  | nil => rfl
  | append_singleton rows row ih =>
    rw [collect_append, names_put, ih, List.map_append, List.eraseDups_append, List.map_singleton]
    by_cases h : row.1 ∈ rows.map (·.1)
    · simp [h, List.removeAll]
    · simp [h, List.removeAll, List.eraseDups_cons]

/-- A label shows what has been put under it last. -/
theorem lookup_collect (rows : List (String × Option Float)) (name : String) :
    (collect rows).lookup name = rows.reverse.lookup name := by
  induction rows using List.reverseRecOn with
  | nil => rfl
  | append_singleton rows row ih =>
    rw [collect_append, lookup_put, ih, List.reverse_append, List.reverse_singleton, List.singleton_append,
      lookup_cons]

theorem nodup_collect (rows : List (String × Option Float)) : ((collect rows).map (·.1)).Nodup := by
  induction rows using List.reverseRecOn with
  | nil => exact List.nodup_nil
  | append_singleton rows row ih =>
    rw [collect_append, names_put]
    split
    · rwa [List.append_nil]
    · rename_i h
      rw [List.nodup_append]
      exact ⟨ih, List.nodup_singleton _, by simpa using fun a ha => ne_of_mem_of_not_mem ha h⟩

/-- No row is lost exactly when no two of them have the same label. -/
theorem collect_eq_iff (rows : List (String × Option Float)) :
    collect rows = rows ↔ (rows.map (·.1)).Nodup := by
  constructor
  · intro h
    rw [← h]
    exact nodup_collect rows
  · intro h
    induction rows using List.reverseRecOn with
    | nil => rfl
    | append_singleton rows row ih =>
      rw [List.map_append, List.nodup_append] at h
      obtain ⟨hnodup, -, hnew⟩ := h
      rw [collect_append, ih hnodup, put_of_not_mem fun hmem => hnew _ hmem _ (List.mem_singleton_self _) rfl]

end

section

variable {q q' : Float}

/-- The label of a quantile writes a percentage that is off by little more than half of a unit in the
fourth decimal place. -/
theorem exists_writes_label (hlow : 0.0 ≤ q) (hhigh : q ≤ 1.0) :
    ∃ l, Literal.Writes (compactText 6 (roundPlaces 6 (q * 100.0))).toList l ∧
      |l.amount - amount q * 100| ≤ 51 / 10 ^ 6 := by
  have hone : IsWhole 1.0 1 := ⟨finite_one, by decide +kernel⟩
  have hundred : IsWhole 100.0 100 := ⟨by unfold IsFinite; decide +kernel, by decide +kernel⟩
  have hpercent : IsNatural 100.0 := ⟨hundred.isFinite, by decide +kernel⟩
  have hq := isNatural_of_le hlow hhigh finite_one
  have hproduct := isNatural_mul hq hpercent hhigh
  have hamount : amount 100.0 = 100 := by rw [hundred.amount_eq, Nat.cast_ofNat]
  have hq1 : amount q ≤ 1 := by
    have hle := amount_le_amount hhigh
    rwa [hone.amount_eq, Nat.cast_one] at hle
  have hproduct1 : amount (q * 100.0) ≤ 100 := by
    have hle := amount_le_amount (mul_le_of_le_one hq hpercent hhigh)
    rwa [hamount] at hle
  have hmul := abs_amount_mul_sub_le hq.isFinite hpercent.isFinite hproduct.isFinite (b := 100)
    (by norm_num) (by
      rw [hamount, abs_of_nonneg (mul_nonneg hq.amount_nonneg (by norm_num))]
      linarith)
  obtain ⟨hle, hround⟩ := abs_amount_roundPlaces_sub_le 6 hproduct.isFinite (b := 100) (by decide)
    (by decide) (by rwa [abs_of_nonneg hproduct.amount_nonneg, Nat.cast_ofNat])
  obtain ⟨l, hwrites, hnear⟩ := exists_writes_compactText 5 (finite_roundPlaces 6 hproduct.isFinite)
  refine ⟨l, hwrites, ?_⟩
  have htext := hnear 2 (hle.trans (by norm_num))
  rw [hamount] at hmul
  generalize amount (roundPlaces 6 (q * 100.0)) = p at *
  generalize amount (q * 100.0) = y at *
  calc
    |l.amount - amount q * 100| = |l.amount - p + (p - y) + (y - amount q * 100)| := by
      congr 1
      ring
    _ ≤ |l.amount - p| + |p - y| + |y - amount q * 100| := abs_add_three _ _ _
    _ ≤ 10 ^ ((2 : Int) - ((5 : Nat) + 1)) / 2 + (1 / (2 * 10 ^ 6) + (100 : Nat) / 2 ^ 53) + 100 / 2 ^ 53 :=
      add_le_add (add_le_add htext hround) hmul
    _ ≤ 51 / 10 ^ 6 := by norm_num

/-- Quantiles with the same label are near to each other. -/
theorem abs_amount_sub_le_of_label_eq (hlow : 0.0 ≤ q) (hhigh : q ≤ 1.0) (hlow' : 0.0 ≤ q')
    (hhigh' : q' ≤ 1.0) (h : label q = label q') : |amount q - amount q'| ≤ 102 / 10 ^ 8 := by
  obtain ⟨l, hwrites, hnear⟩ := exists_writes_label hlow hhigh
  obtain ⟨l', hwrites', hnear'⟩ := exists_writes_label hlow' hhigh'
  have htext := congrArg String.toList h
  unfold label at htext
  rw [String.toList_append, String.toList_append, List.append_cancel_left_eq] at htext
  rw [htext, ← Literal.read?_eq_some_iff] at hwrites
  rw [← Literal.read?_eq_some_iff, hwrites] at hwrites'
  obtain rfl := Option.some.inj hwrites'
  rw [abs_le] at hnear hnear' ⊢
  constructor <;> linarith

end

def row (s : Sketch) (q : Float) : Except Sketch.Failure (String × Option Float) :=
  (s.quantile q).map fun estimate => (label q, estimate.bind figure)

/-- The estimates are the rows of the quantiles, put one after the other. -/
theorem estimates_eq (s : Sketch) (quantiles : List Float) :
    estimates s quantiles = (quantiles.mapM (row s)).map collect := by
  unfold estimates collect
  generalize ([] : List (String × Option Float)) = done
  induction quantiles generalizing done with
  | nil => rfl
  | cons q quantiles ih =>
    rw [List.foldlM_cons, List.mapM_cons, row]
    cases s.quantile q with
    | error e => rfl
    | ok estimate =>
      refine (ih _).trans ?_
      simp only [Except.map, bind, Except.bind]
      cases quantiles.mapM (row s) <;> rfl

theorem labels_of_mapM {s : Sketch} {quantiles : List Float} {rows : List (String × Option Float)}
    (h : quantiles.mapM (row s) = .ok rows) : rows.map (·.1) = quantiles.map label := by
  rw [mapM_eq_ok_iff] at h
  induction h with
  | nil => rfl
  | @cons q r _ _ hrow _ ih =>
    have hlabel : r.1 = label q := by
      unfold row at hrow
      cases hq : s.quantile q with
      | error e => rw [hq] at hrow; cases hrow
      | ok estimate => rw [hq] at hrow; cases hrow; rfl
    rw [List.map_cons, List.map_cons, ih, hlabel]

theorem range_of_quantile {s : Sketch} {q : Float} (h : ∃ estimate, s.quantile q = .ok estimate) :
    0.0 ≤ q ∧ q ≤ 1.0 := by
  obtain ⟨estimate, h⟩ := h
  rw [Sketch.quantile] at h
  split at h
  · cases h
  · rename_i hrange
    simpa using hrange

/-- What a report shows of the quantiles of a sketch that holds values, if all of them can be estimated.
Every label is there once, and shows the last row that goes under it. Each quantile has a row of its own
exactly when no two of them have the same label, for which it is enough that they lie more than `1.02`
millionths apart. -/
theorem quantiles_ofSketch {s : Sketch} {quantiles : List Float} (hcount : s.count ≠ 0)
    (hanswers : ∀ q ∈ quantiles, ∃ estimate, s.quantile q = .ok estimate) :
    ∃ rows summary, quantiles.mapM (row s) = .ok rows ∧ ofSketch s quantiles = .ok (some summary) ∧
      summary.quantiles.map (·.1) = (quantiles.map label).eraseDups ∧
      (∀ name, summary.quantiles.lookup name = rows.reverse.lookup name) ∧
      (summary.quantiles = rows ↔ (quantiles.map label).Nodup) ∧
      (quantiles.Pairwise (fun q q' => 102 / 10 ^ 8 < |amount q - amount q'|) →
        summary.quantiles = rows) := by
  obtain ⟨rows, hrows⟩ : ∃ rows, quantiles.mapM (row s) = .ok rows := by
    refine exists_mapM_iff.mpr fun q hq => ?_
    obtain ⟨estimate, hestimate⟩ := hanswers q hq
    exact ⟨(label q, estimate.bind figure), by rw [row, hestimate]; rfl⟩
  have hestimates : estimates s quantiles = .ok (collect rows) := by
    rw [estimates_eq, hrows]
    rfl
  obtain ⟨summary, hsummary, hquantiles⟩ : ∃ summary, ofSketch s quantiles = .ok (some summary) ∧
      summary.quantiles = collect rows := by
    rw [ofSketch, if_neg hcount, hestimates]
    exact ⟨_, rfl, rfl⟩
  have hlabels := labels_of_mapM hrows
  refine ⟨rows, summary, hrows, hsummary, ?_, ?_, ?_, ?_⟩
  all_goals rw [hquantiles]
  · rw [names_collect, hlabels]
  · exact lookup_collect rows
  · rw [collect_eq_iff, hlabels]
  · intro hapart
    rw [collect_eq_iff, hlabels, List.Nodup, List.pairwise_map]
    refine hapart.imp_of_mem fun {q q'} hq hq' hlt hlabel => ?_
    have hrange := fun p hp => range_of_quantile (hanswers p hp)
    exact absurd (abs_amount_sub_le_of_label_eq (hrange q hq).1 (hrange q hq).2 (hrange q' hq').1
      (hrange q' hq').2 hlabel) (not_le.mpr hlt)

/-- A quantile that is just below one is lost to one. -/
example : label 0.9999999 = "p100" ∧ label 1.0 = "p100" := by decide +kernel

def zeroSketch : Sketch :=
  { Sketch.empty 0.01 2048 with count := 1, zeros := 1, least := 0.0, greatest := 0.0 }

theorem quantiles_zeroSketch :
    ∃ rows summary, [0.9999999, 1.0].mapM (row zeroSketch) = .ok rows ∧
      ofSketch zeroSketch [0.9999999, 1.0] = .ok (some summary) ∧
      summary.quantiles.map (·.1) = ["p100"] ∧ summary.quantiles ≠ rows := by
  have hanswers : ∀ q ∈ [0.9999999, 1.0], ∃ estimate, zeroSketch.quantile q = .ok estimate :=
    List.forall_mem_cons.mpr ⟨⟨some 0.0, rfl⟩, List.forall_mem_singleton.mpr ⟨some 0.0, rfl⟩⟩
  obtain ⟨rows, summary, hrows, hsummary, hnames, -, hall, -⟩ := quantiles_ofSketch (by decide) hanswers
  have hlabels : [0.9999999, 1.0].map label = ["p100", "p100"] := by decide +kernel
  rw [hlabels] at hnames hall
  refine ⟨rows, summary, hrows, hsummary, hnames.trans (by decide +kernel), ?_⟩
  rw [Ne, hall]
  decide

end Summary

end MetricCapture
