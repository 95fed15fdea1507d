import Mathlib.Data.List.Induction
import MetricCapture.Message.Line
import MetricCapture.Proofs.Sketch.Quantile
import MetricCapture.Proofs.Statistics.Merge
/-! Shards: statistics that share some readings among them and are merged. In whatever order they
observe and merge, each is what a single pass makes of the readings that it holds. -/
namespace MetricCapture.Statistics

/-- Statistics that no question tells apart, other than one for the sums of their sketches. -/
structure Agrees (s t : Statistics) : Prop where
  total : s.total = t.total
  valid : s.valid = t.valid
  failed : s.failed = t.failed
  byKind : s.byKind = t.byKind
  byReason : s.byReason = t.byReason
  distributions : ∀ a, (s.distributions.get a).Agrees (t.distributions.get a)
  multivalue : s.multivalue = t.multivalue
  fractional : s.fractional = t.fractional
  sampled : s.sampled = t.sampled
  contexts : s.contexts = t.contexts
  tags : s.tags = t.tags

/-- Statistics that have been told the same agree. -/
theorem Represents.agrees {cfg : Settings.Analysis} {l : Ledger} {s t : Statistics}
    (hs : s.Represents cfg l) (ht : t.Represents cfg l) : s.Agrees t :=
  ⟨hs.total.trans ht.total.symm, hs.valid.trans ht.valid.symm, hs.failed.trans ht.failed.symm,
    hs.byKind.trans ht.byKind.symm, hs.byReason.trans ht.byReason.symm,
    fun a => (hs.distributions a).agrees (ht.distributions a),
    hs.multivalue.trans ht.multivalue.symm, hs.fractional.trans ht.fractional.symm,
    hs.sampled.trans ht.sampled.symm, hs.contexts.eq ht.contexts, hs.tags.eq ht.tags⟩

inductive Move (ι : Type) where
  | observe (shard : ι) (r : Reading)
  | merge (into other : ι)

variable {ι : Type} [DecidableEq ι]

def replace {α : Type} (shards : ι → α) (i : ι) (s : α) : ι → α :=
  fun j => if j = i then s else shards j

def move (shards : ι → Statistics) : Move ι → Outcome Failure (ι → Statistics)
  | .observe i r => Outcome.within (· i) (replace · i) (·.observe r) shards
  | .merge i j => Outcome.within (· i) (replace · i) (·.merge (shards j)) shards

def run (fresh : Statistics) (moves : List (Move ι)) : Outcome Failure (ι → Statistics) :=
  Outcome.each move (fun _ => fresh) moves

def pass (fresh : Statistics) (rs : List Reading) : Outcome Failure Statistics :=
  Outcome.each observe fresh rs

def hold (held : ι → List Reading) : Move ι → ι → List Reading
  | .observe i r => replace held i (held i ++ [r])
  | .merge i j => replace held i (held i ++ held j)

def holdings (moves : List (Move ι)) : ι → List Reading :=
  moves.foldl hold fun _ => []

def readings (moves : List (Move ι)) : List Reading :=
  moves.flatMap fun
    | .observe _ r => [r]
    | .merge _ _ => []

/-- Shards are what a single pass makes of the readings that they hold, in any order. There is an error
only if a single pass over all readings has one too. -/
structure Faithful (fresh : Statistics) (moves : List (Move ι)) : Prop where
  whole : (run fresh moves).error = none ↔ (pass fresh (readings moves)).error = none
  agrees : (run fresh moves).error = none → ∀ i rs, (holdings moves i).Perm rs →
    ∃ s, pass fresh rs = ⟨s, none⟩ ∧ ((run fresh moves).value i).Agrees s

variable {cfg : Settings.Analysis} {fresh : Statistics}

theorem run_append (fresh : Statistics) (moves : List (Move ι)) (m : Move ι) :
    run fresh (moves ++ [m]) = (run fresh moves).andThen (move · m) := by
  unfold run Outcome.each
  rw [List.foldl_append]
  rfl

theorem holdings_append (moves : List (Move ι)) (m : Move ι) :
    holdings (moves ++ [m]) = hold (holdings moves) m := by
  unfold holdings
  rw [List.foldl_append]
  rfl

omit [DecidableEq ι] in
theorem readings_append (moves : List (Move ι)) (m : Move ι) :
    readings (moves ++ [m]) = readings moves ++ readings [m] :=
  List.flatMap_append

theorem move_observe {shards : ι → Statistics} {i : ι} {r : Reading} {s : Statistics}
    (h : (shards i).observe r = ⟨s, none⟩) :
    move shards (.observe i r) = ⟨replace shards i s, none⟩ := by
  unfold move Outcome.within
  dsimp only
  rw [h]

theorem move_merge {shards : ι → Statistics} {i j : ι} {s : Statistics}
    (h : (shards i).merge (shards j) = ⟨s, none⟩) :
    move shards (.merge i j) = ⟨replace shards i s, none⟩ := by
  unfold move Outcome.within
  dsimp only
  rw [h]

/-- A single pass is broken off if something cannot be taken in. -/
theorem pass_cases (hfresh : fresh.Represents cfg {}) (rs : List Reading) :
    ((Ledger.ofReadings rs).Accepted cfg.accuracy ∧
      ∃ s, pass fresh rs = ⟨s, none⟩ ∧ s.Represents cfg (.ofReadings rs)) ∨
    (¬ (Ledger.ofReadings rs).Accepted cfg.accuracy ∧ (pass fresh rs).error ≠ none) :=
  each_cases hfresh rs

theorem error_pass (hfresh : fresh.Represents cfg {}) (rs : List Reading) :
    (pass fresh rs).error = none ↔ (Ledger.ofReadings rs).Accepted cfg.accuracy := by
  rcases pass_cases hfresh rs with ⟨ha, s, hs, _⟩ | ⟨ha, herr⟩
  · rw [hs]
    exact iff_of_true rfl ha
  · exact iff_of_false herr ha

def Told (cfg : Settings.Analysis) (held : ι → List Reading) (shards : ι → Statistics) : Prop :=
  ∀ i, (shards i).Represents cfg (.ofReadings (held i))

theorem Told.replace {held : ι → List Reading} {shards : ι → Statistics} (h : Told cfg held shards)
    (i : ι) {rs : List Reading} {s : Statistics} (hs : s.Represents cfg (.ofReadings rs)) :
    Told cfg (replace held i rs) (Statistics.replace shards i s) := by
  intro j
  unfold Statistics.replace
  by_cases hj : j = i
  · rw [if_pos hj, if_pos hj]
    exact hs
  · rw [if_neg hj, if_neg hj]
    exact h j

/-- A move takes in what it is about, or is broken off. -/
theorem Told.move {held : ι → List Reading} {shards : ι → Statistics} (h : Told cfg held shards)
    (m : Move ι) :
    ((Ledger.ofReadings (readings [m])).Accepted cfg.accuracy ∧
      ∃ shards', Statistics.move shards m = ⟨shards', none⟩ ∧ Told cfg (hold held m) shards') ∨
    (¬ (Ledger.ofReadings (readings [m])).Accepted cfg.accuracy ∧
      (Statistics.move shards m).error ≠ none) := by
  cases m with
  | observe i r =>
    have hone : Ledger.ofReadings (readings [Move.observe i r]) = .ofReading r :=
      Ledger.append_empty _
    have hheld : Ledger.ofReadings (held i ++ [r]) =
        .ofReadings (held i) ++ .ofReading r := by
      rw [Ledger.ofReadings_append, ← hone]
      rfl
    change _ ∨ (_ ∧ ((shards i).observe r).error ≠ none)
    rw [hone]
    rcases enters_observe r _ _ (h i) with ⟨ha, s, hs, hrep⟩ | hrefused
    · refine .inl ⟨ha, Statistics.replace shards i s, move_observe hs, h.replace i ?_⟩
      rw [hheld]
      exact hrep
    · exact .inr hrefused
  | merge i j =>
    obtain ⟨_, s, hs, hrep⟩ | ⟨hrefused, _⟩ := enters_merge (h j) _ (h i)
    · refine .inl ⟨Ledger.accepted_empty _, Statistics.replace shards i s, move_merge hs,
        h.replace i ?_⟩
      rw [Ledger.ofReadings_append]
      exact hrep
    · exact absurd (h j).accepted hrefused

/-- Some moves take in what they are about, or are broken off. -/
theorem run_cases (hfresh : fresh.Represents cfg {}) (moves : List (Move ι)) :
    ((Ledger.ofReadings (readings moves)).Accepted cfg.accuracy ∧
      ∃ shards, run fresh moves = ⟨shards, none⟩ ∧ Told cfg (holdings moves) shards) ∨
    (¬ (Ledger.ofReadings (readings moves)).Accepted cfg.accuracy ∧
      (run fresh moves).error ≠ none) := by
  induction moves using List.reverseRecOn with
  | nil => exact .inl ⟨Ledger.accepted_empty _, _, rfl, fun _ => hfresh⟩
  | append_singleton moves m ih =>
    rw [readings_append, Ledger.ofReadings_append, Ledger.accepted_append, run_append,
      holdings_append]
    rcases ih with ⟨ha, shards, hs, htold⟩ | ⟨hrefused, herr⟩
    · rw [hs, Outcome.andThen_ok]
      rcases htold.move m with ⟨hm, hdone⟩ | ⟨hm, herr⟩
      · exact .inl ⟨⟨ha, hm⟩, hdone⟩
      · exact .inr ⟨fun h => hm h.2, herr⟩
    · exact .inr ⟨fun h => hrefused h.1, fun h => herr ((Outcome.error_andThen _ _).mp h).1⟩

/-- Shards are faithful, whatever they do. -/
theorem faithful_run (hfresh : fresh.Represents cfg {}) (moves : List (Move ι)) :
    Faithful fresh moves := by
  rcases run_cases hfresh moves with ⟨ha, shards, hs, htold⟩ | ⟨hrefused, herr⟩
  · refine ⟨?_, fun _ i rs hp => ?_⟩
    · rw [error_pass hfresh, hs]
      exact iff_of_true rfl ha
    · have hrep := (htold i).perm (Ledger.ofReadings_perm hp)
      rcases pass_cases hfresh rs with ⟨_, s, hpass, hsingle⟩ | ⟨hno, _⟩
      · rw [hs]
        exact ⟨s, hpass, hrep.agrees hsingle⟩
      · exact absurd hrep.accepted hno
  · refine ⟨?_, fun h => absurd h herr⟩
    rw [error_pass hfresh]
    exact iff_of_false herr hrefused

def readingOf (line : String) : Reading :=
  match Reading.ofLine line with
  | .ok r => r
  | .error _ => .failure ⟨.emptyLine, line, none⟩

theorem ofLine_readingOf {line : String} (h : (Reading.ofLine line).isOk = true) :
    Reading.ofLine line = .ok (readingOf line) := by
  unfold readingOf
  cases hr : Reading.ofLine line with
  | ok r => rfl
  | error e =>
    rw [hr] at h
    cases h

end MetricCapture.Statistics
