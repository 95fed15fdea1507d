import Mathlib.Data.List.Induction
import Mathlib.Logic.Function.Basic
import MetricCapture.Proofs.Sketch.Bins
import MetricCapture.Proofs.Sketch.Outcome
/-! Runs of sketches that have names: values are added to them, and they are merged and copied, in any
order. Each keeps what it ought to of the values folded into it. -/
namespace MetricCapture.Sketch

open MetricCapture.Number

/-- The values of a list that a sketch takes in: those before the first that it refuses. -/
def taken (s : Sketch) : List Float → List Float
  | [] => []
  | x :: xs =>
    match s.add x with
    | .ok t => x :: t.taken xs
    | .error _ => []

inductive Move (ι : Type) where
  | add (into : ι) (x : Float)
  | extend (into : ι) (xs : List Float)
  | merge (into other : ι)
  | copy (into other : ι)

variable {ι : Type} [DecidableEq ι]

def move (sketches : ι → Sketch) : Move ι → Outcome Failure (ι → Sketch)
  | .add i x =>
    Outcome.within (· i) (Function.update · i) (fun s => .ofExcept s (s.add x)) sketches
  | .extend i xs => Outcome.within (· i) (Function.update · i) (·.extend xs) sketches
  | .merge i j =>
    Outcome.within (· i) (Function.update · i) (fun s => .ofExcept s (s.merge (sketches j))) sketches
  | .copy i j => ⟨Function.update sketches i (sketches j), none⟩

/-- The values folded into each sketch after a move. A merge that is refused folds in none. -/
def hold (sketches : ι → Sketch) (held : ι → List Float) : Move ι → ι → List Float
  | .add i x => Function.update held i (held i ++ (sketches i).taken [x])
  | .extend i xs => Function.update held i (held i ++ (sketches i).taken xs)
  | .merge i j =>
    match (sketches i).merge (sketches j) with
    | .ok _ => Function.update held i (held i ++ held j)
    | .error _ => held
  | .copy i j => Function.update held i (held j)

/-- Sketches and what has been folded into them, after some moves. The moves go on behind one that is
refused. -/
def trace (fresh : ι → Sketch) (moves : List (Move ι)) : (ι → Sketch) × (ι → List Float) :=
  moves.foldl (fun now m => ((move now.1 m).value, hold now.1 now.2 m)) (fresh, fun _ => [])

def run (fresh : ι → Sketch) (moves : List (Move ι)) : ι → Sketch :=
  (trace fresh moves).1

def holdings (fresh : ι → Sketch) (moves : List (Move ι)) : ι → List Float :=
  (trace fresh moves).2

theorem run_append (fresh : ι → Sketch) (moves : List (Move ι)) (m : Move ι) :
    run fresh (moves ++ [m]) = (move (run fresh moves) m).value := by
  simp [run, trace]

theorem holdings_append (fresh : ι → Sketch) (moves : List (Move ι)) (m : Move ι) :
    holdings fresh (moves ++ [m]) = hold (run fresh moves) (holdings fresh moves) m := by
  simp [run, holdings, trace]

variable {accuracy : Float} {limit : Nat} {s : Sketch} {xs : List Float}

/-- A sketch that is to be extended takes in all values before the first that it refuses. -/
theorem Represents.extend (hl : 0 < limit) (hs : s.Represents accuracy limit xs) (ys : List Float) :
    (s.extend ys).value.Represents accuracy limit (xs ++ s.taken ys) := by
  unfold Sketch.extend
  induction ys generalizing s xs with
  | nil =>
    rw [taken, List.append_nil]
    exact hs
  | cons y ys ih =>
    rw [Outcome.each_cons]
    rcases hs.add hl y with ⟨_, t, ht, hrep⟩ | ⟨_, e, he⟩
    · simp only [taken, ht, Outcome.ofExcept, Outcome.andThen_ok]
      exact (ih hrep).perm List.perm_middle.symm
    · simpa [taken, he, Outcome.ofExcept, Outcome.andThen] using hs

section Told

variable {sketches : ι → Sketch} {held : ι → List Float}

def Told (accuracy : Float) (limit : Nat) (sketches : ι → Sketch) (held : ι → List Float) : Prop :=
  ∀ i, (sketches i).Represents accuracy limit (held i)

theorem Told.update (h : Told accuracy limit sketches held) (i : ι)
    (hs : s.Represents accuracy limit xs) :
    Told accuracy limit (Function.update sketches i s) (Function.update held i xs) := by
  intro j
  by_cases hj : j = i
  · subst hj
    simpa using hs
  · simpa [hj] using h j

/-- A move folds in what it is about. -/
theorem Told.move (ha : 0.0 < accuracy ∧ accuracy < 1.0) (hl : 0 < limit)
    (h : Told accuracy limit sketches held) (m : Move ι) :
    Told accuracy limit (Sketch.move sketches m).value (hold sketches held m) := by
  cases m with
  | add i x => exact h.update i ((h i).extend hl [x])
  | extend i xs => exact h.update i ((h i).extend hl xs)
  | merge i j =>
    obtain ⟨s, hs, hrep⟩ := (h i).merge ha (h j)
    simpa [Sketch.move, hold, Outcome.within, Outcome.ofExcept, hs] using h.update i hrep
  | copy i j => exact h.update i (h j)

end Told

variable {fresh : ι → Sketch}

/-- Every sketch represents what has been folded into it. -/
theorem told_run (ha : 0.0 < accuracy ∧ accuracy < 1.0) (hl : 0 < limit)
    (hfresh : ∀ i, (fresh i).Represents accuracy limit []) (moves : List (Move ι)) :
    Told accuracy limit (run fresh moves) (holdings fresh moves) := by
  induction moves using List.reverseRecOn with
  | nil => exact hfresh
  | append_singleton moves m ih =>
    rw [run_append, holdings_append]
    exact ih.move ha hl m

/-- Values of either sign around one that is refused, taken in by two sketches, then a merge of both, one
of the second with itself, and a copy. -/
def signedMoves : List (Move Bool) :=
  [.extend false [1.0, -2.0, 0.0, 1.0 / 0.0, 2.0], .add true (-1.0), .merge true false, .merge true true,
    .copy false true]

end MetricCapture.Sketch
