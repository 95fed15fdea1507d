import MetricCapture.Proofs.Statistics.Shards
/-! Merge trees: orders in which shards are merged until one holds the readings of all. -/
namespace MetricCapture.Statistics

/-- An order of merges: what is right in a branch goes into what is left. -/
inductive MergeTree (ι : Type) where
  | shard (i : ι)
  | branch (left right : MergeTree ι)

namespace MergeTree

variable {ι : Type}

def root : MergeTree ι → ι
  | shard i => i
  | branch left _ => left.root

def shards : MergeTree ι → List ι
  | shard i => [i]
  | branch left right => left.shards ++ right.shards

def moves : MergeTree ι → List (Move ι)
  | shard _ => []
  | branch left right => left.moves ++ right.moves ++ [.merge left.root right.root]

theorem root_mem (t : MergeTree ι) : t.root ∈ t.shards := by
  induction t with
  | shard i => exact List.mem_singleton_self i
  | branch left right ihl _ => exact List.mem_append_left _ ihl

theorem readings_moves (t : MergeTree ι) : readings t.moves = [] := by
  induction t with
  | shard i => rfl
  | branch left right ihl ihr =>
    unfold readings at ihl ihr ⊢
    unfold moves
    rw [List.flatMap_append, List.flatMap_append, ihl, ihr]
    rfl

variable [DecidableEq ι]

/-- Shards that are not of the tree hold what they held. -/
theorem foldl_hold_of_not_mem (t : MergeTree ι) (held : ι → List Reading) {i : ι}
    (hi : i ∉ t.shards) : t.moves.foldl hold held i = held i := by
  induction t generalizing held with
  | shard j => rfl
  | branch left right ihl ihr =>
    obtain ⟨hl, hr⟩ := not_or.mp fun h => hi (List.mem_append.mpr h)
    have hroot : i ≠ left.root := by
      rintro rfl
      exact hl left.root_mem
    unfold moves
    rw [List.foldl_append, List.foldl_append]
    refine Eq.trans (if_neg hroot) ?_
    rw [ihr _ hr, ihl _ hl]

/-- In the end the root holds what all of them held. -/
theorem foldl_hold_root (t : MergeTree ι) (hn : t.shards.Nodup) (held : ι → List Reading) :
    t.moves.foldl hold held t.root = t.shards.flatMap held := by
  induction t generalizing held with
  | shard i => exact (List.append_nil _).symm
  | branch left right ihl ihr =>
    obtain ⟨hl, hr, hdisjoint⟩ := List.nodup_append.mp hn
    have hleft : left.root ∉ right.shards := fun h => hdisjoint _ left.root_mem _ h rfl
    have hright : right.shards.flatMap (left.moves.foldl hold held) = right.shards.flatMap held :=
      congrArg List.flatten <| List.map_congr_left fun i hi =>
        left.foldl_hold_of_not_mem held fun h => hdisjoint _ h _ hi rfl
    unfold moves
    rw [List.foldl_append, List.foldl_append]
    refine Eq.trans (if_pos rfl) ?_
    rw [right.foldl_hold_of_not_mem _ hleft, ihl hl, ihr hr, hright]
    exact List.flatMap_append.symm

/-- The run in which shards observe some readings, and are then merged. -/
def gather (seen : List (ι × Reading)) (t : MergeTree ι) : List (Move ι) :=
  (seen.map fun (i, r) => .observe i r) ++ t.moves

end MergeTree

variable {ι : Type} [DecidableEq ι] {cfg : Settings.Analysis} {fresh : Statistics}

theorem flatMap_replace {is : List ι} (hn : is.Nodup) {i : ι} (hi : i ∈ is)
    (held : ι → List Reading) (rs : List Reading) :
    (is.flatMap (replace held i (held i ++ rs))).Perm (is.flatMap held ++ rs) := by
  induction is with
  | nil => exact absurd hi List.not_mem_nil
  | cons j is ih =>
    obtain ⟨hj, hn⟩ := List.nodup_cons.mp hn
    rw [List.flatMap_cons, List.flatMap_cons, List.append_assoc]
    by_cases he : j = i
    · subst he
      have hrest : is.flatMap (replace held j (held j ++ rs)) = is.flatMap held := by
        refine congrArg List.flatten (List.map_congr_left fun k hk => if_neg ?_)
        rintro rfl
        exact hj hk
      have hfirst : replace held j (held j ++ rs) j = held j ++ rs := if_pos rfl
      rw [hfirst, hrest, List.append_assoc]
      exact List.perm_append_comm.append_left _
    · have hfirst : replace held i (held i ++ rs) j = held j := if_neg he
      rw [hfirst]
      exact (ih hn ((List.mem_cons.mp hi).resolve_left fun h => he h.symm)).append_left _

/-- Shards hold together what they observe. -/
theorem flatMap_holdings {is : List ι} (hn : is.Nodup) (seen : List (ι × Reading))
    (hall : ∀ o ∈ seen, o.1 ∈ is) :
    (is.flatMap (holdings (seen.map fun (i, r) => .observe i r))).Perm (seen.map (·.2)) := by
  induction seen using List.reverseRecOn with
  | nil =>
    have hnil : is.flatMap (holdings ([] : List (Move ι))) = [] :=
      List.flatMap_eq_nil_iff.mpr fun _ _ => rfl
    exact .of_eq hnil
  | append_singleton seen o ih =>
    rw [List.map_append, List.map_append, List.map_singleton, List.map_singleton, holdings_append]
    refine (flatMap_replace hn (hall o ?_) _ _).trans ((ih fun o ho => hall o ?_).append_right _)
    · exact List.mem_append_right _ (List.mem_singleton_self o)
    · exact List.mem_append_left _ ho

/-- The root of a merge tree holds all that its shards observe. -/
theorem MergeTree.holdings_gather {t : MergeTree ι} (hn : t.shards.Nodup)
    (seen : List (ι × Reading)) (hall : ∀ o ∈ seen, o.1 ∈ t.shards) :
    (holdings (t.gather seen) t.root).Perm (seen.map (·.2)) := by
  unfold gather holdings
  rw [List.foldl_append, t.foldl_hold_root hn]
  exact flatMap_holdings hn seen hall

omit [DecidableEq ι] in
theorem MergeTree.readings_gather (t : MergeTree ι) (seen : List (ι × Reading)) :
    readings (t.gather seen) = seen.map (·.2) := by
  have hmerges := t.readings_moves
  unfold readings at hmerges ⊢
  unfold gather
  rw [List.flatMap_append, hmerges, List.append_nil, List.flatMap_map]
  exact List.map_eq_flatMap.symm

/-- Begin with shards of the same settings, and let them observe and merge in any order. Each is what a single
pass makes of the readings that it holds. So the root of a merge tree agrees with statistics that have met all
readings in a single pass, in whatever order its shards have observed them, and nothing is broken off unless the
single pass is. -/
theorem shards_agree (h : create cfg = .ok fresh) :
    (∀ moves : List (Move ι), Faithful fresh moves) ∧
    ∀ (seen : List (ι × Reading)) (t : MergeTree ι), t.shards.Nodup → (∀ o ∈ seen, o.1 ∈ t.shards) →
      ((run fresh (t.gather seen)).error = none ↔ (pass fresh (seen.map (·.2))).error = none) ∧
      ∀ s, pass fresh (seen.map (·.2)) = ⟨s, none⟩ →
        ∃ shards, run fresh (t.gather seen) = ⟨shards, none⟩ ∧ (shards t.root).Agrees s := by
  obtain rfl : empty cfg = fresh := Except.ok.inj ((create_eq cfg).symm.trans h)
  have hfaithful := faithful_run (ι := ι) (represents_empty cfg)
  refine ⟨hfaithful, fun seen t hn hall => ?_⟩
  have hwhole := (hfaithful (t.gather seen)).whole
  rw [t.readings_gather] at hwhole
  refine ⟨hwhole, fun s hs => ?_⟩
  have hok : (run (empty cfg) (t.gather seen)).error = none := by
    rw [hwhole, hs]
  obtain ⟨s', hs', hagrees⟩ :=
    (hfaithful (t.gather seen)).agrees hok t.root _ (MergeTree.holdings_gather hn seen hall)
  obtain rfl : s = s' := by
    rw [hs] at hs'
    exact congrArg Outcome.value hs'
  refine ⟨(run (empty cfg) (t.gather seen)).value, ?_, hagrees⟩
  rw [← hok]

def sharedLines : List (Nat × Reading) :=
  [(0, readingOf "a:1:-2|g|#x,y"), (1, readingOf "b:2|c|#y"), (2, readingOf "m"),
    (0, readingOf "b:-1|c")]

def sharedTree : MergeTree Nat :=
  .branch (.shard 1) (.branch (.shard 0) (.shard 2))

theorem shards_agree_sharedLines :
    ∃ s, pass (empty .standard) (sharedLines.map (·.2)) = ⟨s, none⟩ ∧ s.valid = 3 ∧
      ∃ shards, run (empty .standard) (sharedTree.gather sharedLines) = ⟨shards, none⟩ ∧
        (shards 1).Agrees s := by
  have hnone : (pass (empty .standard) (sharedLines.map (·.2))).error.isNone = true := by
    decide +kernel
  have hpass : pass (empty .standard) (sharedLines.map (·.2)) =
      ⟨(pass (empty .standard) (sharedLines.map (·.2))).value, none⟩ := by
    rw [← Option.isNone_iff_eq_none.mp hnone]
  obtain ⟨-, hagree⟩ := (shards_agree (create_eq .standard)).2 sharedLines sharedTree (by decide)
    (by simp [sharedLines, sharedTree, MergeTree.shards])
  exact ⟨_, hpass, by decide +kernel, hagree _ hpass⟩

end MetricCapture.Statistics
