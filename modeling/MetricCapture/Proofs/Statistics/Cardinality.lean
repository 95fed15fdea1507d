import MetricCapture.Proofs.Statistics.Conservation
import MetricCapture.Proofs.Statistics.Context
import MetricCapture.Proofs.Statistics.Interrupted
import MetricCapture.Statistics.Snapshot
/-! Cardinality: in whatever order shards observe and merge, and whatever is broken off on the way, the
registers of each depend on the set of contexts and the set of tags that it has seen. -/
namespace MetricCapture.Statistics
open MetricCapture.Text

def leadingChanges (m : Message) : List Change :=
  [always fun s =>
      { s with total := s.total + 1, valid := s.valid + 1, byKind := s.byKind.bump m.kind },
    recordCount .nameLength m.name.utf8ByteSize,
    recordCount .tagsPerMessage m.tags.length,
    recordCount .valuesPerMessage m.values.length,
    always fun s =>
      { s with
        multivalue := if 1 < m.values.length then s.multivalue + 1 else s.multivalue
        sampled := if m.rate.any (· < 1.0) then s.sampled + 1 else s.sampled }] ++
    (if m.kind.isMetric then m.values.flatMap recordValue else [])

def trailingChanges (m : Message) : List Change :=
  m.tags.map (fun tag => recordCount .tagLength tag.utf8ByteSize) ++
    [recordCount .unicodeTags (m.tags.countP beyondAscii)]

def register (s : Statistics) (m : Message) : Statistics :=
  { s with
    contexts := s.contexts.observe (contextKey m)
    tags := m.tags.foldl (fun r tag => r.observe (Utf8.ofString tag)) s.tags }

/-- The metric that goes into the registers when a reading is observed. There is none if the steps that
lead up to them are broken off. -/
def registered (s : Statistics) : Reading → List Message
  | .message m =>
    if m.kind.isMetric && (inTurn (leadingChanges m) s).error.isNone then [m] else []
  | .failure _ => []

/-- A message is taken in by the steps up to its context, by its registers, which do not break off, and by
the steps behind them. -/
theorem observe_message (s : Statistics) (m : Message) :
    s.observe (.message m) =
      (inTurn (leadingChanges m) s).andThen fun s =>
        inTurn (trailingChanges m) (if m.kind.isMetric then s.register m else s) := by
  cases hm : m.kind.isMetric with
  | true =>
    have hchanges : messageChanges m = leadingChanges m ++
        ([always fun s => { s with contexts := s.contexts.observe (contextKey m) },
          always fun s =>
            { s with tags := m.tags.foldl (fun r tag => r.observe (Utf8.ofString tag)) s.tags }] ++
          trailingChanges m) := by
      simp [messageChanges, leadingChanges, trailingChanges, recordMetric, hm]
    change Outcome.sequence s (messageChanges m) = _
    rw [hchanges, Outcome.sequence_append]
    rfl
  | false =>
    have hchanges : messageChanges m = leadingChanges m ++ trailingChanges m := by
      simp [messageChanges, leadingChanges, trailingChanges, hm]
    change Outcome.sequence s (messageChanges m) = _
    rw [hchanges, Outcome.sequence_append]
    rfl

def registers (s : Statistics) : Registers × Registers := (s.contexts, s.tags)

theorem registers_record (a : Attribute) (x : Float) (s : Statistics) :
    (record a x s).value.registers = s.registers := by
  unfold record
  cases (s.distributions.get a).add x <;> rfl

theorem registers_leadingChanges (m : Message) (s : Statistics) :
    (inTurn (leadingChanges m) s).value.registers = s.registers := by
  refine Outcome.sequence_keeps ?_ s
  unfold leadingChanges
  simp only [List.forall_mem_append, List.forall_mem_cons]
  refine ⟨⟨fun s => rfl, registers_record _ _, registers_record _ _, registers_record _ _, fun s => rfl,
    nofun⟩, ?_⟩
  split
  · simp only [recordValue, List.mem_flatMap, forall_exists_index, and_imp]
    rintro c x - hc
    rcases List.mem_cons.mp hc with rfl | hc
    · exact registers_record _ _
    · rw [List.mem_singleton.mp hc]
      intro s
      change registers (if _ then _ else _) = _
      split <;> rfl
  · exact nofun

theorem registers_trailingChanges (m : Message) (s : Statistics) :
    (inTurn (trailingChanges m) s).value.registers = s.registers := by
  refine Outcome.sequence_keeps ?_ s
  unfold trailingChanges
  simp only [List.forall_mem_append, List.forall_mem_cons, List.forall_mem_map]
  exact ⟨fun tag _ => registers_record _ _, registers_record _ _, nofun⟩

/-- Observing changes the registers by what goes into them, broken off or not. -/
theorem registers_observe (s : Statistics) (r : Reading) :
    (s.observe r).value.registers = ((registered s r).foldl register s).registers := by
  cases r with
  | failure f =>
    simp only [observe, observeFailure, registered, List.foldl_nil]
    split <;> rfl
  | message m =>
    have hleading := registers_leadingChanges m s
    rw [observe_message]
    simp only [registered]
    rcases Outcome.andThen_cases (inTurn (leadingChanges m) s) (fun s =>
      inTurn (trailingChanges m) (if m.kind.isMetric then s.register m else s)) with
      ⟨hne, he⟩ | ⟨hnone, he⟩
    · rw [he, hleading]
      simp [hne]
    · rw [he, registers_trailingChanges]
      simp only [hnone, Option.isNone_none, Bool.and_true]
      split
      · simp only [List.foldl_cons, List.foldl_nil, registers, register, Prod.mk.injEq] at hleading ⊢
        rw [hleading.1, hleading.2]
        exact ⟨rfl, rfl⟩
      · exact hleading

/-- What registers tell: the contexts and the tags of some metrics. -/
structure Seen (precision : Nat) (ms : List Message) (s : Statistics) : Prop where
  contexts : s.contexts.Represents precision (ms.map contextKey)
  tags : s.tags.Represents precision (ms.flatMap fun m => m.tags.map Utf8.ofString)

variable {p : Nat} {ms ns : List Message} {s t : Statistics}

theorem Seen.congr (h : s.Seen p ms) (he : t.registers = s.registers) : t.Seen p ms := by
  obtain ⟨hcontexts, htags⟩ := Prod.mk.inj he
  exact ⟨hcontexts ▸ h.contexts, htags ▸ h.tags⟩

theorem Seen.register (h : s.Seen p ms) (m : Message) : (s.register m).Seen p (ms ++ [m]) := by
  refine ⟨?_, ?_⟩
  · rw [List.map_append]
    exact h.contexts.observe_append _
  · rw [List.flatMap_append, List.flatMap_singleton]
    exact h.tags.foldl_append Utf8.ofString m.tags

theorem Seen.foldl_register (h : s.Seen p ms) (ns : List Message) :
    (ns.foldl Statistics.register s).Seen p (ms ++ ns) := by
  induction ns generalizing s ms with
  | nil => simpa using h
  | cons n ns ih => simpa using ih (h.register n)

theorem Seen.observe (h : s.Seen p ms) (r : Reading) :
    (s.observe r).value.Seen p (ms ++ registered s r) :=
  (h.foldl_register _).congr (registers_observe s r)

/-- A merge takes in all that the other has seen if it is made whole, and nothing of it otherwise. -/
theorem Seen.merge (hs : s.Seen p ms) (ht : t.Seen p ns) :
    (s.merge t).value.Seen p (ms ++ if (s.merge t).error.isNone then ns else []) := by
  rw [merge_eq]
  have hkept : (inTurn (Attribute.all.map (mergeAttribute t.distributions)) (counted s t)).value.registers =
      s.registers := by
    rw [value_mergeAttributes]
    rfl
  have hu := hs.congr hkept
  rcases Outcome.andThen_cases (inTurn (Attribute.all.map (mergeAttribute t.distributions))
    (counted s t)) (fun s => Outcome.sequence s (furtherChanges t)) with ⟨hne, he⟩ | ⟨_, he⟩
  · rw [he, if_neg (by simpa using hne), List.append_nil]
    exact hu
  · rw [he]
    generalize (inTurn (Attribute.all.map (mergeAttribute t.distributions)) (counted s t)).value = u at hu
    obtain ⟨contexts, hcontexts, hrep⟩ := hu.contexts.merge ht.contexts
    obtain ⟨tags, htags, hrep'⟩ := hu.tags.merge ht.tags
    have hmerged : Outcome.sequence u (furtherChanges t) =
        ⟨{ u with
            multivalue := u.multivalue + t.multivalue
            fractional := u.fractional + t.fractional
            sampled := u.sampled + t.sampled
            contexts, tags }, none⟩ := by
      simp [furtherChanges, Outcome.sequence, always, mergeRegisters, hcontexts, htags]
    rw [hmerged]
    exact ⟨by simpa using hrep, by simpa using hrep'⟩

def SameContexts (ms ns : List Message) : Prop :=
  (∀ m ∈ ms, ∃ n ∈ ns, m.SameContext n) ∧ ∀ n ∈ ns, ∃ m ∈ ms, n.SameContext m

def SameTags (ms ns : List Message) : Prop :=
  ∀ tag, tag ∈ ms.flatMap Message.tags ↔ tag ∈ ns.flatMap Message.tags

/-- Registers of one precision that have seen the same contexts are the same. -/
theorem Seen.contexts_eq (hs : s.Seen p ms) (ht : t.Seen p ns) (h : SameContexts ms ns) :
    s.contexts = t.contexts := by
  have hsub : ∀ {as bs : List Message}, (∀ a ∈ as, ∃ b ∈ bs, a.SameContext b) →
      ∀ key ∈ as.map contextKey, key ∈ bs.map contextKey := by
    intro as bs hsame key hkey
    obtain ⟨a, ha, rfl⟩ := List.mem_map.mp hkey
    obtain ⟨b, hb, hab⟩ := hsame a ha
    exact List.mem_map.mpr ⟨b, hb, (contextKey_of_sameContext hab).symm⟩
  exact hs.contexts.eq (ht.contexts.congr fun key => ⟨hsub h.2 key, hsub h.1 key⟩)

/-- Registers of one precision that have seen the same tags are the same. -/
theorem Seen.tags_eq (hs : s.Seen p ms) (ht : t.Seen p ns) (h : SameTags ms ns) : s.tags = t.tags := by
  refine hs.tags.eq (ht.tags.congr fun bs => ?_)
  have hbytes : ∀ as : List Message, bs ∈ as.flatMap (fun m => m.tags.map Utf8.ofString) ↔
      ∃ tag ∈ as.flatMap Message.tags, Utf8.ofString tag = bs := by
    intro as
    rw [← List.map_flatMap, List.mem_map]
  rw [hbytes, hbytes]
  exact exists_congr fun tag => and_congr_left' (h tag).symm

theorem seen_create {cfg : Settings.Analysis} (h : create cfg = .ok s) : s.Seen cfg.precision [] := by
  obtain rfl : empty cfg = s := Except.ok.inj ((create_eq cfg).symm.trans h)
  exact ⟨(represents_empty cfg).contexts, (represents_empty cfg).tags⟩

section Runs

variable {ι : Type} [DecidableEq ι]

/-- The metrics that shards have seen after a move. Of a merge that is broken off there is none. -/
def see (shards : ι → Statistics) (seen : ι → List Message) : Move ι → ι → List Message
  | .observe i r => replace seen i (seen i ++ registered (shards i) r)
  | .merge i j =>
    replace seen i
      (seen i ++ if ((shards i).merge (shards j)).error.isNone then seen j else [])

/-- Shards and the metrics that they have seen, after some moves. These go on behind one that is broken
off. -/
def trace (fresh : ι → Statistics) (moves : List (Move ι)) : (ι → Statistics) × (ι → List Message) :=
  moves.foldl (fun now m => ((move now.1 m).value, see now.1 now.2 m)) (fresh, fun _ => [])

def left (fresh : ι → Statistics) (moves : List (Move ι)) : ι → Statistics :=
  (trace fresh moves).1

def seen (fresh : ι → Statistics) (moves : List (Move ι)) : ι → List Message :=
  (trace fresh moves).2

theorem left_append (fresh : ι → Statistics) (moves : List (Move ι)) (m : Move ι) :
    left fresh (moves ++ [m]) = (move (left fresh moves) m).value := by
  simp [left, trace]

theorem seen_append (fresh : ι → Statistics) (moves : List (Move ι)) (m : Move ι) :
    seen fresh (moves ++ [m]) = see (left fresh moves) (seen fresh moves) m := by
  simp [left, seen, trace]

/-- Each shard has the registers of what it has seen. -/
theorem seen_left {fresh : ι → Statistics} (hfresh : ∀ i, (fresh i).Seen p []) (moves : List (Move ι))
    (i : ι) : (left fresh moves i).Seen p (seen fresh moves i) := by
  induction moves using List.reverseRecOn generalizing i with
  | nil => exact hfresh i
  | append_singleton moves m ih =>
    rw [left_append, seen_append]
    cases m with
    | observe j r =>
      simp only [move, Outcome.within, see, replace]
      split
      · exact (ih j).observe r
      · exact ih i
    | merge j k =>
      simp only [move, Outcome.within, see, replace]
      split
      · exact (ih j).merge (ih k)
      · exact ih i

def metricsOf (rs : List Reading) : List Message :=
  (messages rs).filter (·.kind.isMetric)

theorem registered_of_not_metric {r : Reading} (h : metricsOf [r] = []) : registered s r = [] := by
  cases r with
  | failure f => rfl
  | message m =>
    have hm : m.kind.isMetric = false := by simpa [metricsOf, messages] using h
    simp [registered, hm]

theorem registered_of_error {r : Reading} (h : (s.observe r).error = none) :
    registered s r = metricsOf [r] := by
  cases r with
  | failure f => rfl
  | message m =>
    rw [observe_message, Outcome.error_andThen] at h
    simp [registered, metricsOf, messages, h.1, List.filter_cons]

/-- If nothing is broken off, the metrics that shards have seen are those among the readings that they
hold. -/
theorem seen_of_runFrom {fresh : ι → Statistics} {moves : List (Move ι)}
    (hok : (runFrom fresh moves).error = none) :
    left fresh moves = (runFrom fresh moves).value ∧
      ∀ i, seen fresh moves i = metricsOf (holdings moves i) := by
  induction moves using List.reverseRecOn with
  | nil => exact ⟨rfl, fun _ => rfl⟩
  | append_singleton moves m ih =>
    have hrun : runFrom fresh (moves ++ [m]) = (runFrom fresh moves).andThen (move · m) :=
      Outcome.each_concat move fresh moves m
    rw [hrun] at hok ⊢
    obtain ⟨hbefore, hmove⟩ := (Outcome.error_andThen _ _).mp hok
    obtain ⟨hleft, hseen⟩ := ih hbefore
    rw [left_append, seen_append, Outcome.andThen_of_none hbefore, holdings_append, hleft]
    refine ⟨rfl, fun i => ?_⟩
    cases m with
    | observe j r =>
      have hr : registered ((runFrom fresh moves).value j) r = metricsOf [r] := registered_of_error hmove
      simp only [see, hold, replace, hr, hseen]
      split
      · simp [metricsOf, messages]
      · rfl
    | merge j k =>
      have hnone : (((runFrom fresh moves).value j).merge ((runFrom fresh moves).value k)).error = none :=
        hmove
      simp only [see, hold, replace, hnone, hseen]
      split
      · simp [metricsOf, messages]
      · rfl

/-- Let shards of one precision, whatever their other settings, observe and merge each other, or
themselves, in any order, and let other shards do so elsewhere. Two that have seen metrics of the same
contexts have the same registers of contexts and the same estimate, and two that have seen the same tags
those of tags. What is no metric changes neither. If nothing is broken off, the metrics that a shard has
seen are those among the readings that it holds. -/
theorem cardinality_of_seen {κ : Type} [DecidableEq κ] {cfgs : ι → Settings.Analysis}
    {cfgs' : κ → Settings.Analysis} {fresh : ι → Statistics} {fresh' : κ → Statistics}
    (hp : ∀ i, (cfgs i).precision = p) (hp' : ∀ k, (cfgs' k).precision = p)
    (hfresh : ∀ i, create (cfgs i) = .ok (fresh i)) (hfresh' : ∀ k, create (cfgs' k) = .ok (fresh' k))
    (moves : List (Move ι)) (moves' : List (Move κ)) (i : ι) (k : κ) :
    (SameContexts (seen fresh moves i) (seen fresh' moves' k) →
        (left fresh moves i).contexts = (left fresh' moves' k).contexts ∧
          estimated (left fresh moves i).contexts = estimated (left fresh' moves' k).contexts) ∧
      (SameTags (seen fresh moves i) (seen fresh' moves' k) →
        (left fresh moves i).tags = (left fresh' moves' k).tags ∧
          estimated (left fresh moves i).tags = estimated (left fresh' moves' k).tags) ∧
      (∀ r, metricsOf [r] = [] →
        ((left fresh moves i).observe r).value.contexts = (left fresh moves i).contexts ∧
          ((left fresh moves i).observe r).value.tags = (left fresh moves i).tags) ∧
      ((runFrom fresh moves).error = none →
        left fresh moves = (runFrom fresh moves).value ∧
          seen fresh moves i = metricsOf (holdings moves i)) := by
  have hs : (left fresh moves i).Seen p (seen fresh moves i) :=
    seen_left (fun i => hp i ▸ seen_create (hfresh i)) moves i
  have ht : (left fresh' moves' k).Seen p (seen fresh' moves' k) :=
    seen_left (fun k => hp' k ▸ seen_create (hfresh' k)) moves' k
  refine ⟨fun h => ?_, fun h => ?_, fun r hr => ?_, fun hok => ?_⟩
  · rw [hs.contexts_eq ht h]
    exact ⟨rfl, rfl⟩
  · rw [hs.tags_eq ht h]
    exact ⟨rfl, rfl⟩
  · have hkept := registers_observe (left fresh moves i) r
    rw [registered_of_not_metric hr] at hkept
    exact Prod.mk.inj hkept
  · obtain ⟨hleft, hseen⟩ := seen_of_runFrom hok
    exact ⟨hleft, hseen i⟩

end Runs

def taggedMessage (tags : List String) : Message :=
  { name := "a", values := [1.0, -2.0], kind := .gauge, tags }

/-- A metric and a line that fails, on two shards, which are merged, and one of them with itself. -/
def taggedMoves : List (Move Bool) :=
  [.observe false (.message (taggedMessage ["x", "y"])), .observe true (readingOf "m"),
    .merge false true, .merge false false]

def otherMoves : List (Move Unit) :=
  [.observe () (.message (taggedMessage ["y", "x"])), .merge () ()]

theorem cardinality_taggedMoves :
    seen (fun i => empty (unequalSettings i)) taggedMoves false =
        [taggedMessage ["x", "y"], taggedMessage ["x", "y"]] ∧
      seen (fun _ => empty .standard) otherMoves () =
        [taggedMessage ["y", "x"], taggedMessage ["y", "x"]] ∧
      (left (fun i => empty (unequalSettings i)) taggedMoves false).contexts =
        (left (fun _ => empty .standard) otherMoves ()).contexts ∧
      (left (fun i => empty (unequalSettings i)) taggedMoves false).tags =
        (left (fun _ => empty .standard) otherMoves ()).tags := by
  have hprecision : ∀ i, (unequalSettings i).precision = Settings.Analysis.standard.precision :=
    fun _ => rfl
  obtain ⟨hcontexts, htags, -, hseen⟩ := cardinality_of_seen hprecision (fun _ => rfl)
    (fun i => create_eq (unequalSettings i)) (fun _ => create_eq .standard) taggedMoves otherMoves false ()
  have hok : (runFrom (fun i => empty (unequalSettings i)) taggedMoves).error.isNone = true := by
    decide +kernel
  have hok' : (runFrom (fun _ => empty .standard) otherMoves).error.isNone = true := by
    decide +kernel
  have hmine : seen (fun i => empty (unequalSettings i)) taggedMoves false =
      [taggedMessage ["x", "y"], taggedMessage ["x", "y"]] :=
    (hseen (Option.isNone_iff_eq_none.mp hok)).2
  have hother : seen (fun _ => empty .standard) otherMoves () =
      [taggedMessage ["y", "x"], taggedMessage ["y", "x"]] :=
    (seen_of_runFrom (Option.isNone_iff_eq_none.mp hok')).2 ()
  have hsame : ∀ tag, tag ∈ (taggedMessage ["x", "y"]).tags ↔ tag ∈ (taggedMessage ["y", "x"]).tags :=
    fun tag => by simp [taggedMessage, or_comm]
  rw [hmine, hother] at hcontexts htags
  refine ⟨hmine, hother, (hcontexts ⟨?_, ?_⟩).1, (htags fun tag => ?_).1⟩
  · simpa using ⟨rfl, hsame⟩
  · simpa using ⟨rfl, fun tag => (hsame tag).symm⟩
  · simp [hsame]

end MetricCapture.Statistics
