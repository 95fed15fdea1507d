import MetricCapture.Source.Lookahead
/-! Peeking loses, repeats and reorders nothing. Main statement: over a source that gives what it holds
in pieces of whatever size, every run of peeks and reads gives what a cursor over the bytes gives, however
many layers the peeks put up. -/
namespace MetricCapture.Lookahead

/-- The bytes an amount asks for, and those behind them. All are asked for by no amount and by a
negative one. -/
def cut (bs : Bytes) : Option Int → Bytes × Bytes
  | some (.ofNat n) => (bs.take n, bs.drop n)
  | _ => (bs, [])

/-- The bytes each step gives of a single run of bytes. A read takes them away. -/
def runPlain : Bytes → List Step → List Bytes
  | _, [] => []
  | bs, .peek amount :: rest => (cut bs amount).1 :: runPlain bs rest
  | bs, .read amount :: rest => (cut bs amount).1 :: runPlain (cut bs amount).2 rest

variable {σ : Type}

/-- A source gives what it holds in order: all of it at once, or pieces that are no longer than asked
for, none of them empty before the end. -/
structure Gives (read : Reader σ) (held : σ → Bytes) : Prop where
  all : ∀ s, (read s none).1 = held s ∧ held (read s none).2 = []
  piece : ∀ s (n : Nat), 0 < n → held s = (read s (some n)).1 ++ held (read s (some n)).2
  length_le : ∀ s (n : Nat), 0 < n → (read s (some n)).1.length ≤ n
  exhausted : ∀ s (n : Nat), 0 < n → (read s (some n)).1 = [] → held s = []

def Exact (read : Reader σ) (held : σ → Bytes) : Prop :=
  ∀ s amount, (read s amount).1 = (cut (held s) amount).1 ∧
    held (read s amount).2 = (cut (held s) amount).2

variable {read : Reader σ} {held : σ → Bytes}

theorem Exact.gives (h : Exact read held) : Gives read held := by
  have hsome : ∀ s (n : Nat), (read s (some n)).1 = (held s).take n ∧
      held (read s (some n)).2 = (held s).drop n :=
    fun s n => h s (some n)
  refine ⟨fun s => h s none, fun s n _ => ?_, fun s n _ => ?_, fun s n hn hempty => ?_⟩
  · rw [(hsome s n).1, (hsome s n).2, List.take_append_drop]
  · rw [(hsome s n).1]
    exact List.length_take_le n (held s)
  · rw [(hsome s n).1, List.take_eq_nil_iff] at hempty
    exact hempty.resolve_left (Nat.ne_of_gt hn)

/-- Reading on gives the next bytes, in however many pieces the source answers. -/
theorem fill_eq (h : Gives read held) (need : Nat) (s : σ) :
    (fill read need s).1 = (held s).take need ∧ held (fill read need s).2 = (held s).drop need := by
  fun_induction fill read need s with
  | case1 s => exact ⟨rfl, rfl⟩
  | case2 need s hneed s' hread =>
    -- An empty answer is the end: nothing was held, and nothing is.
    have hpos := Nat.pos_of_ne_zero hneed
    have hempty := h.exhausted s need hpos (congrArg Prod.fst hread)
    have hpiece := h.piece s need hpos
    rw [hread, hempty] at hpiece
    rw [hempty, List.take_nil, List.drop_nil]
    exact ⟨rfl, hpiece.symm⟩
  | case3 need s hneed piece s' hread _ more s'' hmore ih =>
    have hpos := Nat.pos_of_ne_zero hneed
    have hpiece := h.piece s need hpos
    have hlength := h.length_le s need hpos
    rw [hread] at hpiece hlength
    rw [hmore] at ih
    dsimp only at hpiece hlength ih ⊢
    rw [hpiece, List.take_append, List.drop_append, List.take_of_length_le hlength,
      List.drop_of_length_le hlength, ih.1, ih.2]
    exact ⟨rfl, rfl⟩

/-- A layer gives its own bytes and those below exactly, however the source below answers. -/
theorem Peeked.exact (h : Gives read held) :
    Exact (Peeked.read read) fun p => p.head ++ held p.below := by
  intro p amount
  match amount with
  | none | some (.negSucc _) =>
    obtain ⟨hbytes, hrest⟩ := h.all p.below
    exact ⟨congrArg (p.head ++ ·) hbytes, hrest⟩
  | some (.ofNat n) =>
    obtain ⟨hbytes, hrest⟩ := fill_eq h (n - (p.head.take n).length) p.below
    have hneed : n - (p.head.take n).length = n - p.head.length := by
      rw [List.length_take]
      omega
    change p.head.take n ++ (fill read (n - (p.head.take n).length) p.below).1 =
        (p.head ++ held p.below).take n ∧
      p.head.drop n ++ held (fill read (n - (p.head.take n).length) p.below).2 =
        (p.head ++ held p.below).drop n
    rw [hbytes, hrest, hneed, List.take_append, List.drop_append]
    exact ⟨rfl, rfl⟩

def Layers.content (held : σ → Bytes) : (more : Nat) → Layers σ more → Bytes
  | 0, s => s.head ++ held s.below
  | more + 1, s => s.head ++ content held more s.below

theorem Layers.exact (h : Gives read held) (more : Nat) :
    Exact (Layers.read read more) (Layers.content held more) := by
  induction more with
  | zero => exact Peeked.exact h
  | succ more ih => exact Peeked.exact ih.gives

theorem cut_append (bs : Bytes) (amount : Option Int) : (cut bs amount).1 ++ (cut bs amount).2 = bs := by
  match amount with
  | none | some (.negSucc _) => exact List.append_nil bs
  | some (.ofNat n) => exact List.take_append_drop n bs

/-- The layer a peek puts up gives the bytes that have been seen once more. -/
theorem Layers.content_peek (h : Gives read held) {more : Nat} (s : Layers σ more)
    (amount : Option Int) : content held (more + 1) (s.peek read amount).2 = content held more s := by
  obtain ⟨hbytes, hrest⟩ := Layers.exact h more s amount
  change (Layers.read read more s amount).1 ++ content held more (Layers.read read more s amount).2 = _
  rw [hbytes, hrest, cut_append]

/-- One run over layers is that of a cursor over what they hold. -/
theorem run_layers (h : Gives read held) (steps : List Step) (more : Nat) (s : Layers σ more) :
    run read more s steps = runPlain (s.content held) steps := by
  induction steps generalizing more with
  | nil => rfl
  | cons step rest ih =>
    cases step with
    | peek amount =>
      -- One layer more holds the same bytes, so the induction is over any number of layers.
      change (Layers.read read more s amount).1 :: run read (more + 1) (s.peek read amount).2 rest =
        (cut (s.content held) amount).1 :: runPlain (s.content held) rest
      rw [ih, Layers.content_peek h, (Layers.exact h more s amount).1]
    | read amount =>
      obtain ⟨hbytes, hrest⟩ := Layers.exact h more s amount
      change (Layers.read read more s amount).1 :: run read more (Layers.read read more s amount).2 rest =
        (cut (s.content held) amount).1 :: runPlain (cut (s.content held) amount).2 rest
      rw [ih, hbytes, hrest]

/-- Peeks and reads over a source behind a head give what a cursor over the head and the bytes of the
source gives. -/
theorem run_eq_runPlain (h : Gives read held) (head : Bytes) (s : σ) (steps : List Step) :
    run read 0 ⟨head, s⟩ steps = runPlain (head ++ held s) steps :=
  run_layers h steps 0 _

theorem gives_granting : Gives Granting.read Granting.bytes := by
  have hsome : ∀ (s : Granting) (n : Nat), 0 < n → ∃ most grants, 0 < most ∧ most ≤ n ∧
      Granting.read s (some n) = (s.bytes.take most, ⟨s.bytes.drop most, grants⟩) := by
    intro s n hn
    match hs : s.grants with
    | [] => exact ⟨n, [], hn, Nat.le_refl n, by simp [Granting.read, hs]⟩
    | g :: grants => exact ⟨min n (max g 1), grants, by omega, by omega, by simp [Granting.read, hs]⟩
  refine ⟨fun s => ⟨rfl, rfl⟩, fun s n hn => ?_, fun s n hn => ?_, fun s n hn hempty => ?_⟩
  all_goals obtain ⟨most, grants, hpos, hle, hread⟩ := hsome s n hn
  · rw [hread]
    exact (List.take_append_drop most s.bytes).symm
  · rw [hread]
    exact Nat.le_trans (List.length_take_le most s.bytes) hle
  · rw [hread, List.take_eq_nil_iff] at hempty
    exact hempty.resolve_left (Nat.ne_of_gt hpos)

theorem run_eq_runPlain_granting :
    run Granting.read 0 ⟨[1], ⟨[2, 3, 4, 5], [1, 1]⟩⟩
      [.peek (some 3), .read (some 2), .peek none, .read (some (-1)), .read (some 7)] =
      [[1, 2, 3], [1, 2], [3, 4, 5], [3, 4, 5], []] := by
  rw [run_eq_runPlain gives_granting]
  rfl

end MetricCapture.Lookahead
