import Mathlib.Data.List.Forall2
/-! Attempts: when one that is made of others succeeds, and where it breaks off. -/
namespace MetricCapture

variable {ε α β : Type}

theorem bind_eq_ok_iff {x : Except ε α} {f : α → Except ε β} {b : β} :
    x >>= f = .ok b ↔ ∃ a, x = .ok a ∧ f a = .ok b := by
  cases x with
  | error e => simp [bind, Except.bind]
  | ok a => simp [bind, Except.bind]

theorem bind_eq_error_iff {x : Except ε α} {f : α → Except ε β} {e : ε} :
    x >>= f = .error e ↔ x = .error e ∨ ∃ a, x = .ok a ∧ f a = .error e := by
  cases x with
  | error e => simp [bind, Except.bind]
  | ok a => simp [bind, Except.bind]

/-- A run of steps breaks off at the first of them that does. -/
theorem foldlM_eq_error_iff {f : β → α → Except ε β} {b : β} {xs : List α} {e : ε} :
    xs.foldlM f b = .error e ↔
      ∃ before x after b', xs = before ++ x :: after ∧ before.foldlM f b = .ok b' ∧
        f b' x = .error e := by
  induction xs generalizing b with
  | nil => simp [pure, Except.pure]
  | cons x xs ih =>
    rw [List.foldlM_cons, bind_eq_error_iff]
    constructor
    · rintro (h | ⟨b', hb, h⟩)
      · exact ⟨[], x, xs, b, rfl, rfl, h⟩
      · obtain ⟨before, y, after, b'', rfl, hbefore, hy⟩ := ih.mp h
        refine ⟨x :: before, y, after, b'', rfl, ?_, hy⟩
        rw [List.foldlM_cons]
        exact bind_eq_ok_iff.mpr ⟨b', hb, hbefore⟩
    · rintro ⟨before, y, after, b', hxs, hbefore, hy⟩
      cases before with
      | nil =>
        obtain ⟨rfl, rfl⟩ := List.cons.inj hxs
        cases hbefore
        exact .inl hy
      | cons z before =>
        obtain ⟨rfl, rfl⟩ := List.cons.inj hxs
        rw [List.foldlM_cons] at hbefore
        obtain ⟨b'', hb, hbefore⟩ := bind_eq_ok_iff.mp hbefore
        exact .inr ⟨b'', hb, ih.mpr ⟨before, y, after, b', rfl, hbefore, hy⟩⟩

/-- What every step keeps, a run of steps keeps. -/
theorem foldlM_induction {P : β → Prop} {f : β → α → Except ε β} {xs : List α} {b b' : β}
    (h : ∀ x ∈ xs, ∀ c c', P c → f c x = .ok c' → P c') (hb : P b) (hok : xs.foldlM f b = .ok b') :
    P b' := by
  induction xs generalizing b with
  | nil =>
    cases hok
    exact hb
  | cons x xs ih =>
    rw [List.foldlM_cons] at hok
    obtain ⟨c, hc, hrest⟩ := bind_eq_ok_iff.mp hok
    exact ih (fun y hy => h y (List.mem_cons_of_mem x hy)) (h x List.mem_cons_self b c hb hc) hrest

/-- A run of steps, each of which puts what it is told into a free place, goes through when each step
is told something and no two of them the same place. -/
theorem foldlM_put_eq_ok_iff {ρ κ : Type} {add : β → α → Except ε β} {tells : α → ρ → Prop}
    {place : ρ → κ} {put : β → ρ → β} (filled : β → ρ → Prop)
    (hadd : ∀ b a b', add b a = .ok b' ↔ ∃ r, tells a r ∧ ¬ filled b r ∧ b' = put b r)
    (hput : ∀ b r r', filled (put b r) r' ↔ place r = place r' ∨ filled b r') {b b' : β} {xs : List α} :
    xs.foldlM add b = .ok b' ↔
      ∃ rs, List.Forall₂ tells xs rs ∧ (rs.map place).Nodup ∧ (∀ r ∈ rs, ¬ filled b r) ∧
        b' = rs.foldl put b := by
  induction xs generalizing b with
  | nil =>
    rw [List.foldlM_nil]
    constructor
    · intro h
      cases h
      exact ⟨[], .nil, .nil, nofun, rfl⟩
    · rintro ⟨rs, hrs, _, _, rfl⟩
      cases hrs
      rfl
  | cons x xs ih =>
    rw [List.foldlM_cons, bind_eq_ok_iff]
    constructor
    · rintro ⟨c, hc, h⟩
      obtain ⟨r, hr, hfree, rfl⟩ := (hadd _ _ _).mp hc
      obtain ⟨rs, hrs, once, free, rfl⟩ := ih.mp h
      simp only [hput, not_or] at free
      refine ⟨r :: rs, .cons hr hrs, List.nodup_cons.mpr ⟨?_, once⟩, ?_, rfl⟩
      · intro hmem
        obtain ⟨r', hr', hplace⟩ := List.mem_map.mp hmem
        exact (free r' hr').1 hplace.symm
      · exact List.forall_mem_cons.mpr ⟨hfree, fun r' hr' => (free r' hr').2⟩
    · rintro ⟨rs, hrs, once, free, rfl⟩
      cases hrs with
      | cons hr hrs =>
        rename_i r rs
        obtain ⟨hplace, once⟩ := List.nodup_cons.mp once
        obtain ⟨hfree, free⟩ := List.forall_mem_cons.mp free
        refine ⟨put b r, (hadd _ _ _).mpr ⟨r, hr, hfree, rfl⟩,
          ih.mpr ⟨rs, hrs, once, fun r' hr' => ?_, rfl⟩⟩
        rw [hput, not_or]
        exact ⟨fun h => hplace (h ▸ List.mem_map_of_mem hr'), free r' hr'⟩

/-- A run of attempts succeeds when each of them does. -/
theorem mapM_eq_ok_iff {f : α → Except ε β} {xs : List α} {ys : List β} :
    xs.mapM f = .ok ys ↔ List.Forall₂ (fun x y => f x = .ok y) xs ys := by
  induction xs generalizing ys with
  | nil =>
    rw [List.mapM_nil, List.forall₂_nil_left_iff]
    exact ⟨fun h => (Except.ok.inj h).symm, fun h => h ▸ rfl⟩
  | cons x xs ih =>
    rw [List.mapM_cons, List.forall₂_cons_left_iff]
    constructor
    · intro h
      obtain ⟨y, hy, h⟩ := bind_eq_ok_iff.mp h
      obtain ⟨zs, hzs, h⟩ := bind_eq_ok_iff.mp h
      exact ⟨y, zs, hy, ih.mp hzs, (Except.ok.inj h).symm⟩
    · rintro ⟨y, zs, hy, hzs, rfl⟩
      exact bind_eq_ok_iff.mpr ⟨y, hy, bind_eq_ok_iff.mpr ⟨zs, ih.mpr hzs, rfl⟩⟩

/-- A run of attempts breaks off at the first of them that does. -/
theorem mapM_eq_error_iff {f : α → Except ε β} {xs : List α} {e : ε} :
    xs.mapM f = .error e ↔
      ∃ before x after, xs = before ++ x :: after ∧ (∃ ys, before.mapM f = .ok ys) ∧ f x = .error e := by
  induction xs with
  | nil => simp [pure, Except.pure]
  | cons x xs ih =>
    rw [List.mapM_cons, bind_eq_error_iff]
    constructor
    · rintro (h | ⟨y, hy, h⟩)
      · exact ⟨[], x, xs, rfl, ⟨[], rfl⟩, h⟩
      · rcases bind_eq_error_iff.mp h with h | ⟨zs, _, h⟩
        · obtain ⟨before, z, after, rfl, ⟨ys, hbefore⟩, hz⟩ := ih.mp h
          refine ⟨x :: before, z, after, rfl, ⟨y :: ys, ?_⟩, hz⟩
          exact mapM_eq_ok_iff.mpr (.cons hy (mapM_eq_ok_iff.mp hbefore))
        · cases h
    · rintro ⟨before, z, after, hxs, ⟨ys, hbefore⟩, hz⟩
      cases before with
      | nil =>
        obtain ⟨rfl, rfl⟩ := List.cons.inj hxs
        exact .inl hz
      | cons w before =>
        obtain ⟨rfl, rfl⟩ := List.cons.inj hxs
        obtain ⟨y, zs, hy, hzs, rfl⟩ := List.forall₂_cons_left_iff.mp (mapM_eq_ok_iff.mp hbefore)
        exact .inr ⟨y, hy, bind_eq_error_iff.mpr
          (.inl (ih.mpr ⟨before, z, after, rfl, ⟨zs, mapM_eq_ok_iff.mpr hzs⟩, hz⟩))⟩

theorem exists_of_mem_forall₂ {R : α → β → Prop} {xs : List α} {ys : List β}
    (h : List.Forall₂ R xs ys) {y : β} (hy : y ∈ ys) : ∃ x ∈ xs, R x y := by
  induction h with
  | nil => exact absurd hy List.not_mem_nil
  | @cons x z xs ys hx _ ih =>
    rcases List.mem_cons.mp hy with rfl | hy
    · exact ⟨x, List.mem_cons_self, hx⟩
    · obtain ⟨x', hx', hr⟩ := ih hy
      exact ⟨x', List.mem_cons_of_mem x hx', hr⟩

/-- What a run of attempts gives comes from one of them. -/
theorem exists_of_mem_mapM {f : α → Except ε β} {xs : List α} {ys : List β}
    (h : xs.mapM f = .ok ys) {y : β} (hy : y ∈ ys) : ∃ x ∈ xs, f x = .ok y :=
  exists_of_mem_forall₂ (mapM_eq_ok_iff.mp h) hy

/-- A run of steps succeeds when each step can be made, if that does not depend on the steps before. -/
theorem exists_foldlM_iff {f : β → α → Except ε β} {P : α → Prop}
    (h : ∀ b a, (∃ b', f b a = .ok b') ↔ P a) (xs : List α) (b : β) :
    (∃ b', xs.foldlM f b = .ok b') ↔ ∀ x ∈ xs, P x := by
  induction xs generalizing b with
  | nil => exact iff_of_true ⟨b, rfl⟩ nofun
  | cons x xs ih =>
    rw [List.forall_mem_cons, List.foldlM_cons, ← h b x]
    constructor
    · rintro ⟨b', hb'⟩
      obtain ⟨c, hc, hrest⟩ := bind_eq_ok_iff.mp hb'
      exact ⟨⟨c, hc⟩, (ih c).mp ⟨b', hrest⟩⟩
    · rintro ⟨⟨c, hc⟩, hrest⟩
      obtain ⟨b', hb'⟩ := (ih c).mpr hrest
      exact ⟨b', bind_eq_ok_iff.mpr ⟨c, hc, hb'⟩⟩

theorem exists_mapM_iff {f : α → Except ε β} {xs : List α} :
    (∃ ys, xs.mapM f = .ok ys) ↔ ∀ x ∈ xs, ∃ y, f x = .ok y := by
  simp only [mapM_eq_ok_iff]
  induction xs with
  | nil => exact iff_of_true ⟨[], .nil⟩ nofun
  | cons x xs ih =>
    rw [List.forall_mem_cons, ← ih]
    constructor
    · rintro ⟨ys, hys⟩
      cases hys with
      | cons hx hrest => exact ⟨⟨_, hx⟩, _, hrest⟩
    · rintro ⟨⟨y, hx⟩, ys, hrest⟩
      exact ⟨y :: ys, .cons hx hrest⟩

def BreaksWith (P : ε → Prop) (x : Except ε α) : Prop :=
  ∀ e, x = .error e → P e

section

variable {P : ε → Prop}

theorem breaksWith_ok (a : α) : BreaksWith P (.ok a : Except ε α) :=
  fun _ h => nomatch h

theorem breaksWith_error {e : ε} (h : P e) : BreaksWith P (.error e : Except ε α) := by
  intro e' he
  cases he
  exact h

theorem BreaksWith.bind {x : Except ε α} {f : α → Except ε β} (hx : BreaksWith P x)
    (hf : ∀ a, BreaksWith P (f a)) : BreaksWith P (x >>= f) := by
  intro e he
  rcases bind_eq_error_iff.mp he with h | ⟨a, _, h⟩
  · exact hx e h
  · exact hf a e h

theorem BreaksWith.map {x : Except ε α} (hx : BreaksWith P x) (f : α → β) :
    BreaksWith P (x.map f) := by
  intro e he
  cases x with
  | error e' =>
    cases he
    exact hx e rfl
  | ok a => cases he

theorem BreaksWith.ite {c : Prop} [Decidable c] {x y : Except ε α} (hx : BreaksWith P x)
    (hy : BreaksWith P y) : BreaksWith P (if c then x else y) := by
  split
  · exact hx
  · exact hy

theorem breaksWith_foldlM {f : β → α → Except ε β} (h : ∀ b a, BreaksWith P (f b a))
    (xs : List α) (b : β) : BreaksWith P (xs.foldlM f b) := by
  intro e he
  obtain ⟨_, x, _, b', _, _, hx⟩ := foldlM_eq_error_iff.mp he
  exact h b' x e hx

theorem breaksWith_mapM {f : α → Except ε β} (h : ∀ a, BreaksWith P (f a)) (xs : List α) :
    BreaksWith P (xs.mapM f) := by
  induction xs with
  | nil => exact breaksWith_ok []
  | cons x xs ih =>
    rw [List.mapM_cons]
    exact (h x).bind fun _ => ih.bind fun _ => breaksWith_ok _

end

end MetricCapture
