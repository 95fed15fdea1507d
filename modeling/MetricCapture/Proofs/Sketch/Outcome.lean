import MetricCapture.Sketch.Outcome
/-! Outcomes of several changes: one after the other, up to the first that breaks off. -/
namespace MetricCapture.Outcome

variable {ε α β ι κ : Type}

@[simp] theorem andThen_ok (v : α) (change : α → Outcome ε α) :
    andThen ⟨v, none⟩ change = change v := rfl

/-- A change that is made whole or not at all leaves what was before, or what has become of it. -/
theorem ofExcept_induction {motive : α → Prop} {before : α} {e : Except ε α} (hbefore : motive before)
    (hok : ∀ after, e = .ok after → motive after) : motive (ofExcept before e).value := by
  cases e with
  | ok after => exact hok after rfl
  | error _ => exact hbefore

theorem andThen_assoc (o : Outcome ε α) (f g : α → Outcome ε α) :
    (o.andThen f).andThen g = o.andThen fun v => (f v).andThen g := by
  obtain ⟨v, e⟩ := o
  cases e with
  | none => rfl
  | some e => rfl

theorem andThen_of_none {o : Outcome ε α} (h : o.error = none) (f : α → Outcome ε α) :
    o.andThen f = f o.value := by
  unfold andThen
  rw [h]

/-- Two changes are made whole if each of them is. -/
theorem error_andThen (o : Outcome ε α) (f : α → Outcome ε α) :
    (o.andThen f).error = none ↔ o.error = none ∧ (f o.value).error = none := by
  obtain ⟨v, e⟩ := o
  cases e with
  | none => exact (and_iff_right rfl).symm
  | some e =>
    constructor
    · intro h
      cases h
    · rintro ⟨h, _⟩
      cases h

/-- Changes that follow a first one are made of what that has left. -/
theorem foldl_andThen (changes : ι → α → Outcome ε α) (o : Outcome ε α) (items : List ι) :
    items.foldl (fun o i => o.andThen (changes i)) o =
      o.andThen fun v => items.foldl (fun o i => o.andThen (changes i)) ⟨v, none⟩ := by
  induction items generalizing o with
  | nil =>
    obtain ⟨v, e⟩ := o
    cases e with
    | none => rfl
    | some e => rfl
  | cons i items ih =>
    rw [List.foldl_cons, ih, andThen_assoc]
    congr 1
    funext v
    rw [List.foldl_cons, andThen_ok, ih]

theorem each_cons (change : α → ι → Outcome ε α) (v : α) (i : ι) (items : List ι) :
    each change v (i :: items) = (change v i).andThen fun v => each change v items :=
  foldl_andThen (fun i v => change v i) (change v i) items

theorem each_concat (change : α → ι → Outcome ε α) (v : α) (items : List ι) (i : ι) :
    each change v (items ++ [i]) = (each change v items).andThen (change · i) :=
  List.foldl_append

theorem each_map (change : α → κ → Outcome ε α) (f : ι → κ) (v : α) (items : List ι) :
    each change v (items.map f) = each (fun v i => change v (f i)) v items :=
  List.foldl_map

theorem sequence_cons (v : α) (c : α → Outcome ε α) (cs : List (α → Outcome ε α)) :
    sequence v (c :: cs) = (c v).andThen fun v => sequence v cs :=
  foldl_andThen (fun c => c) (c v) cs

theorem sequence_append (v : α) (cs ds : List (α → Outcome ε α)) :
    sequence v (cs ++ ds) = (sequence v cs).andThen fun v => sequence v ds := by
  unfold sequence
  rw [List.foldl_append]
  exact foldl_andThen (fun c => c) _ ds

/-- A change that is broken off is all that is left of two, and else the second one is made as well. -/
theorem andThen_cases (o : Outcome ε α) (f : α → Outcome ε α) :
    (o.error ≠ none ∧ o.andThen f = o) ∨ (o.error = none ∧ o.andThen f = f o.value) := by
  obtain ⟨v, e⟩ := o
  cases e with
  | none => exact .inr ⟨rfl, rfl⟩
  | some e => exact .inl ⟨nofun, rfl⟩

/-- What holds after a change and after any that follows it holds after both, broken off or not. -/
theorem andThen_induction {motive : α → Prop} {o : Outcome ε α} {f : α → Outcome ε α}
    (ho : motive o.value) (hf : ∀ v, motive v → motive (f v).value) :
    motive (o.andThen f).value := by
  rcases andThen_cases o f with ⟨_, he⟩ | ⟨_, he⟩
  · rw [he]
    exact ho
  · rw [he]
    exact hf _ ho

/-- What each change leaves true, all of them leave true, broken off or not. -/
theorem sequence_induction {motive : α → Prop} {cs : List (α → Outcome ε α)}
    (h : ∀ c ∈ cs, ∀ v, motive v → motive (c v).value) {v : α} (hv : motive v) :
    motive (sequence v cs).value := by
  induction cs generalizing v with
  | nil => exact hv
  | cons c cs ih =>
    obtain ⟨hc, hcs⟩ := List.forall_mem_cons.mp h
    rw [sequence_cons]
    exact andThen_induction (hc v hv) fun u hu => ih hcs hu

/-- What each change keeps, all of them keep, broken off or not. -/
theorem sequence_keeps {f : α → β} {cs : List (α → Outcome ε α)}
    (h : ∀ c ∈ cs, ∀ v, f (c v).value = f v) (v : α) : f (sequence v cs).value = f v :=
  sequence_induction (fun c hc u hu => (h c hc u).trans hu) rfl

end MetricCapture.Outcome
