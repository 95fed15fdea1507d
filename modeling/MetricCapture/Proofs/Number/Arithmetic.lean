import MetricCapture.Proofs.Number.Order
/-! Arithmetic on doubles by their words, and when its outcome is a number. -/
namespace MetricCapture.Number

open Float.Model
open Float.Model.UnpackedFloat (Sign)

theorem add_def (x y : Float) :
    x + y = packed (.add Format.binary64 (unpacked (sign x) (magnitude x))
      (unpacked (sign y) (magnitude y))) := by
  rw [← toModel_unpack, ← toModel_unpack]
  rfl

theorem sub_def (x y : Float) :
    x - y = packed (.sub Format.binary64 (unpacked (sign x) (magnitude x))
      (unpacked (sign y) (magnitude y))) := by
  rw [← toModel_unpack, ← toModel_unpack]
  rfl

theorem mul_def (x y : Float) :
    x * y = packed (.mul Format.binary64 (unpacked (sign x) (magnitude x))
      (unpacked (sign y) (magnitude y))) := by
  rw [← toModel_unpack, ← toModel_unpack]
  rfl

theorem div_def (x y : Float) :
    x / y = packed (.div Format.binary64 (unpacked (sign x) (magnitude x))
      (unpacked (sign y) (magnitude y))) := by
  rw [← toModel_unpack, ← toModel_unpack]
  rfl

private theorem dite_ne {α : Type} {p : Prop} [Decidable p] {a : p → α} {b : ¬ p → α} {c : α}
    (ha : ∀ h, a h ≠ c) (hb : ∀ h, b h ≠ c) : dite p a b ≠ c := by
  by_cases h : p
  · rw [dif_pos h]
    exact ha h
  · rw [dif_neg h]
    exact hb h

private theorem roundWithAccuracy_ne (s : Sign) (m : Nat) (e : Int)
    (a : UnpackedFloat.Accuracy) :
    UnpackedFloat.roundWithAccuracy Format.binary64 s m e a ≠ .notANumber := by
  unfold UnpackedFloat.roundWithAccuracy
  apply dite_ne
  · intro _ h
    cases h
  · intro _ h
    cases h

private theorem normalize_ne (m : Int) (e : Int) (s : Sign) :
    UnpackedFloat.normalize Format.binary64 m e s ≠ .notANumber := by
  unfold UnpackedFloat.normalize UnpackedFloat.round
  dsimp only
  split
  · exact roundWithAccuracy_ne _ _ _ _
  · intro h
    cases h
  · exact roundWithAccuracy_ne _ _ _ _

/-- The product of finite doubles is a number. -/
theorem isNumber_mul {x y : Float} (hx : IsFinite x) (hy : IsFinite y) : IsNumber (x * y) := by
  rw [mul_def]
  apply magnitude_packed_le
  rcases unpacked_cases (sign x) hx.isNumber with ⟨he, _⟩ | ⟨_, hu⟩ | ⟨_, _, hm, hu⟩
  · exact absurd he (Nat.ne_of_lt hx)
  all_goals
    rcases unpacked_cases (sign y) hy.isNumber with ⟨he, _⟩ | ⟨_, hu'⟩ | ⟨_, _, hm', hu'⟩
    · exact absurd he (Nat.ne_of_lt hy)
    all_goals
      rw [hu, hu']
      first
      | exact roundWithAccuracy_ne _ _ _ _
      | exact fun h => UnpackedFloat.noConfusion h

/-- A number divided by a finite one other than zero is a number. -/
theorem isNumber_div {x y : Float} (hx : IsNumber x) (hy : IsFinite y) (hne : magnitude y ≠ 0) :
    IsNumber (x / y) := by
  rw [div_def, unpacked_finite _ hy hne]
  apply magnitude_packed_le
  rcases unpacked_cases (sign x) hx with ⟨_, hu⟩ | ⟨_, hu⟩ | ⟨_, _, hm, hu⟩
  all_goals
    rw [hu]
    first
    | exact roundWithAccuracy_ne _ _ _ _
    | exact fun h => UnpackedFloat.noConfusion h

/-- A finite double and a number have a sum. -/
theorem isNumber_add {x y : Float} (hx : IsFinite x) (hy : IsNumber y) : IsNumber (x + y) := by
  rw [add_def]
  apply magnitude_packed_le
  rcases unpacked_cases (sign x) hx.isNumber with ⟨he, _⟩ | ⟨_, hu⟩ | ⟨_, _, hm, hu⟩
  · exact absurd he (Nat.ne_of_lt hx)
  all_goals
    rcases unpacked_cases (sign y) hy with ⟨_, hu'⟩ | ⟨_, hu'⟩ | ⟨_, _, hm', hu'⟩
    all_goals
      rw [hu, hu']
      first
      | exact normalize_ne _ _ _
      | exact fun h => UnpackedFloat.noConfusion h
      | cases sign x <;> cases sign y <;> exact fun h => UnpackedFloat.noConfusion h

/-- What is no number stays none. -/
theorem not_isNumber_sub {x : Float} (h : ¬ IsNumber x) (y : Float) : ¬ IsNumber (x - y) := by
  rw [sub_def, unpacked_notANumber _ (Nat.not_le.mp h)]
  exact Nat.not_le.mpr magnitude_packed_notANumber

end MetricCapture.Number
