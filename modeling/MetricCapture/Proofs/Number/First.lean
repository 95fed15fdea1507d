import MetricCapture.Proofs.Number.Order
/-! The least and the greatest of some doubles. Which of two that are equal is kept depends on their
order, so that such ends are the same up to the sign of zero. -/
namespace MetricCapture.Number

def Alike (a b : Float) : Prop := a = b ∨ (a == b) = true

structure Direction (before : Float → Float → Prop) (limit : Float) (rank : Float → Int) : Prop where
  before_iff : ∀ a b, before a b ↔ IsNumber a ∧ IsNumber b ∧ rank a < rank b
  isNumber : IsNumber limit
  lt_limit : ∀ a, IsFinite a → rank a < rank limit
  order_eq : ∀ a b, rank a = rank b → order a = order b

theorem upward : Direction (· < ·) (1.0 / 0.0) order := by
  have hnum : IsNumber (1.0 / 0.0) := by
    unfold IsNumber
    decide
  have horder : order (1.0 / 0.0) = endless := by decide
  refine ⟨lt_iff, hnum, fun a ha => ?_, fun _ _ h => h⟩
  rw [horder]
  exact ha.order_lt.2

theorem downward : Direction (fun a b => b < a) (-1.0 / 0.0) (fun a => -order a) := by
  have hnum : IsNumber (-1.0 / 0.0) := by
    unfold IsNumber
    decide
  have horder : order (-1.0 / 0.0) = -endless := by decide
  refine ⟨fun a b => ?_, hnum, fun a ha => ?_, fun _ _ h => Int.neg_inj.mp h⟩
  · rw [lt_iff, and_left_comm, Int.neg_lt_neg_iff]
  · rw [horder]
    have hlt := ha.order_lt
    omega

/-- The value that comes before all others in some direction, and without any values the end of
that direction. -/
def IsFirst (before : Float → Float → Prop) (limit : Float) (xs : List Float) (a : Float) : Prop :=
  (xs = [] ∧ a = limit) ∨ (a ∈ xs ∧ ∀ x ∈ xs, ¬ before x a)

variable {before : Float → Float → Prop} {limit : Float} {rank : Float → Int} {xs ys : List Float}
  {a b : Float}

theorem IsFirst.isNumber (hd : Direction before limit rank) (hx : ∀ x ∈ xs, IsFinite x)
    (h : IsFirst before limit xs a) : IsNumber a := by
  rcases h with ⟨_, rfl⟩ | ⟨hm, _⟩
  · exact hd.isNumber
  · exact (hx a hm).isNumber

theorem IsFirst.rank_le (hd : Direction before limit rank) (hx : ∀ x ∈ xs, IsFinite x)
    (h : IsFirst before limit xs a) : ∀ x ∈ xs, rank a ≤ rank x := by
  intro x hm
  have hnum := h.isNumber hd hx
  rcases h with ⟨rfl, _⟩ | ⟨_, hall⟩
  · exact absurd hm List.not_mem_nil
  · exact Int.not_lt.mp fun hlt => hall x hm ((hd.before_iff x a).mpr ⟨(hx x hm).isNumber, hnum, hlt⟩)

theorem IsFirst.rank_le_limit (hd : Direction before limit rank) (hx : ∀ x ∈ xs, IsFinite x)
    (h : IsFirst before limit xs a) : rank a ≤ rank limit := by
  rcases h with ⟨_, rfl⟩ | ⟨hm, _⟩
  · exact Int.le_refl _
  · exact Int.le_of_lt (hd.lt_limit a (hx a hm))

/-- The first of two lists is the one that comes before the other. -/
theorem IsFirst.append [∀ a b, Decidable (before a b)] (hd : Direction before limit rank)
    (hx : ∀ x ∈ xs, IsFinite x) (hy : ∀ y ∈ ys, IsFinite y) (ha : IsFirst before limit xs a)
    (hb : IsFirst before limit ys b) :
    IsFirst before limit (xs ++ ys) (if before b a then b else a) := by
  have hna := ha.isNumber hd hx
  have hnb := hb.isNumber hd hy
  have hla := ha.rank_le hd hx
  have hlb := hb.rank_le hd hy
  have hiff := hd.before_iff b a
  by_cases hlt : before b a
  · rw [if_pos hlt]
    have hrank := (hiff.mp hlt).2.2
    rcases hb with ⟨rfl, rfl⟩ | ⟨hm, hall⟩
    · have hle := ha.rank_le_limit hd hx
      omega
    · refine .inr ⟨List.mem_append_right xs hm, fun z hz => ?_⟩
      rcases List.mem_append.mp hz with hz | hz
      · rw [hd.before_iff]
        have hle := hla z hz
        omega
      · exact hall z hz
  · rw [if_neg hlt]
    have hrank : rank a ≤ rank b := Int.not_lt.mp fun h => hlt (hiff.mpr ⟨hnb, hna, h⟩)
    rcases ha with ⟨rfl, rfl⟩ | ⟨hm, hall⟩
    · rcases hb with ⟨rfl, rfl⟩ | ⟨hm, _⟩
      · exact .inl ⟨rfl, rfl⟩
      · have hle := hd.lt_limit b (hy b hm)
        omega
    · refine .inr ⟨List.mem_append_left ys hm, fun z hz => ?_⟩
      rcases List.mem_append.mp hz with hz | hz
      · exact hall z hz
      · rw [hd.before_iff]
        have hle := hlb z hz
        omega

theorem IsFirst.perm (h : IsFirst before limit xs a) (hp : xs.Perm ys) :
    IsFirst before limit ys a := by
  rcases h with ⟨rfl, rfl⟩ | ⟨hm, hall⟩
  · exact .inl ⟨List.nil_perm.mp hp, rfl⟩
  · exact .inr ⟨hp.mem_iff.mp hm, fun x hx => hall x (hp.mem_iff.mpr hx)⟩

theorem IsFirst.singleton (hd : Direction before limit rank) (x : Float) :
    IsFirst before limit [x] x := by
  refine .inr ⟨List.mem_singleton_self x, fun y hy => ?_⟩
  rw [List.mem_singleton.mp hy, hd.before_iff]
  omega

/-- There is only one first value, up to the sign of zero. -/
theorem IsFirst.alike (hd : Direction before limit rank) (hx : ∀ x ∈ xs, IsFinite x)
    (ha : IsFirst before limit xs a) (hb : IsFirst before limit xs b) : Alike a b := by
  have hna := ha.isNumber hd hx
  have hnb := hb.isNumber hd hx
  have hla := ha.rank_le hd hx
  have hlb := hb.rank_le hd hx
  rcases ha with ⟨rfl, rfl⟩ | ⟨hma, _⟩
  · rcases hb with ⟨_, rfl⟩ | ⟨hmb, _⟩
    · exact .inl rfl
    · exact absurd hmb List.not_mem_nil
  · rcases hb with ⟨rfl, _⟩ | ⟨hmb, _⟩
    · exact absurd hma List.not_mem_nil
    · have hle := hla b hmb
      have hge := hlb a hma
      exact .inr ((beq_iff a b).mpr ⟨hna, hnb, hd.order_eq a b (Int.le_antisymm hle hge)⟩)

end MetricCapture.Number
