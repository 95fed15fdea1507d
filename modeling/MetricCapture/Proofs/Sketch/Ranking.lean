import Mathlib.Algebra.Order.Group.Unbundled.Int
import MetricCapture.Proofs.Sketch.Order
import MetricCapture.Proofs.Sketch.Run
/-! Quantiles of sketches. A quantile is the representative of the bin that holds the value of its rank, brought
between the least and the greatest value. It is close to that value if the representative is, and larger
quantiles are not less. -/
namespace MetricCapture.Sketch

open MetricCapture.Number

def clamp (s : Sketch) (v : Float) : Float :=
  let raised := if v < s.least then s.least else v
  if s.greatest < raised then s.greatest else raised

/-- An estimate that is no further from a value than some part of it, where all are taken as exact numbers. -/
structure Close (accuracy estimate x : Float) : Prop where
  isFinite : IsFinite estimate
  distance_le : |value estimate - value x| * unitsOfOne ≤ value accuracy * |value x|

namespace Mapping

variable (m : Mapping) (accuracy : Float) (limit : Nat) (xs : List Float)

def KeysAscend : Prop :=
  ∀ x ∈ xs, ∀ y ∈ xs, ∀ a ∈ [x, -x], ∀ b ∈ [y, -y], m.smallest < a → a ≤ b →
    ∀ j k, m.key a = .ok j → m.key b = .ok k → j ≤ k

/-- The representatives of the bins of some values ascend with their keys, and are not below zero. -/
def ValuesAscend : Prop :=
  ∀ x ∈ xs, ∀ y ∈ xs, ∀ j ∈ (m.collapse limit xs (m.bin x)).key?,
    ∀ k ∈ (m.collapse limit xs (m.bin y)).key?, j ≤ k →
      ∀ v w, m.value j = .ok v → m.value k = .ok w → 0.0 ≤ v ∧ v ≤ w

def Accurate : Prop :=
  ∀ x ∈ xs, m.bin x ≠ .zero → ∀ v, m.represent (m.bin x) = .ok v → Close accuracy v x

end Mapping

section

variable (m : Mapping) (accuracy : Float) (limit : Nat) (xs : List Float) (s : Sketch)

/-- A quantile is told by a value: it is the representative of the bin that the value is in at last, brought
between the ends. So it is close to the value if the value has a key and its bin has not become another one. -/
structure ToldBy (q x : Float) : Prop where
  eq : s.quantile q = (m.represent (m.collapse limit xs (m.bin x))).map fun v => some (s.clamp v)
  close : m.Accurate accuracy xs → m.bin x ≠ .zero → m.collapse limit xs (m.bin x) = m.bin x →
    ∀ v, s.quantile q = .ok (some v) → Close accuracy v x

/-- A sketch tells the quantiles of some values. The first and the last one are the ends. Any other is told by
the value at the place of its rank among all values in ascending order. Larger quantiles are not less. -/
structure Ranks : Prop where
  least : IsFirst (· < ·) (1.0 / 0.0) xs s.least
  greatest : IsFirst (fun a b => b < a) (-1.0 / 0.0) xs s.greatest
  ends : s.quantile 0.0 = .ok (some s.least) ∧ s.quantile 1.0 = .ok (some s.greatest)
  ascending : m.KeysAscend xs → ∀ ys, ys.Perm xs → ys.Pairwise (· ≤ ·) → m.Ascending xs ys
  told : ∀ q, 0.0 < q → q < 1.0 → ∃ k < xs.length, IsFloor (q * Float.ofNat (xs.length - 1)) k ∧
    ∀ ys, m.Ascending xs ys → ∃ x,
      ys[placeOf (xs.filterMap m.negativeKey?).length (q * Float.ofNat (xs.length - 1)) k]? = some x ∧
      ToldBy m accuracy limit xs s q x
  monotone : m.ValuesAscend limit xs → ∀ q q', 0.0 ≤ q → q ≤ q' → q' ≤ 1.0 →
    ∀ v v', s.quantile q = .ok (some v) → s.quantile q' = .ok (some v') → v ≤ v'

end

section

variable {s : Sketch} (hl : IsNumber s.least) (hg : IsNumber s.greatest)
  (hle : order s.least ≤ order s.greatest)

include hl hg hle

/-- What is brought between the ends stays where it is, or is moved to the end that it is beyond. -/
theorem clamp_cases {v : Float} (hv : IsNumber v) :
    (order v < order s.least ∧ s.clamp v = s.least) ∨
    (order s.greatest < order v ∧ s.clamp v = s.greatest) ∨
    (order s.least ≤ order v ∧ order v ≤ order s.greatest ∧ s.clamp v = v) := by
  unfold clamp
  dsimp only
  by_cases hlow : v < s.least
  · have hhigh : ¬ s.greatest < s.least := fun h => by
      have hlt := ((lt_iff _ _).mp h).2.2
      omega
    rw [if_pos hlow, if_neg hhigh]
    exact .inl ⟨((lt_iff _ _).mp hlow).2.2, rfl⟩
  · have hge : order s.least ≤ order v := Int.not_lt.mp fun hlt =>
      hlow ((lt_iff _ _).mpr ⟨hv, hl, hlt⟩)
    rw [if_neg hlow]
    by_cases hhigh : s.greatest < v
    · rw [if_pos hhigh]
      exact .inr (.inl ⟨((lt_iff _ _).mp hhigh).2.2, rfl⟩)
    · rw [if_neg hhigh]
      exact .inr (.inr ⟨hge, Int.not_lt.mp fun hlt => hhigh ((lt_iff _ _).mpr ⟨hg, hv, hlt⟩), rfl⟩)

/-- What is brought between the ends is between them. -/
theorem clamp_bounds {v : Float} (hv : IsNumber v) : s.least ≤ s.clamp v ∧ s.clamp v ≤ s.greatest := by
  rcases clamp_cases hl hg hle hv with ⟨_, h⟩ | ⟨_, h⟩ | ⟨hge, hle', h⟩
  · rw [h]
    exact ⟨le_self hl, (le_iff _ _).mpr ⟨hl, hg, hle⟩⟩
  · rw [h]
    exact ⟨(le_iff _ _).mpr ⟨hl, hg, hle⟩, le_self hg⟩
  · rw [h]
    exact ⟨(le_iff _ _).mpr ⟨hl, hv, hge⟩, (le_iff _ _).mpr ⟨hv, hg, hle'⟩⟩

/-- The order of numbers is kept between the ends. -/
theorem clamp_le_clamp {v w : Float} (h : v ≤ w) : s.clamp v ≤ s.clamp w := by
  obtain ⟨hv, hw, hvw⟩ := (le_iff _ _).mp h
  obtain ⟨hlow, hhigh⟩ := clamp_bounds hl hg hle hv
  obtain ⟨hlow', hhigh'⟩ := clamp_bounds hl hg hle hw
  rcases clamp_cases hl hg hle hv with ⟨_, hc⟩ | ⟨hlt, hc⟩ | ⟨hge, hle', hc⟩
  · rw [hc]
    exact hlow'
  · rcases clamp_cases hl hg hle hw with ⟨hlt', _⟩ | ⟨_, hc'⟩ | ⟨_, hle'', _⟩
    · omega
    · rw [hc, hc']
      exact le_self hg
    · omega
  · rcases clamp_cases hl hg hle hw with ⟨hlt', _⟩ | ⟨_, hc'⟩ | ⟨_, _, hc'⟩
    · omega
    · rw [hc']
      exact hhigh
    · rw [hc, hc']
      exact h

/-- What is close to a value between the ends is so if it is brought between them. -/
theorem Close.clamp {accuracy v x : Float} (hlf : IsFinite s.least) (hgf : IsFinite s.greatest)
    (hx : order s.least ≤ order x ∧ order x ≤ order s.greatest) (h : Close accuracy v x) :
    Close accuracy (s.clamp v) x := by
  obtain ⟨hfinite, hdistance⟩ := h
  obtain ⟨hlx, hxg⟩ := hx
  rw [← value_le_iff] at hlx hxg
  have hunits : (0 : Int) ≤ unitsOfOne := Int.natCast_nonneg _
  rcases clamp_cases hl hg hle hfinite.isNumber with ⟨hlt, hc⟩ | ⟨hlt, hc⟩ | ⟨_, _, hc⟩
  · have hvl : value v ≤ value s.least := (value_le_iff _ _).mpr (Int.le_of_lt hlt)
    rw [hc]
    refine ⟨hlf, Int.le_trans (Int.mul_le_mul_of_nonneg_right ?_ hunits) hdistance⟩
    rw [abs_of_nonpos (by omega), abs_of_nonpos (by omega)]
    omega
  · have hvg : value s.greatest ≤ value v := (value_le_iff _ _).mpr (Int.le_of_lt hlt)
    rw [hc]
    refine ⟨hgf, Int.le_trans (Int.mul_le_mul_of_nonneg_right ?_ hunits) hdistance⟩
    rw [abs_of_nonneg (by omega), abs_of_nonneg (by omega)]
    omega
  · rw [hc]
    exact ⟨hfinite, hdistance⟩

end

namespace Mapping

variable {m : Mapping} {limit : Nat} {xs : List Float}

theorem of_positiveKey? {z : Float} {k : Int} (h : m.positiveKey? z = some k) :
    m.smallest < z ∧ m.key z = .ok k := by
  unfold positiveKey? at h
  split at h
  · rename_i hlt
    refine ⟨hlt, ?_⟩
    cases hk : m.key z <;> simp_all [Except.toOption]
  · cases h

theorem of_negativeKey? {z : Float} {k : Int} (h : m.negativeKey? z = some k) :
    ¬ m.smallest < z ∧ z < -m.smallest ∧ m.key (-z) = .ok k := by
  unfold negativeKey? at h
  split at h
  · cases h
  rename_i hnot
  split at h
  · rename_i hlt
    refine ⟨hnot, hlt, ?_⟩
    cases hk : m.key (-z) <;> simp_all [Except.toOption]
  · cases h

theorem of_isZero {z : Float} (h : m.isZero z = true) : ¬ m.smallest < z ∧ ¬ z < -m.smallest := by
  simpa [isZero] using h

theorem of_represent_negative {z : Float} {k : Int} (h : m.represent (.negative k) = .ok z) :
    ∃ u, m.value k = .ok u ∧ z = -u := by
  change (m.value k).map (-·) = .ok z at h
  cases hu : m.value k with
  | error e =>
    rw [hu] at h
    cases h
  | ok u =>
    rw [hu] at h
    cases h
    exact ⟨u, rfl, rfl⟩

/-- Values that ascend are in ascending order of their bins if their keys ascend with their magnitudes. -/
theorem KeysAscend.le_bin (h : m.KeysAscend xs) (hx : ∀ x ∈ xs, m.Accepts x) {x y : Float}
    (hmx : x ∈ xs) (hmy : y ∈ xs) (hle : x ≤ y) : (m.bin x).le (m.bin y) = true := by
  unfold bin
  rcases (hx x hmx).cases with ⟨j, hp, hn, _⟩ | ⟨j, hp, hn, _⟩ | ⟨hp, hn, hz⟩ <;>
    rcases (hx y hmy).cases with ⟨k, hp', hn', _⟩ | ⟨k, hp', hn', _⟩ | ⟨hp', hn', hz'⟩ <;>
    rw [hp, hn, hp', hn'] <;> simp only [Bin.le, decide_eq_true_eq]
  · obtain ⟨hlt, hj⟩ := of_positiveKey? hp
    obtain ⟨_, hk⟩ := of_positiveKey? hp'
    exact h x hmx y hmy x (by simp) y (by simp) hlt hle j k hj hk
  · exact absurd (lt_of_lt_of_le (of_positiveKey? hp).1 hle) (of_negativeKey? hn').1
  · exact absurd (lt_of_lt_of_le (of_positiveKey? hp).1 hle) (of_isZero hz').1
  · obtain ⟨_, hlt, hj⟩ := of_negativeKey? hn
    obtain ⟨_, hlt', hk⟩ := of_negativeKey? hn'
    exact h y hmy x hmx (-y) (by simp) (-x) (by simp) (lt_neg hlt') (neg_le_neg hle) k j hk hj
  · exact absurd (Number.lt_of_le hle (of_negativeKey? hn').2.1) (of_isZero hz).2

/-- Representatives of negative bins are not above zero, and those of positive ones are not below. -/
theorem ValuesAscend.represent_sign (h : m.ValuesAscend limit xs) {x v : Float} (hx : x ∈ xs)
    (hv : m.represent (m.collapse limit xs (m.bin x)) = .ok v) :
    ((m.collapse limit xs (m.bin x)).le .zero = true → v ≤ 0.0) ∧
      (Bin.zero.le (m.collapse limit xs (m.bin x)) = true → 0.0 ≤ v) := by
  have hself := h x hx x hx
  have hzero : -0.0 ≤ 0.0 ∧ (0.0 : Float) ≤ 0.0 := by decide
  cases hb : m.collapse limit xs (m.bin x) with
  | negative k =>
    rw [hb] at hv hself
    obtain ⟨u, hu, rfl⟩ := of_represent_negative hv
    have hnonneg := (hself k rfl k rfl (Int.le_refl k) u u hu hu).1
    exact ⟨fun _ => Number.le_trans (neg_le_neg hnonneg) hzero.1, nofun⟩
  | zero =>
    rw [hb] at hv
    cases hv
    exact ⟨fun _ => hzero.2, fun _ => hzero.2⟩
  | positive k =>
    rw [hb] at hv hself
    exact ⟨nofun, fun _ => (hself k rfl k rfl (Int.le_refl k) v v hv hv).1⟩

/-- Representatives are in the order of their bins if they ascend with the keys. -/
theorem ValuesAscend.represent_le (h : m.ValuesAscend limit xs) {x y : Float} (hx : x ∈ xs) (hy : y ∈ xs)
    (hle : (m.collapse limit xs (m.bin x)).le (m.collapse limit xs (m.bin y)) = true) {v w : Float}
    (hv : m.represent (m.collapse limit xs (m.bin x)) = .ok v)
    (hw : m.represent (m.collapse limit xs (m.bin y)) = .ok w) : v ≤ w := by
  have hxy := h x hx y hy
  have hyx := h y hy x hx
  obtain ⟨hbelow, _⟩ := h.represent_sign hx hv
  obtain ⟨_, habove⟩ := h.represent_sign hy hw
  cases hbx : m.collapse limit xs (m.bin x) <;> cases hby : m.collapse limit xs (m.bin y) <;>
    rw [hbx] at hle hv hxy hyx hbelow <;> rw [hby] at hle hw hxy hyx habove
  case negative.negative j k =>
    obtain ⟨u, hu, rfl⟩ := of_represent_negative hv
    obtain ⟨u', hu', rfl⟩ := of_represent_negative hw
    exact neg_le_neg (hyx k rfl j rfl (of_decide_eq_true hle) u' u hu' hu).2
  case positive.positive j k =>
    exact (hxy j rfl k rfl (of_decide_eq_true hle) v w hv hw).2
  -- Zero lies between all others that are in order, and the rest are not.
  all_goals first
    | exact Number.le_trans (hbelow rfl) (habove rfl)
    | cases hle

end Mapping

section

variable {accuracy : Float} {limit : Nat} {s : Sketch} {xs : List Float}

/-- The first and the last quantile are the ends. -/
theorem quantile_ends (hcount : s.count ≠ 0) :
    s.quantile 0.0 = .ok (some s.least) ∧ s.quantile 1.0 = .ok (some s.greatest) := by
  constructor
  all_goals
    unfold quantile
    rw [if_neg (by decide), if_neg hcount]
    rfl

/-- A quantile is an end, or what comes of the representative of its rank. -/
theorem quantile_cases (hcount : s.count ≠ 0) {q : Float} (hq : 0.0 ≤ q ∧ q ≤ 1.0) :
    (order q = order 0.0 ∧ s.quantile q = .ok (some s.least)) ∨
    (order q = order 1.0 ∧ s.quantile q = .ok (some s.greatest)) ∨
    (0.0 < q ∧ q < 1.0 ∧ s.quantile q =
      (s.representative (q * Float.ofNat (s.count - 1))).map fun v? => v?.map s.clamp) := by
  obtain ⟨hnum, hnum', hle⟩ := (le_iff _ _).mp hq.1
  obtain ⟨_, hone, hle'⟩ := (le_iff _ _).mp hq.2
  unfold quantile
  rw [decide_eq_true hq.1, decide_eq_true hq.2, if_neg (by decide), if_neg hcount]
  by_cases hzero : (q == 0.0) = true
  · rw [if_pos hzero]
    exact .inl ⟨((beq_iff _ _).mp hzero).2.2, rfl⟩
  rw [if_neg hzero]
  by_cases hend : (q == 1.0) = true
  · rw [if_pos hend]
    exact .inr (.inl ⟨((beq_iff _ _).mp hend).2.2, rfl⟩)
  rw [if_neg hend]
  rw [beq_iff] at hzero hend
  refine .inr (.inr ⟨(lt_iff _ _).mpr ⟨hnum, hnum', ?_⟩, (lt_iff _ _).mpr ⟨hnum', hone, ?_⟩, ?_⟩)
  · exact Int.lt_iff_le_and_ne.mpr ⟨hle, fun heq => hzero ⟨hnum', hnum, heq.symm⟩⟩
  · exact Int.lt_iff_le_and_ne.mpr ⟨hle', fun heq => hend ⟨hnum', hone, heq⟩⟩
  · cases s.representative (q * Float.ofNat (s.count - 1)) <;> rfl

/-- A quantile that is told comes of a representative. -/
private theorem of_map_clamp {r : Except Failure Float} {v : Float}
    (h : .ok (some v) = r.map fun u => some (s.clamp u)) : ∃ u, r = .ok u ∧ v = s.clamp u := by
  cases r with
  | error e => cases h
  | ok u =>
    cases h
    exact ⟨u, rfl, rfl⟩

/-- The quantiles between the ends are those of the bins that hold the values of their ranks. -/
theorem Represents.quantile_eq (h : s.Represents accuracy limit xs) (hne : xs ≠ [])
    (hc : xs.length ≤ 2 ^ (53 : Nat)) {q : Float} (hlow : 0.0 < q) (hhigh : q < 1.0) :
    ∃ k < xs.length, IsFloor (q * Float.ofNat (xs.length - 1)) k ∧
      ∀ ys, (Mapping.ofAccuracy accuracy).Ascending xs ys → ∃ x,
        ys[placeOf (xs.filterMap (Mapping.ofAccuracy accuracy).negativeKey?).length
          (q * Float.ofNat (xs.length - 1)) k]? = some x ∧
        s.quantile q = ((Mapping.ofAccuracy accuracy).represent ((Mapping.ofAccuracy accuracy).collapse
          limit xs ((Mapping.ofAccuracy accuracy).bin x))).map (fun v => some (s.clamp v)) := by
  have hpos := List.length_pos_iff.mpr hne
  obtain ⟨hnum, hnum', hlt⟩ := (lt_iff _ _).mp hlow
  obtain ⟨_, hone, hlt'⟩ := (lt_iff _ _).mp hhigh
  have hle : (0.0 : Float) ≤ q ∧ q ≤ 1.0 :=
    ⟨(le_iff _ _).mpr ⟨hnum, hnum', Int.le_of_lt hlt⟩, (le_iff _ _).mpr ⟨hnum', hone, Int.le_of_lt hlt'⟩⟩
  have hqnat := isNatural_of_le hle.1 hle.2 finite_one
  have hnat := isNatural_ofNat (n := xs.length - 1) (by omega)
  obtain ⟨k, hk, hfloor⟩ := exists_isFloor (isNatural_mul hqnat hnat hle.2)
    (mul_le_of_le_one hqnat hnat hle.2) (by omega)
  refine ⟨k, by omega, hfloor, fun ys hys => ?_⟩
  obtain ⟨x, hx, hrep⟩ := h.representative_eq hc hfloor (by omega) hys
  rw [h.negative.count_eq] at hx
  refine ⟨x, hx, ?_⟩
  rcases quantile_cases (by rw [h.count]; omega) hle with ⟨heq, _⟩ | ⟨heq, _⟩ | ⟨_, _, hq⟩
  · omega
  · omega
  · rw [hq, h.count, hrep]
    generalize (Mapping.ofAccuracy accuracy).represent _ = v
    cases v <;> rfl

theorem Represents.count_ne_zero (h : s.Represents accuracy limit xs) (hne : xs ≠ []) : s.count ≠ 0 := by
  rw [h.count]
  exact Nat.ne_of_gt (List.length_pos_iff.mpr hne)

/-- The ends of some values are numbers, and all values lie between them. -/
theorem Represents.ends (h : s.Represents accuracy limit xs) (hne : xs ≠ []) :
    IsFinite s.least ∧ IsFinite s.greatest ∧
      ∀ x ∈ xs, order s.least ≤ order x ∧ order x ≤ order s.greatest := by
  have hleast := h.least.rank_le upward h.finite
  have hgreatest := h.greatest.rank_le downward h.finite
  refine ⟨?_, ?_, fun x hx => ⟨hleast x hx, Int.neg_le_neg_iff.mp (hgreatest x hx)⟩⟩
  · rcases h.least with ⟨hnil, _⟩ | ⟨hmem, _⟩
    · exact absurd hnil hne
    · exact h.finite _ hmem
  · rcases h.greatest with ⟨hnil, _⟩ | ⟨hmem, _⟩
    · exact absurd hnil hne
    · exact h.finite _ hmem

variable {ys : List Float} {q q' v v' : Float}

/-- What a quantile between the ends comes from. -/
theorem Represents.of_quantile (h : s.Represents accuracy limit xs) (hne : xs ≠ [])
    (hc : xs.length ≤ 2 ^ (53 : Nat)) (hlow : 0.0 < q) (hhigh : q < 1.0)
    (hys : (Mapping.ofAccuracy accuracy).Ascending xs ys) (hq : s.quantile q = .ok (some v)) :
    ∃ k x u, IsFloor (q * Float.ofNat (xs.length - 1)) k ∧
      ys[placeOf (xs.filterMap (Mapping.ofAccuracy accuracy).negativeKey?).length
        (q * Float.ofNat (xs.length - 1)) k]? = some x ∧ x ∈ xs ∧
      (Mapping.ofAccuracy accuracy).represent ((Mapping.ofAccuracy accuracy).collapse limit xs
        ((Mapping.ofAccuracy accuracy).bin x)) = .ok u ∧ v = s.clamp u := by
  obtain ⟨k, _, hfloor, hall⟩ := h.quantile_eq hne hc hlow hhigh
  obtain ⟨x, hx, heq⟩ := hall ys hys
  obtain ⟨u, hu, hv⟩ := of_map_clamp (hq.symm.trans heq)
  exact ⟨k, x, u, hfloor, hx, hys.perm.mem_iff.mp (List.mem_of_getElem? hx), hu, hv⟩

/-- A quantile lies between the ends. -/
theorem Represents.quantile_bounds (h : s.Represents accuracy limit xs) (hne : xs ≠ [])
    (hc : xs.length ≤ 2 ^ (53 : Nat)) (hasc : (Mapping.ofAccuracy accuracy).ValuesAscend limit xs)
    (hq : 0.0 ≤ q ∧ q ≤ 1.0) (hv : s.quantile q = .ok (some v)) : s.least ≤ v ∧ v ≤ s.greatest := by
  obtain ⟨hl, hg, hall⟩ := h.ends hne
  obtain ⟨x, hx⟩ := List.exists_mem_of_ne_nil xs hne
  have hle := Int.le_trans (hall x hx).1 (hall x hx).2
  have hends : s.least ≤ s.greatest := (le_iff _ _).mpr ⟨hl.isNumber, hg.isNumber, hle⟩
  have hcount := h.count_ne_zero hne
  rcases quantile_cases hcount hq with ⟨_, hquantile⟩ | ⟨_, hquantile⟩ | ⟨hlow, hhigh, _⟩
  · cases hquantile.symm.trans hv
    exact ⟨le_self hl.isNumber, hends⟩
  · cases hquantile.symm.trans hv
    exact ⟨hends, le_self hg.isNumber⟩
  · obtain ⟨ys, hys⟩ := (Mapping.ofAccuracy accuracy).exists_ascending xs
    obtain ⟨_, y, u, _, _, hy, hu, rfl⟩ := h.of_quantile hne hc hlow hhigh hys hv
    have hself := hasc.represent_le hy hy (Bin.le_refl _) hu hu
    exact clamp_bounds hl.isNumber hg.isNumber hle ((le_iff _ _).mp hself).1

/-- A larger quantile is not less. -/
theorem Represents.quantile_le (h : s.Represents accuracy limit xs) (hne : xs ≠ [])
    (hc : xs.length ≤ 2 ^ (53 : Nat)) (hasc : (Mapping.ofAccuracy accuracy).ValuesAscend limit xs)
    (hzero : 0.0 ≤ q) (hqq : q ≤ q') (hone : q' ≤ 1.0) (hv : s.quantile q = .ok (some v))
    (hv' : s.quantile q' = .ok (some v')) : v ≤ v' := by
  have hq : 0.0 ≤ q ∧ q ≤ 1.0 := ⟨hzero, Number.le_trans hqq hone⟩
  have hq' : 0.0 ≤ q' ∧ q' ≤ 1.0 := ⟨Number.le_trans hzero hqq, hone⟩
  have hbounds := h.quantile_bounds hne hc hasc hq hv
  have hbounds' := h.quantile_bounds hne hc hasc hq' hv'
  have hcount := h.count_ne_zero hne
  have horder := ((le_iff _ _).mp hqq).2.2
  have hends : order 0.0 < order 1.0 := by decide
  rcases quantile_cases hcount hq with ⟨_, heq⟩ | ⟨hend, heq⟩ | ⟨hlow, hhigh, _⟩
  · cases heq.symm.trans hv
    exact hbounds'.1
  · -- There is no larger quantile than the last one.
    rcases quantile_cases hcount hq' with ⟨hfirst, _⟩ | ⟨_, heq'⟩ | ⟨_, hhigh', _⟩
    · omega
    · cases heq'.symm.trans hv'
      exact hbounds.2
    · have hlt := ((lt_iff _ _).mp hhigh').2.2
      omega
  · rcases quantile_cases hcount hq' with ⟨hfirst, _⟩ | ⟨_, heq'⟩ | ⟨hlow', hhigh', _⟩
    · have hlt := ((lt_iff _ _).mp hlow).2.2
      omega
    · cases heq'.symm.trans hv'
      exact hbounds.2
    · obtain ⟨ys, hys⟩ := (Mapping.ofAccuracy accuracy).exists_ascending xs
      obtain ⟨k, x, u, hfloor, hx, hmem, hu, rfl⟩ := h.of_quantile hne hc hlow hhigh hys hv
      obtain ⟨k', x', u', hfloor', hx', hmem', hu', rfl⟩ := h.of_quantile hne hc hlow' hhigh' hys hv'
      obtain ⟨hl, hg, hall⟩ := h.ends hne
      have hnat := isNatural_ofNat (n := xs.length - 1) (by omega)
      have hrank : q * Float.ofNat (xs.length - 1) ≤ q' * Float.ofNat (xs.length - 1) :=
        mul_le_mul_right (isNatural_of_le hq.1 hq.2 finite_one) (isNatural_of_le hq'.1 hq'.2 finite_one)
          hnat hqq
      have hplace := hfloor.placeOf_le hfloor'
        (n := (xs.filterMap (Mapping.ofAccuracy accuracy).negativeKey?).length)
        (Nat.le_trans (List.length_filterMap_le _ _) hc) hrank
      exact clamp_le_clamp hl.isNumber hg.isNumber
        (Int.le_trans (hall x hmem).1 (hall x hmem).2) (hasc.represent_le hmem hmem'
          (Mapping.le_collapse (hys.le_of_le hplace hx hx')) hu hu')

/-- A sketch of some values tells their quantiles. -/
theorem Represents.ranks (h : s.Represents accuracy limit xs) (hne : xs ≠ [])
    (hc : xs.length ≤ 2 ^ (53 : Nat)) : Ranks (Mapping.ofAccuracy accuracy) accuracy limit xs s := by
  have hcount := h.count_ne_zero hne
  refine ⟨h.least, h.greatest, quantile_ends hcount, fun hkeys ys hperm hsorted => ⟨hperm, ?_⟩,
    fun q hlow hhigh => ?_,
    fun hasc q q' hzero hqq hone v v' => h.quantile_le hne hc hasc hzero hqq hone⟩
  · refine hsorted.imp_of_mem fun hx hy hle => ?_
    exact hkeys.le_bin h.accepts (hperm.mem_iff.mp hx) (hperm.mem_iff.mp hy) hle
  · obtain ⟨k, hk, hfloor, hall⟩ := h.quantile_eq hne hc hlow hhigh
    refine ⟨k, hk, hfloor, fun ys hys => ?_⟩
    obtain ⟨x, hx, heq⟩ := hall ys hys
    refine ⟨x, hx, heq, fun haccurate hbin hown v hv => ?_⟩
    obtain ⟨hl, hg, hbetween⟩ := h.ends hne
    have hmem := hys.perm.mem_iff.mp (List.mem_of_getElem? hx)
    rw [hown] at heq
    obtain ⟨u, hu, rfl⟩ := of_map_clamp (hv.symm.trans heq)
    exact (haccurate x hmem hbin u hu).clamp hl.isNumber hg.isNumber
      (Int.le_trans (hbetween x hmem).1 (hbetween x hmem).2) hl hg (hbetween x hmem)

end

variable {ι : Type} [DecidableEq ι] {accuracy : Float} {s : Sketch}

/-- Begin with sketches of one accuracy and number of bins, and let values be added to them, and let them be
merged and copied, in any order. Every sketch tells the quantiles of the values folded into it, as long as their
number is exact. -/
theorem ranks_run {binLimit : Int} (h : create accuracy binLimit = .ok s) (moves : List (Move ι)) (i : ι)
    (hne : holdings (fun _ => s) moves i ≠ [])
    (hc : (holdings (fun _ => s) moves i).length ≤ 2 ^ (53 : Nat)) :
    Ranks (Mapping.ofAccuracy accuracy) accuracy binLimit.toNat (holdings (fun _ => s) moves i)
      (run (fun _ => s) moves i) := by
  obtain ⟨ha, hl, hfresh⟩ := represents_of_create h
  exact (told_run ha hl (fun _ => hfresh) moves i).ranks hne hc

theorem ranks_signedMoves :
    holdings (fun _ => empty 0.01 2048) signedMoves false =
        [-1.0, 1.0, -2.0, 0.0, -1.0, 1.0, -2.0, 0.0] ∧
      Ranks (Mapping.ofAccuracy 0.01) 0.01 2048 (holdings (fun _ => empty 0.01 2048) signedMoves false)
        (run (fun _ => empty 0.01 2048) signedMoves false) := by
  have hcreate : create 0.01 2048 = .ok (empty 0.01 2048) := rfl
  have hheld : holdings (fun _ => empty 0.01 2048) signedMoves false =
      [-1.0, 1.0, -2.0, 0.0, -1.0, 1.0, -2.0, 0.0] := by decide +kernel
  refine ⟨hheld, ranks_run hcreate signedMoves false ?_ ?_⟩
  · rw [hheld]
    exact List.cons_ne_nil _ _
  · rw [hheld]
    decide

end MetricCapture.Sketch
