import Mathlib.Algebra.Order.Field.Power
import MetricCapture.Proofs.Number.Accuracy
import MetricCapture.Proofs.Number.Literal
/-! Written doubles, read. A text of significant digits is a decimal literal, and the number that it
writes is as near to the double as its last digit allows. -/
namespace MetricCapture.Number

open MetricCapture.Text

theorem decimalValue?_of_isDigit {c : Char} (h : c.isDigit = true) :
    decimalValue? c = some (c.toNat - 48) := by
  have hbounds : 48 ≤ c.toNat ∧ c.toNat ≤ 57 := by
    simp only [Char.isDigit, Bool.and_eq_true, decide_eq_true_eq, ge_iff_le, UInt32.le_iff_toNat_le] at h
    exact h
  unfold decimalValue?
  dsimp only
  rw [if_pos (by omega), if_pos (by simpa using hbounds)]

theorem isDigit_of_mem_digits {n : Nat} {c : Char} (h : c ∈ digits n) : c.isDigit = true :=
  Nat.isDigit_of_mem_toDigits (by decide) (by decide) h

theorem all_digits (n : Nat) : (digits n).all isDecimal = true := by
  rw [List.all_eq_true]
  intro c hc
  rw [isDecimal, decimalValue?_of_isDigit (isDigit_of_mem_digits hc)]
  rfl

private theorem foldl_digits (cs : List Char) (n : Nat) :
    cs.foldl (fun n c => 10 * n + (decimalValue? c).getD 0) n = n * 10 ^ cs.length + decimalRun cs := by
  unfold decimalRun
  induction cs generalizing n with
  | nil => simp
  | cons c cs ih =>
    rw [List.foldl_cons, List.foldl_cons, ih, ih (10 * 0 + _), List.length_cons, Nat.pow_succ]
    simp only [Nat.mul_zero, Nat.zero_add, Nat.add_mul]
    rw [Nat.add_assoc, Nat.mul_comm 10 n, Nat.mul_assoc n, Nat.mul_comm 10]

theorem decimalRun_append (cs ds : List Char) :
    decimalRun (cs ++ ds) = decimalRun cs * 10 ^ ds.length + decimalRun ds := by
  rw [decimalRun, List.foldl_append, foldl_digits]
  rfl

theorem decimalRun_zeros (n : Nat) : decimalRun (List.replicate n '0') = 0 := by
  induction n with
  | zero => rfl
  | succ n ih =>
    rw [List.replicate_succ', decimalRun_append, ih, Nat.zero_mul]
    rfl

theorem decimalRun_digits (n : Nat) : decimalRun (digits n) = n := by
  have hrun : decimalRun (digits n) = Nat.ofDigitChars 10 (digits n) 0 := by
    unfold decimalRun
    rw [Nat.ofDigitChars_eq_foldl]
    refine List.foldl_ext _ _ _ fun m c hc => ?_
    rw [decimalValue?_of_isDigit (isDigit_of_mem_digits hc)]
    rfl
  rw [hrun]
  exact Nat.ofDigitChars_ten_toDigits

theorem exists_zeros (cs : List Char) : ∃ k, cs = dropZeros cs ++ List.replicate k '0' := by
  have hzeros : cs.reverse.takeWhile (· == '0') =
      List.replicate (cs.reverse.takeWhile (· == '0')).length '0' :=
    List.eq_replicate_of_mem fun c hc => by simpa using List.mem_takeWhile_imp hc
  refine ⟨(cs.reverse.takeWhile (· == '0')).length, ?_⟩
  unfold dropZeros
  rw [← List.reverse_replicate, ← hzeros, ← List.reverse_append, List.takeWhile_append_dropWhile,
    List.reverse_reverse]

private theorem all_zeros (n : Nat) : (List.replicate n '0').all isDecimal = true := by
  rw [List.all_replicate]
  simp [show isDecimal '0' = true by decide]

theorem all_padded (width n : Nat) : (padded width n).all isDecimal = true := by
  unfold padded
  rw [List.all_append, all_digits, all_zeros]
  rfl

theorem decimalRun_padded (width n : Nat) : decimalRun (padded width n) = n := by
  unfold padded
  rw [decimalRun_append, decimalRun_zeros, decimalRun_digits, Nat.zero_mul, Nat.zero_add]

/-- A power of ten is read as the one that is written. -/
theorem power_exponentText (e : Int) : Literal.Power (exponentText e) e := by
  have hne : padded 2 e.natAbs ≠ [] := by simp [padded, digits, Nat.toDigits_ne_nil]
  by_cases h : e < 0
  · have hpower := Literal.Power.given (.inl rfl) .minus hne (all_padded 2 e.natAbs)
    rw [decimalRun_padded, if_pos rfl, show -(e.natAbs : Int) = e by omega] at hpower
    unfold exponentText
    rw [if_pos h]
    exact hpower
  · have hpower := Literal.Power.given (.inl rfl) .plus hne (all_padded 2 e.natAbs)
    rw [decimalRun_padded, if_neg Bool.false_ne_true, show (e.natAbs : Int) = e by omega] at hpower
    unfold exponentText
    rw [if_neg h]
    exact hpower

def Literal.amount (l : Literal) : ℚ :=
  factor (if l.negative then .negative else .positive) *
    (decimalRun (l.whole ++ l.fraction) * 10 ^ (l.exponent - l.fraction.length))

def WritesDigits (cs : List Char) (negative : Bool) (ds : List Char) (e : Int) : Prop :=
  ∃ l, Literal.Writes cs l ∧ l.amount = factor (if negative then .negative else .positive) *
    (decimalRun ds * 10 ^ (e + 1 - ds.length))

section

variable {cs ds whole fraction point power : List Char} {e exponent : Int}

/-- Zeros before and after digits move the point, and so does a power of ten. -/
theorem writesDigits_signed (negative : Bool) (a b : Nat) (htext : cs = whole ++ (point ++ power))
    (all_whole : whole.all isDecimal = true) (hfraction : Literal.Fraction point fraction)
    (some_digit : whole ≠ [] ∨ fraction ≠ []) (hpower : Literal.Power power exponent)
    (hpad : whole ++ fraction = List.replicate a '0' ++ (ds ++ List.replicate b '0'))
    (hplace : exponent - fraction.length + b = e + 1 - ds.length) :
    WritesDigits (signed negative cs) negative ds e := by
  subst htext
  refine ⟨⟨negative, whole, fraction, exponent⟩, ?_, ?_⟩
  · cases negative with
    | false => exact .intro rfl .absent all_whole hfraction some_digit hpower
    | true => exact .intro rfl .minus all_whole hfraction some_digit hpower
  · unfold Literal.amount
    dsimp only
    rw [hpad, decimalRun_append, decimalRun_append, decimalRun_zeros, decimalRun_zeros,
      List.length_replicate, Nat.zero_mul, Nat.zero_add, Nat.add_zero, ← hplace,
      zpow_add₀ (by norm_num), zpow_natCast]
    push_cast
    ring

theorem writesDigits_exponentForm (negative : Bool) (hne : ds ≠ []) (hall : ds.all isDecimal = true) :
    WritesDigits (signed negative (exponentForm ds e)) negative ds e := by
  have hpower := power_exponentText e
  cases ds with
  | nil => exact absurd rfl hne
  | cons d rest =>
    rw [List.all_cons, Bool.and_eq_true] at hall
    have hfirst : [d].all isDecimal = true := by simpa using hall.1
    have hwhole : [d] ≠ [] := List.cons_ne_nil _ _
    cases rest with
    | nil =>
      exact writesDigits_signed negative 0 0 rfl hfirst .absent (.inl hwhole) hpower rfl (by simp)
    | cons d' rest =>
      refine writesDigits_signed negative 0 0 rfl hfirst (.given hall.2) (.inl hwhole) hpower (by simp) ?_
      simp only [List.length_cons]
      omega

def plainForm (ds : List Char) (e : Int) : List Char :=
  let (whole, fraction) := positional ds e
  if fraction.isEmpty then whole else whole ++ '.' :: fraction

theorem writesDigits_plainForm (negative : Bool) (hne : ds ≠ []) (hall : ds.all isDecimal = true) :
    WritesDigits (signed negative (plainForm ds e)) negative ds e := by
  unfold plainForm positional
  by_cases he : e < 0
  · rw [if_pos he]
    dsimp only
    rw [if_neg (by simp [hne])]
    refine writesDigits_signed negative (-e).toNat 0
      (show _ = ['0'] ++ (_ ++ []) from congrArg ('0' :: ·) (List.append_nil _).symm) (by decide)
      (.given ?_) (.inl (List.cons_ne_nil _ _)) .absent ?_ ?_
    · rw [List.all_append, all_zeros, hall]
      rfl
    · rw [List.replicate_zero, List.append_nil, show (-e).toNat = (-e).toNat - 1 + 1 by omega,
        List.replicate_succ]
      rfl
    · rw [List.length_append, List.length_replicate]
      omega
  · rw [if_neg he]
    dsimp only
    generalize hwidth : e.toNat + 1 = width
    have hwhole : (ds.take width ++ List.replicate (width - ds.length) '0').all isDecimal = true := by
      rw [List.all_append, all_zeros, Bool.and_true, List.all_eq_true]
      exact fun c hc => List.all_eq_true.mp hall c (List.mem_of_mem_take hc)
    rcases Nat.lt_or_ge width ds.length with hlong | hshort
    · have hrest : ds.drop width ≠ [] := List.ne_nil_of_length_pos (by rw [List.length_drop]; omega)
      rw [if_neg (by simpa using hlong)]
      refine writesDigits_signed negative 0 0 (by rw [List.append_nil]) hwhole (.given ?_) (.inr hrest)
        .absent ?_ ?_
      · rw [List.all_eq_true]
        exact fun c hc => List.all_eq_true.mp hall c (List.mem_of_mem_drop hc)
      · rw [Nat.sub_eq_zero_of_le (Nat.le_of_lt hlong)]
        simp
      · rw [List.length_drop]
        omega
    · rw [List.take_of_length_le hshort] at hwhole ⊢
      rw [List.drop_eq_nil_of_le hshort, if_pos (by rfl)]
      refine writesDigits_signed negative 0 (width - ds.length) (by simp) hwhole .absent (.inl ?_) .absent
        (by simp) ?_
      · simp [hne]
      · rw [List.length_nil]
        omega

end

end MetricCapture.Number
