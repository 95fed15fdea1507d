import Mathlib.Data.List.TakeWhile
import MetricCapture.Number.Literal
import MetricCapture.Proofs.Text.Line
/-! Decimal notation: the texts that write a number, and that no separator of a line is part of one. -/
namespace MetricCapture.Number
open MetricCapture.Text

namespace Literal

inductive Sign : List Char → Bool → Prop where
  | absent : Sign [] false
  | plus : Sign ['+'] false
  | minus : Sign ['-'] true

inductive Power : List Char → Int → Prop where
  | absent : Power [] 0
  | given {mark : Char} {sign ds : List Char} {negative : Bool} (mark_eq : mark = 'e' ∨ mark = 'E')
      (signed : Sign sign negative) (nonempty : ds ≠ []) (digits : ds.all isDecimal = true) :
      Power (mark :: (sign ++ ds)) (if negative then -(decimalRun ds : Int) else decimalRun ds)

/-- A point and the digits after it. Without digits the point may be left out. -/
inductive Fraction : List Char → List Char → Prop where
  | absent : Fraction [] []
  | given {ds : List Char} (digits : ds.all isDecimal = true) : Fraction ('.' :: ds) ds

inductive Writes (cs : List Char) (l : Literal) : Prop where
  | intro {sign point power : List Char} (text_eq : cs = sign ++ (l.whole ++ (point ++ power)))
      (signed : Sign sign l.negative) (whole : l.whole.all isDecimal = true)
      (fraction : Fraction point l.fraction) (some_digit : l.whole ≠ [] ∨ l.fraction ≠ [])
      (scaled : Power power l.exponent)

def Notational (c : Char) : Prop := isDecimal c = true ∨ c ∈ ['+', '-', '.', 'e', 'E']

theorem splitSign_append {sign rest : List Char} {negative : Bool} (h : Sign sign negative)
    (hrest : ∀ c ∈ rest.head?, c ≠ '+' ∧ c ≠ '-') : splitSign (sign ++ rest) = (negative, rest) := by
  cases h with
  | plus => rfl
  | minus => rfl
  | absent =>
    cases rest with
    | nil => rfl
    | cons c cs =>
      obtain ⟨hplus, hminus⟩ := hrest c rfl
      rw [List.nil_append, splitSign]
      · exact fun r hr => hminus (List.cons.inj hr).1
      · exact fun r hr => hplus (List.cons.inj hr).1

theorem exists_sign (cs : List Char) :
    ∃ sign, Sign sign (splitSign cs).1 ∧ cs = sign ++ (splitSign cs).2 := by
  unfold splitSign
  split
  · exact ⟨_, .minus, rfl⟩
  · exact ⟨_, .plus, rfl⟩
  · exact ⟨_, .absent, rfl⟩

theorem splitDigits_append {ds rest : List Char} (h : ds.all isDecimal = true)
    (hrest : ∀ c ∈ rest.head?, isDecimal c = false) : splitDigits (ds ++ rest) = (ds, rest) := by
  unfold splitDigits
  cases rest with
  | nil =>
    rw [List.append_nil, List.takeWhile_eq_self_iff.mpr (List.all_eq_true.mp h),
      List.dropWhile_eq_nil_iff.mpr (List.all_eq_true.mp h)]
  | cons c cs => rw [takeWhile_append_cons h (hrest c rfl), dropWhile_append_cons h (hrest c rfl)]

theorem not_decimal_of_power {power : List Char} {e : Int} (h : Power power e) :
    ∀ c ∈ power.head?, c ≠ '.' ∧ isDecimal c = false := by
  cases h with
  | absent => exact nofun
  | given mark_eq =>
    intro c hc
    cases hc
    rcases mark_eq with rfl | rfl <;> decide

theorem not_sign_of_decimal {c : Char} (h : isDecimal c = true) : c ≠ '+' ∧ c ≠ '-' := by
  constructor <;> (rintro rfl; revert h; decide)

theorem readExponent?_eq_some_iff {cs : List Char} {e : Int} :
    readExponent? cs = some e ↔ Power cs e := by
  constructor
  · intro h
    cases cs with
    | nil =>
      cases h
      exact .absent
    | cons c r =>
      unfold readExponent? at h
      dsimp only at h
      split at h
      · rename_i hmark
        simp only [Bool.or_eq_true, decide_eq_true_eq] at hmark
        obtain ⟨sign, signed, hr⟩ := exists_sign r
        split at h
        · rename_i hds
          simp only [Bool.and_eq_true, Bool.not_eq_true', List.isEmpty_eq_false_iff] at hds
          cases h
          have hpower := Power.given hmark signed hds.1 hds.2
          rwa [← hr] at hpower
        · cases h
      · cases h
  · intro h
    cases h with
    | absent => rfl
    | @given mark sign ds negative mark_eq signed nonempty digits =>
      have hfront : ∀ c ∈ ds.head?, c ≠ '+' ∧ c ≠ '-' := fun c hc =>
        not_sign_of_decimal (List.all_eq_true.mp digits c (List.mem_of_mem_head? hc))
      have hmark : (decide (mark = 'e') || decide (mark = 'E')) = true := by simpa using mark_eq
      have hds : (!ds.isEmpty && ds.all isDecimal) = true := by simp [nonempty, digits]
      simp only [readExponent?, splitSign_append signed hfront, hmark, hds, if_true]

def splitFraction : List Char → List Char × List Char
  | '.' :: r => splitDigits r
  | r => ([], r)

theorem exists_digits (cs : List Char) :
    (splitDigits cs).1.all isDecimal = true ∧ cs = (splitDigits cs).1 ++ (splitDigits cs).2 :=
  ⟨List.all_takeWhile, List.takeWhile_append_dropWhile.symm⟩

theorem exists_fraction (cs : List Char) :
    ∃ point, Fraction point (splitFraction cs).1 ∧ cs = point ++ (splitFraction cs).2 := by
  unfold splitFraction
  split
  · rename_i r
    obtain ⟨digits, hr⟩ := exists_digits r
    exact ⟨_, .given digits, congrArg ('.' :: ·) hr⟩
  · exact ⟨_, .absent, rfl⟩

theorem splitFraction_append {point ds rest : List Char} (h : Fraction point ds)
    (hrest : ∀ c ∈ rest.head?, c ≠ '.' ∧ isDecimal c = false) :
    splitFraction (point ++ rest) = (ds, rest) := by
  cases h with
  | given digits => exact splitDigits_append digits fun c hc => (hrest c hc).2
  | absent =>
    cases rest with
    | nil => rfl
    | cons c cs =>
      rw [List.nil_append, splitFraction]
      exact fun r hr => (hrest c rfl).1 (List.cons.inj hr).1

theorem read?_eq (cs : List Char) :
    Literal.read? cs =
      if (splitDigits (splitSign cs).2).1.isEmpty &&
          (splitFraction (splitDigits (splitSign cs).2).2).1.isEmpty then none
      else (readExponent? (splitFraction (splitDigits (splitSign cs).2).2).2).map fun e =>
        ⟨(splitSign cs).1, (splitDigits (splitSign cs).2).1,
          (splitFraction (splitDigits (splitSign cs).2).2).1, e⟩ := by
  unfold Literal.read? splitFraction
  rfl

/-- A text is read as a literal exactly when it writes it. -/
theorem read?_eq_some_iff {cs : List Char} {l : Literal} : Literal.read? cs = some l ↔ Writes cs l := by
  rw [read?_eq]
  constructor
  · intro h
    obtain ⟨sign, signed, hcs⟩ := exists_sign cs
    obtain ⟨digits, hrest⟩ := exists_digits (splitSign cs).2
    obtain ⟨point, fraction, htail⟩ := exists_fraction (splitDigits (splitSign cs).2).2
    split at h
    · cases h
    · rename_i hdigit
      rw [Bool.and_eq_true, List.isEmpty_iff, List.isEmpty_iff, not_and_or] at hdigit
      obtain ⟨e, he, rfl⟩ := Option.map_eq_some_iff.mp h
      refine ⟨?_, signed, digits, fraction, hdigit, readExponent?_eq_some_iff.mp he⟩
      exact hcs.trans (congrArg (sign ++ ·) (hrest.trans (congrArg (_ ++ ·) htail)))
  · rintro ⟨rfl, signed, digits, fraction, some_digit, scaled⟩
    rename_i sign point power
    obtain ⟨negative, whole, ds, e⟩ := l
    dsimp only at signed digits fraction some_digit scaled ⊢
    have hpower := not_decimal_of_power scaled
    have hpoint : ∀ c ∈ (point ++ power).head?, isDecimal c = false := by
      cases fraction with
      | absent => exact fun c hc => (hpower c hc).2
      | given =>
        rintro c ⟨⟩
        decide
    have hfront : ∀ c ∈ (whole ++ (point ++ power)).head?, c ≠ '+' ∧ c ≠ '-' := by
      cases whole with
      | cons d ds =>
        rintro c ⟨⟩
        exact not_sign_of_decimal (List.all_eq_true.mp digits _ List.mem_cons_self)
      | nil =>
        cases fraction with
        | absent => exact absurd rfl (some_digit.resolve_left (absurd rfl))
        | given =>
          rintro c ⟨⟩
          decide
    have hsome : ¬ (whole.isEmpty && ds.isEmpty) = true := by
      rw [Bool.and_eq_true, List.isEmpty_iff, List.isEmpty_iff, not_and_or]
      exact some_digit
    rw [splitSign_append signed hfront, splitDigits_append digits hpoint,
      splitFraction_append fraction hpower, readExponent?_eq_some_iff.mpr scaled, if_neg hsome]
    rfl

theorem Sign.notational {sign : List Char} {negative : Bool} (h : Sign sign negative) :
    ∀ c ∈ sign, Notational c := by
  cases h with
  | absent => exact nofun
  | plus => exact List.forall_mem_singleton.mpr (.inr (by decide))
  | minus => exact List.forall_mem_singleton.mpr (.inr (by decide))

/-- A text that writes a literal holds digits, signs, points and the marks of a power of ten. -/
theorem Writes.notational {cs : List Char} {l : Literal} (h : Writes cs l) : ∀ c ∈ cs, Notational c := by
  obtain ⟨rfl, signed, digits, fraction, _, scaled⟩ := h
  obtain ⟨negative, whole, ds, e⟩ := l
  have hdigits : ∀ ds : List Char, ds.all isDecimal = true → ∀ c ∈ ds, Notational c :=
    fun ds hds c hc => .inl (List.all_eq_true.mp hds c hc)
  simp only [List.forall_mem_append]
  refine ⟨signed.notational, hdigits _ digits, ?_, ?_⟩
  · cases fraction with
    | absent => exact nofun
    | given digits' => exact List.forall_mem_cons.mpr ⟨.inr (by decide), hdigits _ digits'⟩
  · cases scaled with
    | absent => exact nofun
    | given mark_eq signed' _ digits' =>
      refine List.forall_mem_cons.mpr
        ⟨.inr ?_, List.forall_mem_append.mpr ⟨signed'.notational, hdigits _ digits'⟩⟩
      rcases mark_eq with rfl | rfl <;> decide

end Literal

theorem isFinite_of_read? {cs : List Char} {x : Float} (h : read? cs = some x) : isFinite x = true := by
  unfold read? at h
  obtain ⟨l, _, h⟩ := Option.bind_eq_some_iff.mp h
  split at h
  · rename_i hfinite
    cases h
    exact hfinite
  · cases h

/-- A character that is no part of decimal notation stands in no number. -/
theorem not_mem_of_read? {cs : List Char} {x : Float} (h : read? cs = some x) {c : Char}
    (hc : ¬ Literal.Notational c) : c ∉ cs := by
  obtain ⟨l, hl, _⟩ := Option.bind_eq_some_iff.mp h
  exact fun hmem => hc ((Literal.read?_eq_some_iff.mp hl).notational c hmem)

end MetricCapture.Number
