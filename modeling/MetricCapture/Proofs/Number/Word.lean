import MetricCapture.Number.Binary64
/-! Doubles by their words: the sign and the magnitude of a word tell which number it stands for,
and what is packed has the word of its digits. -/
namespace MetricCapture.Number

open Float.Model
open Float.Model.UnpackedFloat (Sign)

/-- The magnitude of the infinities. What is larger is no number. -/
def endless : Nat := 2047 * leadingDigit

def magnitude (x : Float) : Nat := x.toBits.toNat % signBit

def sign (x : Float) : Sign := if x.toBits.toNat < signBit then .positive else .negative

def significand (w : Nat) : Nat := if w < leadingDigit then w else leadingDigit + w % leadingDigit

def exponent (w : Nat) : Int := (max (w / leadingDigit) 1 : Nat) - 1075

theorem significand_pos {w : Nat} (h : w ≠ 0) : 0 < significand w := by
  unfold significand leadingDigit
  split <;> omega

/-- Digits as they are after rounding: full ones, but for the smallest numbers. -/
structure Rounded (m : Nat) (e : Int) : Prop where
  lt : m < 2 * leadingDigit
  le : -1074 ≤ e
  full : e = -1074 ∨ leadingDigit ≤ m

theorem rounded_digits (w : Nat) : Rounded (significand w) (exponent w) := by
  unfold significand exponent
  by_cases h : w < leadingDigit
  · rw [if_pos h]
    unfold leadingDigit at *
    exact ⟨by unfold leadingDigit; omega, by omega, by omega⟩
  · rw [if_neg h]
    unfold leadingDigit at *
    exact ⟨by unfold leadingDigit; omega, by omega, by unfold leadingDigit; omega⟩

/-- The digits of a magnitude, read as one number, are the magnitude. -/
theorem digits_eq (w : Nat) : (exponent w + 1074) * leadingDigit + significand w = w := by
  unfold significand exponent leadingDigit
  split <;> omega

def unpacked (s : Sign) (w : Nat) : UnpackedFloat :=
  if endless < w then .notANumber
  else if w = endless then .infinity s
  else if h : w = 0 then .zero s
  else .finite s (significand w) (exponent w) (significand_pos h)

theorem unpacked_notANumber (s : Sign) {w : Nat} (h : endless < w) : unpacked s w = .notANumber :=
  if_pos h

theorem unpacked_endless (s : Sign) : unpacked s endless = .infinity s :=
  (if_neg (Nat.lt_irrefl _)).trans (if_pos rfl)

theorem unpacked_zero (s : Sign) : unpacked s 0 = .zero s := rfl

theorem unpacked_finite (s : Sign) {w : Nat} (h : w < endless) (hw : w ≠ 0) :
    unpacked s w = .finite s (significand w) (exponent w) (significand_pos hw) := by
  unfold unpacked
  rw [if_neg (Nat.not_lt.mpr (Nat.le_of_lt h)), if_neg (Nat.ne_of_lt h), dif_neg hw]

/-- Numbers are infinite, zero, or have digits. -/
theorem unpacked_cases (s : Sign) {w : Nat} (h : w ≤ endless) :
    (w = endless ∧ unpacked s w = .infinity s) ∨ (w = 0 ∧ unpacked s w = .zero s) ∨
      (0 < w ∧ w < endless ∧
        ∃ hm, unpacked s w = .finite s (significand w) (exponent w) hm) := by
  rcases Nat.lt_or_eq_of_le h with hlt | rfl
  · by_cases hz : w = 0
    · subst hz
      exact .inr (.inl ⟨rfl, unpacked_zero s⟩)
    · exact .inr (.inr ⟨Nat.pos_of_ne_zero hz, hlt, significand_pos hz, unpacked_finite s hlt hz⟩)
  · exact .inl ⟨rfl, unpacked_endless s⟩

private theorem toNat_unpackMantissa (b : BitVec 64) :
    (@UnpackedFloat.unpackMantissa Format.binary64 b).toNat = b.toNat % leadingDigit := by
  unfold UnpackedFloat.unpackMantissa
  rw [BitVec.toNat_cast, BitVec.extractLsb_toNat, Nat.shiftRight_zero]
  rfl

private theorem toNat_unpackExponent (b : BitVec 64) :
    (@UnpackedFloat.unpackExponent Format.binary64 b).toNat =
      b.toNat / leadingDigit % 2048 := by
  unfold UnpackedFloat.unpackExponent
  rw [BitVec.toNat_cast, BitVec.extractLsb_toNat, Nat.shiftRight_eq_div_pow]
  rfl

private theorem toNat_unpackSign (b : BitVec 64) :
    (@UnpackedFloat.unpackSign Format.binary64 b).toNat = b.toNat / signBit % 2 := by
  unfold UnpackedFloat.unpackSign
  rw [BitVec.toNat_cast, BitVec.extractLsb_toNat, Nat.shiftRight_eq_div_pow]
  rfl

private theorem ofBitVec_unpackSign (b : BitVec 64) :
    Sign.ofBitVec (@UnpackedFloat.unpackSign Format.binary64 b) =
      if b.toNat < signBit then .positive else .negative := by
  have hlt : b.toNat < 0x10000000000000000 := b.isLt
  have hpos : @UnpackedFloat.unpackSign Format.binary64 b = 0#1 ↔ b.toNat < signBit := by
    rw [← BitVec.toNat_inj, toNat_unpackSign]
    unfold signBit
    change _ = 0 ↔ _
    omega
  unfold Sign.ofBitVec
  by_cases hneg : b.toNat < signBit
  · rw [if_pos hneg, if_pos (hpos.mpr hneg)]
  · rw [if_neg hneg, if_neg fun h => hneg (hpos.mp h)]

private theorem toNat_leading (m : BitVec 52) : (1#1 ++ m).toNat = leadingDigit + m.toNat := by
  rw [BitVec.toNat_append, ← Nat.shiftLeft_add_eq_or_of_lt m.isLt, Nat.shiftLeft_eq]
  rfl

/-- The digits of a word of 64 bits. -/
theorem unpack_eq (b : BitVec 64) :
    UnpackedFloat.unpack Format.binary64 b =
      unpacked (if b.toNat < signBit then .positive else .negative) (b.toNat % signBit) := by
  have hlt : b.toNat < 0x10000000000000000 := b.isLt
  have hm := toNat_unpackMantissa b
  have he := toNat_unpackExponent b
  have hfull : @UnpackedFloat.unpackExponent Format.binary64 b = -1#_ ↔
      b.toNat / leadingDigit % 2048 = 2047 := by
    rw [← BitVec.toNat_inj, he]
    rfl
  have hsub : @UnpackedFloat.unpackExponent Format.binary64 b = 0#_ ↔
      b.toNat / leadingDigit % 2048 = 0 := by
    rw [← BitVec.toNat_inj, he]
    rfl
  have hzero : @UnpackedFloat.unpackMantissa Format.binary64 b = 0#_ ↔
      b.toNat % leadingDigit = 0 := by
    rw [← BitVec.toNat_inj, hm]
    rfl
  unfold UnpackedFloat.unpack unpacked
  dsimp only
  rw [ofBitVec_unpackSign]
  generalize (if b.toNat < signBit then Sign.positive else Sign.negative) = s
  by_cases hf : b.toNat / leadingDigit % 2048 = 2047
  · rw [if_pos (hfull.mpr hf)]
    by_cases hz : b.toNat % leadingDigit = 0
    · rw [if_pos (hzero.mpr hz), if_neg, if_pos]
      all_goals unfold endless signBit leadingDigit at *; omega
    · rw [if_neg fun h => hz (hzero.mp h), if_pos]
      unfold endless signBit leadingDigit at *
      omega
  · rw [if_neg fun h => hf (hfull.mp h)]
    by_cases hn : b.toNat / leadingDigit % 2048 = 0
    · rw [if_pos (hsub.mpr hn)]
      by_cases hz : b.toNat % leadingDigit = 0
      · rw [dif_pos (hzero.mpr hz), if_neg, if_neg, dif_pos]
        all_goals unfold endless signBit leadingDigit at *; omega
      · rw [dif_neg fun h => hz (hzero.mp h)]
        rw [if_neg, if_neg, dif_neg, UnpackedFloat.finite.injEq, hm, he]
        · refine ⟨rfl, ?_, ?_⟩
          · unfold significand signBit leadingDigit at *
            rw [if_pos (by omega)]
            omega
          · change _ - (1023 + 52 : Int) + 1 = _
            unfold exponent signBit leadingDigit at *
            omega
        all_goals unfold endless signBit leadingDigit at *; omega
    · rw [if_neg fun h => hn (hsub.mp h), if_neg, if_neg, dif_neg, UnpackedFloat.finite.injEq, he,
        toNat_leading, hm]
      · refine ⟨rfl, ?_, ?_⟩
        · unfold significand signBit leadingDigit at *
          rw [if_neg (by omega)]
          omega
        · change _ - (1023 + 52 : Int) = _
          unfold exponent signBit leadingDigit at *
          omega
      all_goals unfold endless signBit leadingDigit at *; omega

theorem toModel_unpack (x : Float) : x.toModel.unpack = unpacked (sign x) (magnitude x) :=
  unpack_eq x.toModel.toBits.toBitVec

private theorem toNat_packComponents (s : Sign) (e : BitVec 11) (m : BitVec 52) :
    (UnpackedFloat.packComponents Format.binary64 s e m).toNat =
      s.toBitVec.toNat * signBit + (e.toNat * leadingDigit + m.toNat) := by
  have he := e.isLt
  have hm := m.isLt
  have hlow : (e ++ m).toNat = e.toNat * leadingDigit + m.toNat := by
    rw [BitVec.toNat_append, ← Nat.shiftLeft_add_eq_or_of_lt hm, Nat.shiftLeft_eq]
    rfl
  unfold UnpackedFloat.packComponents
  rw [BitVec.append_assoc, BitVec.toNat_cast, BitVec.toNat_append,
    ← Nat.shiftLeft_add_eq_or_of_lt (e ++ m).isLt, Nat.shiftLeft_eq, hlow]
  rfl

def packed (u : UnpackedFloat) : Float := .ofModel (.pack u)

private theorem word_packed {u : UnpackedFloat} {s : Sign} {e : BitVec 11} {m : BitVec 52}
    (h : UnpackedFloat.pack Format.binary64 u = UnpackedFloat.packComponents Format.binary64 s e m) :
    sign (packed u) = s ∧ magnitude (packed u) = e.toNat * leadingDigit + m.toNat := by
  have hword : (packed u).toBits.toNat =
      s.toBitVec.toNat * signBit + (e.toNat * leadingDigit + m.toNat) := by
    rw [← toNat_packComponents, ← h]
    rfl
  have he : e.toNat < 2048 := e.isLt
  have hm : m.toNat < 0x10000000000000 := m.isLt
  unfold sign magnitude
  rw [hword]
  unfold signBit leadingDigit
  cases s with
  | positive =>
    rw [show Sign.positive.toBitVec.toNat = 0 from rfl, if_pos (by omega)]
    exact ⟨rfl, by omega⟩
  | negative =>
    rw [show Sign.negative.toBitVec.toNat = 1 from rfl, if_neg (by omega)]
    exact ⟨rfl, by omega⟩

theorem magnitude_packed_notANumber : endless < magnitude (packed .notANumber) := by
  rw [(word_packed (u := .notANumber) rfl).2]
  decide

theorem packed_infinity (s : Sign) :
    sign (packed (.infinity s)) = s ∧ magnitude (packed (.infinity s)) = endless := by
  obtain ⟨hs, hw⟩ := word_packed (u := .infinity s) rfl
  exact ⟨hs, hw.trans (by decide)⟩

theorem packed_zero (s : Sign) :
    sign (packed (.zero s)) = s ∧ magnitude (packed (.zero s)) = 0 :=
  word_packed (u := .zero s) rfl

/-- A carry out of the digits moves into the exponent by itself, up to the infinities. -/
theorem packed_finite (s : Sign) {m : Nat} {e : Int} (hm : 0 < m) (h : Rounded m e) :
    sign (packed (.finite s m e hm)) = s ∧
      magnitude (packed (.finite s m e hm)) =
        min ((e + 1074).toNat * leadingDigit + m) endless := by
  obtain ⟨hlt, hle, hfull⟩ := h
  have hlog : m.log2 + 1 = Format.binary64.mantissaBits ↔ leadingDigit ≤ m := by
    change m.log2 + 1 = 53 ↔ _
    have hge := Nat.le_log2 (n := m) (k := 52) (by omega)
    have hl := Nat.log2_lt (n := m) (k := 53) (by omega)
    unfold leadingDigit at *
    omega
  by_cases hover : 2 ^ 11 ≤ (e + 1023 + 52).toNat + 1
  · have hpack : UnpackedFloat.pack Format.binary64 (.finite s m e hm) =
        UnpackedFloat.packComponents Format.binary64 s (-1#_) 0 := if_pos hover
    obtain ⟨hs, hw⟩ := word_packed hpack
    refine ⟨hs, hw.trans ?_⟩
    rw [show (-1#_ : BitVec 11).toNat * leadingDigit + (0 : BitVec 52).toNat = endless by decide]
    unfold endless leadingDigit at *
    omega
  · by_cases hnormal : leadingDigit ≤ m
    · have hpack : UnpackedFloat.pack Format.binary64 (.finite s m e hm) =
          UnpackedFloat.packComponents Format.binary64 s (BitVec.ofNat _ (e + 1023 + 52).toNat)
            (BitVec.ofNat _ m) := (if_neg hover).trans (if_pos (hlog.mpr hnormal))
      obtain ⟨hs, hw⟩ := word_packed hpack
      refine ⟨hs, hw.trans ?_⟩
      rw [BitVec.toNat_ofNat, BitVec.toNat_ofNat]
      unfold endless leadingDigit at *
      omega
    · have hpack : UnpackedFloat.pack Format.binary64 (.finite s m e hm) =
          UnpackedFloat.packComponents Format.binary64 s 0#_ (BitVec.ofNat _ m) :=
        (if_neg hover).trans (if_neg fun h => hnormal (hlog.mp h))
      obtain ⟨hs, hw⟩ := word_packed hpack
      refine ⟨hs, hw.trans ?_⟩
      rw [BitVec.toNat_ofNat, BitVec.toNat_ofNat]
      unfold endless leadingDigit at *
      omega

/-- Whatever is a number is packed into one. -/
theorem magnitude_packed_le {u : UnpackedFloat} (h : u ≠ .notANumber) :
    magnitude (packed u) ≤ endless := by
  cases u with
  | notANumber => exact absurd rfl h
  | infinity s => exact Nat.le_of_eq (packed_infinity s).2
  | zero s =>
    rw [(packed_zero s).2]
    exact Nat.zero_le _
  | finite s m e hm =>
    have hpack : ∃ (e' : BitVec 11) (m' : BitVec 52),
        UnpackedFloat.pack Format.binary64 (.finite s m e hm) =
          UnpackedFloat.packComponents Format.binary64 s e' m' ∧
        e'.toNat * leadingDigit + m'.toNat ≤ endless := by
      by_cases hover : 2 ^ 11 ≤ (e + 1023 + 52).toNat + 1
      · exact ⟨_, _, if_pos hover, by decide⟩
      · by_cases hnormal : m.log2 + 1 = Format.binary64.mantissaBits
        · refine ⟨BitVec.ofNat _ (e + 1023 + 52).toNat, BitVec.ofNat _ m,
            (if_neg hover).trans (if_pos hnormal), ?_⟩
          rw [BitVec.toNat_ofNat, BitVec.toNat_ofNat]
          unfold endless leadingDigit
          omega
        · refine ⟨0#_, BitVec.ofNat _ m, (if_neg hover).trans (if_neg hnormal), ?_⟩
          rw [BitVec.toNat_ofNat, BitVec.toNat_ofNat]
          unfold endless leadingDigit
          omega
    obtain ⟨e', m', hpack, hle⟩ := hpack
    rw [(word_packed hpack).2]
    exact hle

end MetricCapture.Number
