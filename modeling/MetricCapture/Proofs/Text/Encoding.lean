import MetricCapture.Number.Core
import MetricCapture.Text.Utf8
/-! Text and its bytes: what is encoded is decoded to the same text without a fault, and a character
of ASCII is one byte, which stands for nothing else, so that bytes cut in front of one are cut between
two characters. A text has no more characters than its bytes, and at most four times as many bytes as
characters. -/
namespace MetricCapture.Text.Utf8

private theorem toNat_byte {n : Nat} (h : n < 256) : (UInt8.ofNat n).toNat = n := by
  rw [UInt8.toNat_ofNat']
  exact Nat.mod_eq_of_lt h

private theorem char_bounds (c : Char) : c.toNat < 0xD800 ∨ 0xDFFF < c.toNat ∧ c.toNat < 0x110000 :=
  c.valid

private theorem encodeChar_one {c : Char} (h : c.toNat ≤ 0x7f) :
    String.utf8EncodeChar c = [UInt8.ofNat c.toNat] :=
  if_pos h

private theorem encodeChar_two {c : Char} (h : 0x7f < c.toNat) (h' : c.toNat ≤ 0x7ff) :
    String.utf8EncodeChar c =
      [UInt8.ofNat (c.toNat / 64 % 0x20 + 0xc0), UInt8.ofNat (c.toNat % 0x40 + 0x80)] := by
  have h := Nat.not_le_of_lt h
  exact (if_neg h).trans (if_pos h')

private theorem encodeChar_three {c : Char} (h : 0x7ff < c.toNat) (h' : c.toNat ≤ 0xffff) :
    String.utf8EncodeChar c =
      [UInt8.ofNat (c.toNat / 4096 % 0x10 + 0xe0), UInt8.ofNat (c.toNat / 64 % 0x40 + 0x80),
        UInt8.ofNat (c.toNat % 0x40 + 0x80)] := by
  have h1 : ¬ c.toNat ≤ 0x7f := by omega
  have h2 := Nat.not_le_of_lt h
  exact (if_neg h1).trans ((if_neg h2).trans (if_pos h'))

private theorem encodeChar_four {c : Char} (h : 0xffff < c.toNat) :
    String.utf8EncodeChar c =
      [UInt8.ofNat (c.toNat / 262144 % 0x08 + 0xf0), UInt8.ofNat (c.toNat / 4096 % 0x40 + 0x80),
        UInt8.ofNat (c.toNat / 64 % 0x40 + 0x80), UInt8.ofNat (c.toNat % 0x40 + 0x80)] := by
  have h1 : ¬ c.toNat ≤ 0x7f := by omega
  have h2 : ¬ c.toNat ≤ 0x7ff := by omega
  have h3 := Nat.not_le_of_lt h
  exact (if_neg h1).trans ((if_neg h2).trans (if_neg h3))

namespace Decoder

/-- The byte that begins a character of several bytes is kept until the character is whole. -/
theorem start_opening {position : Nat} {ps : List Piece} {b : UInt8} {missing value low high : Nat}
    (h : opening? b.toNat = some (missing, value, low, high)) :
    start ⟨position, none, ps⟩ b =
      ⟨position + 1, some ⟨b, position, 1, value, missing, low, high⟩, ps⟩ := by
  have hb : ¬ b.toNat < 0x80 := by
    intro hlt
    unfold opening? at h
    simp only [Bool.and_eq_true, decide_eq_true_eq] at h
    rw [if_neg (by omega), if_neg (by omega), if_neg (by omega)] at h
    cases h
  unfold start
  dsimp only
  rw [if_neg hb, h]

/-- The last byte of a character makes it whole. -/
theorem step_last {position : Nat} {ps : List Piece} {b : UInt8} {p : Pending}
    (hm : p.missing = 1) (hl : p.low ≤ b.toNat) (hh : b.toNat ≤ p.high) :
    step ⟨position, some p, ps⟩ b =
      ⟨position + 1, none, .char (Char.ofNat (64 * p.value + (b.toNat - 0x80))) :: ps⟩ := by
  unfold step
  dsimp only
  rw [if_pos (by simp [hl, hh]), if_pos hm]

/-- A byte before the last brings six bits of a character. -/
theorem step_more {position : Nat} {ps : List Piece} {b : UInt8} {p : Pending}
    (hm : p.missing ≠ 1) (hl : p.low ≤ b.toNat) (hh : b.toNat ≤ p.high) :
    step ⟨position, some p, ps⟩ b =
      ⟨position + 1, some ⟨p.lead, p.start, p.seen + 1, 64 * p.value + (b.toNat - 0x80),
        p.missing - 1, 0x80, 0xBF⟩, ps⟩ := by
  unfold step
  dsimp only
  rw [if_pos (by simp [hl, hh]), if_neg hm]

private theorem two_bytes (position : Nat) (ps : List Piece) {a b : UInt8}
    (ha : 0xC2 ≤ a.toNat ∧ a.toNat ≤ 0xDF) (hb : 0x80 ≤ b.toNat ∧ b.toNat ≤ 0xBF) :
    [a, b].foldl step ⟨position, none, ps⟩ =
      ⟨position + 2, none, .char (Char.ofNat (64 * (a.toNat - 0xC0) + (b.toNat - 0x80))) :: ps⟩ := by
  have ho : opening? a.toNat = some (1, a.toNat - 0xC0, 0x80, 0xBF) := by
    unfold opening?
    rw [if_pos (by simpa using ha)]
  rw [List.foldl_cons, List.foldl_cons, List.foldl_nil]
  change step (start ⟨position, none, ps⟩ a) b = _
  rw [start_opening ho, step_last rfl hb.1 hb.2]

private theorem three_bytes (position : Nat) (ps : List Piece) {a b c : UInt8}
    (ha : 0xE0 ≤ a.toNat ∧ a.toNat ≤ 0xEF) (hb : 0x80 ≤ b.toNat ∧ b.toNat ≤ 0xBF)
    (hc : 0x80 ≤ c.toNat ∧ c.toNat ≤ 0xBF) (hlow : a.toNat = 0xE0 → 0xA0 ≤ b.toNat)
    (hhigh : a.toNat = 0xED → b.toNat ≤ 0x9F) :
    [a, b, c].foldl step ⟨position, none, ps⟩ =
      ⟨position + 3, none, .char (Char.ofNat
        (64 * (64 * (a.toNat - 0xE0) + (b.toNat - 0x80)) + (c.toNat - 0x80))) :: ps⟩ := by
  have ho : opening? a.toNat = some (2, a.toNat - 0xE0, if a.toNat = 0xE0 then 0xA0 else 0x80,
      if a.toNat = 0xED then 0x9F else 0xBF) := by
    unfold opening?
    rw [if_neg (by simp; omega), if_pos (by simpa using ha)]
  rw [List.foldl_cons, List.foldl_cons, List.foldl_cons, List.foldl_nil]
  change step (step (start ⟨position, none, ps⟩ a) b) c = _
  rw [start_opening ho, step_more (by simp) (by dsimp only; split <;> omega)
    (by dsimp only; split <;> omega), step_last rfl hc.1 hc.2]

private theorem four_bytes (position : Nat) (ps : List Piece) {a b c d : UInt8}
    (ha : 0xF0 ≤ a.toNat ∧ a.toNat ≤ 0xF4) (hb : 0x80 ≤ b.toNat ∧ b.toNat ≤ 0xBF)
    (hc : 0x80 ≤ c.toNat ∧ c.toNat ≤ 0xBF) (hd : 0x80 ≤ d.toNat ∧ d.toNat ≤ 0xBF)
    (hlow : a.toNat = 0xF0 → 0x90 ≤ b.toNat) (hhigh : a.toNat = 0xF4 → b.toNat ≤ 0x8F) :
    [a, b, c, d].foldl step ⟨position, none, ps⟩ =
      ⟨position + 4, none, .char (Char.ofNat
        (64 * (64 * (64 * (a.toNat - 0xF0) + (b.toNat - 0x80)) + (c.toNat - 0x80)) +
          (d.toNat - 0x80))) :: ps⟩ := by
  have ho : opening? a.toNat = some (3, a.toNat - 0xF0, if a.toNat = 0xF0 then 0x90 else 0x80,
      if a.toNat = 0xF4 then 0x8F else 0xBF) := by
    unfold opening?
    rw [if_neg (by simp; omega), if_neg (by simp; omega), if_pos (by simpa using ha)]
  rw [List.foldl_cons, List.foldl_cons, List.foldl_cons, List.foldl_cons, List.foldl_nil]
  change step (step (step (start ⟨position, none, ps⟩ a) b) c) d = _
  rw [start_opening ho, step_more (by simp) (by dsimp only; split <;> omega)
    (by dsimp only; split <;> omega), step_more (by simp) hc.1 hc.2, step_last rfl hd.1 hd.2]

/-- The bytes of a character are decoded to it. -/
theorem foldl_step_encodeChar (c : Char) (position : Nat) (ps : List Piece) :
    ∃ next, (String.utf8EncodeChar c).foldl step ⟨position, none, ps⟩ =
      ⟨next, none, .char c :: ps⟩ := by
  have hc := char_bounds c
  have hback : Char.ofNat c.toNat = c := Char.ofNat_toNat c
  -- One case for each length, as the encoder has them.
  by_cases h1 : c.toNat ≤ 0x7f
  · refine ⟨position + 1, ?_⟩
    have hn : (UInt8.ofNat c.toNat).toNat = c.toNat := toNat_byte (by omega)
    rw [encodeChar_one h1]
    simp only [List.foldl_cons, List.foldl_nil, step, start, hn]
    rw [if_pos (by omega), hback]
  have hlast : (UInt8.ofNat (c.toNat % 0x40 + 0x80)).toNat = c.toNat % 0x40 + 0x80 :=
    toNat_byte (by omega)
  by_cases h2 : c.toNat ≤ 0x7ff
  · have hfirst : (UInt8.ofNat (c.toNat / 64 % 0x20 + 0xc0)).toNat = c.toNat / 64 + 0xc0 := by
      rw [toNat_byte (by omega)]
      omega
    refine ⟨position + 2, ?_⟩
    rw [encodeChar_two (by omega) h2, two_bytes position ps (by omega) (by omega), hfirst, hlast,
      show 64 * (c.toNat / 64 + 0xc0 - 0xC0) + (c.toNat % 0x40 + 0x80 - 0x80) = c.toNat by omega,
      hback]
  have hmid : (UInt8.ofNat (c.toNat / 64 % 0x40 + 0x80)).toNat = c.toNat / 64 % 0x40 + 0x80 :=
    toNat_byte (by omega)
  by_cases h3 : c.toNat ≤ 0xffff
  · have hfirst : (UInt8.ofNat (c.toNat / 4096 % 0x10 + 0xe0)).toNat = c.toNat / 4096 + 0xe0 := by
      rw [toNat_byte (by omega)]
      omega
    refine ⟨position + 3, ?_⟩
    rw [encodeChar_three (by omega) h3, three_bytes position ps (by omega) (by omega) (by omega)
      (by omega) (by omega), hfirst, hmid, hlast,
      show 64 * (64 * (c.toNat / 4096 + 0xe0 - 0xE0) + (c.toNat / 64 % 0x40 + 0x80 - 0x80)) +
        (c.toNat % 0x40 + 0x80 - 0x80) = c.toNat by omega, hback]
  · have hfirst : (UInt8.ofNat (c.toNat / 262144 % 0x08 + 0xf0)).toNat = c.toNat / 262144 + 0xf0 := by
      rw [toNat_byte (by omega)]
      omega
    have hsecond : (UInt8.ofNat (c.toNat / 4096 % 0x40 + 0x80)).toNat =
        c.toNat / 4096 % 0x40 + 0x80 := toNat_byte (by omega)
    refine ⟨position + 4, ?_⟩
    rw [encodeChar_four (by omega), four_bytes position ps (by omega) (by omega) (by omega)
      (by omega) (by omega) (by omega), hfirst, hsecond, hmid, hlast,
      show 64 * (64 * (64 * (c.toNat / 262144 + 0xf0 - 0xF0) +
        (c.toNat / 4096 % 0x40 + 0x80 - 0x80)) + (c.toNat / 64 % 0x40 + 0x80 - 0x80)) +
        (c.toNat % 0x40 + 0x80 - 0x80) = c.toNat by omega, hback]

theorem foldl_step_encode (cs : List Char) (position : Nat) (ps : List Piece) :
    ∃ next, (encode cs).foldl step ⟨position, none, ps⟩ =
      ⟨next, none, (cs.map Piece.char).reverse ++ ps⟩ := by
  induction cs generalizing position ps with
  | nil => exact ⟨position, rfl⟩
  | cons c cs ih =>
    obtain ⟨mid, hmid⟩ := foldl_step_encodeChar c position ps
    obtain ⟨next, hnext⟩ := ih mid (.char c :: ps)
    refine ⟨next, ?_⟩
    rw [encode, List.flatMap_cons, List.foldl_append, hmid]
    change (encode cs).foldl step _ = _
    rw [hnext, List.map_cons, List.reverse_cons, List.append_assoc]
    rfl

end Decoder

/-- Encoded text is decoded to its characters, none of them at fault. -/
theorem pieces_encode (cs : List Char) : pieces (encode cs) = cs.map Piece.char := by
  obtain ⟨next, h⟩ := Decoder.foldl_step_encode cs 0 []
  unfold pieces
  rw [show Decoder.empty = ⟨0, none, []⟩ from rfl, h, List.append_nil]
  exact List.reverse_reverse _

private theorem toChar_char (cs : List Char) : (cs.map Piece.char).map Piece.toChar = cs := by
  rw [List.map_map]
  exact List.map_id cs

theorem decodeLossy_encode (cs : List Char) : decodeLossy (encode cs) = cs := by
  rw [decodeLossy, pieces_encode, toChar_char]

theorem decode_encode (cs : List Char) : decode (encode cs) = .ok cs := by
  have hnone : (cs.map Piece.char).findSome? Piece.fault? = none := by
    rw [List.findSome?_eq_none_iff]
    intro p hp
    obtain ⟨c, _, rfl⟩ := List.mem_map.mp hp
    rfl
  unfold decode
  rw [pieces_encode]
  dsimp only
  rw [hnone, toChar_char]

/-- Different texts have different bytes. -/
theorem ofString_inj {s t : String} : ofString s = ofString t ↔ s = t := by
  refine ⟨fun h => ?_, congrArg ofString⟩
  unfold ofString at h
  have hs := decode_encode s.toList
  rw [h, decode_encode] at hs
  exact String.toList_inj.mp (Except.ok.inj hs).symm

/-- A begun character that cannot end up in ASCII: even the smallest of the bytes to come would
bring it beyond. -/
structure Pending.Wide (p : Pending) : Prop where
  missing : 0 < p.missing
  low : 0x80 ≤ p.low
  value : 128 ≤ 64 ^ p.missing * p.value + 64 ^ (p.missing - 1) * (p.low - 0x80)

namespace Decoder

structure Traced (d : Decoder) (read : List UInt8) : Prop where
  pending : ∀ p, d.pending = some p → p.Wide
  chars : ∀ c, .char c ∈ d.pieces → 0 < c.toNat → c.toNat < 128 → UInt8.ofNat c.toNat ∈ read

private theorem toNat_valid {n : Nat} (h : n.isValidChar) : (Char.ofNat n).toNat = n := by
  unfold Char.ofNat
  rw [dif_pos h]
  rfl

private theorem toNat_charOfNat (n : Nat) : (Char.ofNat n).toNat = n ∨ (Char.ofNat n).toNat = 0 := by
  by_cases h : n.isValidChar
  · exact .inl (toNat_valid h)
  · right
    unfold Char.ofNat
    rw [dif_neg h]
    rfl

private theorem opening_wide {n missing value low high seen start : Nat} {lead : UInt8}
    (h : opening? n = some (missing, value, low, high)) :
    (⟨lead, start, seen, value, missing, low, high⟩ : Pending).Wide := by
  unfold opening? at h
  simp only [Bool.and_eq_true, decide_eq_true_eq] at h
  split at h
  · simp only [Option.some.injEq, Prod.mk.injEq] at h
    obtain ⟨rfl, rfl, rfl, rfl⟩ := h
    exact ⟨Nat.one_pos, Nat.le_refl _, by dsimp only; omega⟩
  · split at h
    · simp only [Option.some.injEq, Prod.mk.injEq] at h
      obtain ⟨rfl, rfl, rfl, rfl⟩ := h
      exact ⟨Nat.two_pos, by dsimp only; split <;> omega, by dsimp only; split <;> omega⟩
    · split at h
      · simp only [Option.some.injEq, Prod.mk.injEq] at h
        obtain ⟨rfl, rfl, rfl, rfl⟩ := h
        exact ⟨Nat.succ_pos 2, by dsimp only; split <;> omega, by dsimp only; split <;> omega⟩
      · cases h

private theorem start_traced {d : Decoder} {read : List UInt8} {b : UInt8} (h : d.Traced read) :
    (d.start b).Traced (read ++ [b]) := by
  have hold : ∀ c, .char c ∈ d.pieces → 0 < c.toNat → c.toNat < 128 →
      UInt8.ofNat c.toNat ∈ read ++ [b] :=
    fun c hm hp hl => List.mem_append_left [b] (h.chars c hm hp hl)
  unfold start
  dsimp only
  split
  · rename_i hlt
    refine ⟨fun p hp => (by cases hp), fun c hm hp hl => ?_⟩
    rcases List.mem_cons.mp hm with hc | hm
    · cases hc
      have hv : b.toNat.isValidChar := .inl (by omega)
      rw [toNat_valid hv, UInt8.ofNat_toNat]
      exact List.mem_append_right read (List.mem_singleton_self b)
    · exact hold c hm hp hl
  · split
    · rename_i ho
      refine ⟨fun p hp => ?_, hold⟩
      cases hp
      exact opening_wide ho
    · refine ⟨fun p hp => (by cases hp), fun c hm hp hl => ?_⟩
      rcases List.mem_cons.mp hm with hc | hm
      · cases hc
      · exact hold c hm hp hl

private theorem step_traced {d : Decoder} {read : List UInt8} {b : UInt8} (h : d.Traced read) :
    (d.step b).Traced (read ++ [b]) := by
  unfold step
  split
  · exact start_traced h
  · rename_i p hp
    obtain ⟨hm, hl, hv⟩ := h.pending p hp
    dsimp only
    split
    · rename_i hin
      simp only [Bool.and_eq_true, decide_eq_true_eq] at hin
      have hold : ∀ c, .char c ∈ d.pieces → 0 < c.toNat → c.toNat < 128 →
          UInt8.ofNat c.toNat ∈ read ++ [b] :=
        fun c hm hp hl => List.mem_append_left [b] (h.chars c hm hp hl)
      obtain ⟨m, hm'⟩ : ∃ m, p.missing = m + 1 := ⟨p.missing - 1, by omega⟩
      -- The byte is no less than the bound, so the value has grown at least as assumed.
      have hgrow : 128 ≤ 64 ^ m * (64 * p.value + (b.toNat - 0x80)) := by
        rw [hm', Nat.pow_succ, Nat.add_sub_cancel] at hv
        calc 128 ≤ 64 ^ m * 64 * p.value + 64 ^ m * (p.low - 0x80) := hv
          _ ≤ 64 ^ m * 64 * p.value + 64 ^ m * (b.toNat - 0x80) :=
            Nat.add_le_add_left (Nat.mul_le_mul_left _ (by omega)) _
          _ = 64 ^ m * (64 * p.value + (b.toNat - 0x80)) := by rw [Nat.mul_add, Nat.mul_assoc]
      split
      · rename_i hone
        have hz : m = 0 := by omega
        subst hz
        refine ⟨fun p hp => (by cases hp), fun c hm hp hl => ?_⟩
        rcases List.mem_cons.mp hm with hc | hm
        · rw [Piece.char.inj hc] at hp hl
          rcases toNat_charOfNat (64 * p.value + (b.toNat - 0x80)) with he | he <;> omega
        · exact hold c hm hp hl
      · rename_i hmore
        refine ⟨fun p' hp' => ?_, hold⟩
        cases hp'
        exact ⟨by dsimp only; omega, Nat.le_refl _, by dsimp only; rw [hm', Nat.add_sub_cancel]; omega⟩
    · apply start_traced
      refine ⟨fun p hp => (by cases hp), fun c hm hp hl => ?_⟩
      rcases List.mem_cons.mp hm with hc | hm
      · cases hc
      · exact h.chars c hm hp hl

theorem foldl_step_traced {d : Decoder} {read : List UInt8} (bytes : List UInt8)
    (h : d.Traced read) : (bytes.foldl step d).Traced (read ++ bytes) := by
  induction bytes generalizing d read with
  | nil => exact (List.append_nil read).symm ▸ h
  | cons b bytes ih =>
    have hs := ih (step_traced (b := b) h)
    rw [List.append_assoc] at hs
    exact hs

end Decoder

/-- A decoded character of ASCII but NUL was one of the bytes, also amid ill-formed ones. -/
theorem mem_bytes_of_mem_decodeLossy {bytes : List UInt8} {c : Char} (h : c ∈ decodeLossy bytes)
    (hp : 0 < c.toNat) (hl : c.toNat < 128) : UInt8.ofNat c.toNat ∈ bytes := by
  have hempty : Decoder.empty.Traced [] :=
    ⟨fun p hp => (by cases hp), fun c hc => (by cases hc)⟩
  have ht : (bytes.foldl Decoder.step Decoder.empty).Traced bytes :=
    Decoder.foldl_step_traced bytes hempty
  have hr : ∀ f, (Piece.fault f).toChar ≠ c := by
    rintro f rfl
    exact absurd hl (show ¬ replacement.toNat < 128 by decide)
  obtain ⟨piece, hmem, rfl⟩ := List.mem_map.mp h
  cases piece with
  | fault f => exact absurd rfl (hr f)
  | char c =>
    refine ht.chars c ?_ hp hl
    unfold pieces Decoder.finish at hmem
    split at hmem
    · exact List.mem_reverse.mp hmem
    · rcases List.mem_cons.mp (List.mem_reverse.mp hmem) with hc | hc
      · cases hc
      · exact hc

/-- Strict decoding gives nothing else than the lenient one. -/
theorem decodeLossy_of_decode {bytes : List UInt8} {cs : List Char} (h : decode bytes = .ok cs) :
    decodeLossy bytes = cs := by
  unfold decode at h
  dsimp only at h
  split at h
  · cases h
  · exact Except.ok.inj h

theorem encode_append (cs ds : List Char) : encode (cs ++ ds) = encode cs ++ encode ds :=
  List.flatMap_append

/-- A byte of ASCII encodes the character of its number. -/
theorem mem_encodeChar {c : Char} {b : UInt8} (h : b ∈ String.utf8EncodeChar c)
    (hb : b.toNat < 128) : c.toNat = b.toNat := by
  by_cases h1 : c.toNat ≤ 0x7f
  · rw [encodeChar_one h1, List.mem_singleton] at h
    rw [h, toNat_byte (by omega)]
  by_cases h2 : c.toNat ≤ 0x7ff
  · rw [encodeChar_two (by omega) h2] at h
    simp only [List.mem_cons, List.not_mem_nil, or_false] at h
    rcases h with rfl | rfl <;> rw [toNat_byte (by omega)] at hb <;> omega
  by_cases h3 : c.toNat ≤ 0xffff
  · rw [encodeChar_three (by omega) h3] at h
    simp only [List.mem_cons, List.not_mem_nil, or_false] at h
    rcases h with rfl | rfl | rfl <;> rw [toNat_byte (by omega)] at hb <;> omega
  · rw [encodeChar_four (by omega)] at h
    simp only [List.mem_cons, List.not_mem_nil, or_false] at h
    rcases h with rfl | rfl | rfl | rfl <;> rw [toNat_byte (by omega)] at hb <;> omega

theorem mem_of_mem_encode {cs : List Char} {c : Char} {b : UInt8} (h : b ∈ encode cs)
    (hb : b.toNat < 128) (hc : c.toNat = b.toNat) : c ∈ cs := by
  obtain ⟨d, hd, hm⟩ := List.mem_flatMap.mp h
  rw [Char.toNat_inj.mp (hc.trans (mem_encodeChar hm hb).symm)]
  exact hd

theorem encodeChar_ne_nil (c : Char) : String.utf8EncodeChar c ≠ [] := by
  intro he
  have hl := congrArg List.length he
  rw [String.length_utf8EncodeChar] at hl
  exact absurd hl (Nat.ne_of_gt c.utf8Size_pos)

theorem encode_eq_nil_iff {cs : List Char} : encode cs = [] ↔ cs = [] := by
  cases cs with
  | nil => exact ⟨fun _ => rfl, fun _ => rfl⟩
  | cons c cs =>
    refine iff_of_false (fun h => ?_) (List.cons_ne_nil c cs)
    exact encodeChar_ne_nil c (List.append_eq_nil_iff.mp h).1

/-- Text whose bytes end with a byte of ASCII ends with its character. -/
theorem getLast?_of_encode {cs : List Char} {c : Char} {b : UInt8}
    (h : (encode cs).getLast? = some b) (hb : b.toNat < 128) (hc : c.toNat = b.toNat) :
    cs.getLast? = some c := by
  rcases List.eq_nil_or_concat cs with rfl | ⟨ds, d, rfl⟩
  · cases h
  · have hd : encode [d] = String.utf8EncodeChar d := List.append_nil _
    have hne : String.utf8EncodeChar d ≠ [] := encodeChar_ne_nil d
    rw [List.concat_eq_append, encode_append, hd, List.getLast?_append,
      List.getLast?_eq_some_getLast hne, Option.some_or] at h
    have hm : b ∈ String.utf8EncodeChar d := Option.some.inj h ▸ List.getLast_mem hne
    rw [Char.toNat_inj.mp (hc.trans (mem_encodeChar hm hb).symm), List.concat_eq_append,
      List.getLast?_concat]

/-- Text that begins with a byte of ASCII begins with its character. -/
theorem head?_of_encode {cs : List Char} {c : Char} {b : UInt8} (h : (encode cs).head? = some b)
    (hb : b.toNat < 128) (hc : c.toNat = b.toNat) : cs.head? = some c := by
  cases cs with
  | nil => cases h
  | cons d cs =>
    have hd : encode (d :: cs) = String.utf8EncodeChar d ++ encode cs := List.flatMap_cons
    have hne : String.utf8EncodeChar d ≠ [] := encodeChar_ne_nil d
    rw [hd, List.head?_append, List.head?_eq_some_head hne, Option.some_or] at h
    have hm : b ∈ String.utf8EncodeChar d := Option.some.inj h ▸ List.head_mem hne
    rw [Char.toNat_inj.mp (hc.trans (mem_encodeChar hm hb).symm)]
    rfl

/-- No byte of a character but the first is one of ASCII. -/
theorem not_ascii_of_encodeChar {c : Char} {before behind : List UInt8} {b : UInt8}
    (h : String.utf8EncodeChar c = before ++ b :: behind) (hb : before ≠ []) : 128 ≤ b.toNat := by
  refine Nat.le_of_not_lt fun hlt => ?_
  -- A byte of ASCII is all of its character, and has no byte before it.
  have hc : c.toNat = b.toNat := mem_encodeChar (h ▸ List.mem_append_right _ List.mem_cons_self) (by omega)
  rw [encodeChar_one (by omega), List.singleton_eq_append_iff] at h
  rcases h with ⟨rfl, _⟩ | ⟨_, h⟩
  · exact hb rfl
  · cases h

/-- The bytes of a text that are cut before a byte of ASCII, or behind them all, are cut between two
of its characters. -/
theorem exists_of_encode_eq_append {cs : List Char} {front back : List UInt8}
    (h : encode cs = front ++ back) (hback : ∀ b ∈ back.head?, b.toNat < 128) :
    ∃ ds es, cs = ds ++ es ∧ encode ds = front ∧ encode es = back := by
  induction cs generalizing front with
  | nil =>
    obtain ⟨rfl, rfl⟩ := List.nil_eq_append_iff.mp h
    exact ⟨[], [], rfl, rfl, rfl⟩
  | cons c cs ih =>
    by_cases hfront : front = []
    · subst hfront
      exact ⟨[], c :: cs, rfl, rfl, h⟩
    have hc : encode (c :: cs) = String.utf8EncodeChar c ++ encode cs := List.flatMap_cons
    rw [hc] at h
    rcases List.append_eq_append_iff.mp h with ⟨more, rfl, hcs⟩ | ⟨cut, hchar, hcs⟩
    · obtain ⟨ds, es, rfl, rfl, hes⟩ := ih hcs
      exact ⟨c :: ds, es, rfl, List.flatMap_cons, hes⟩
    cases cut with
    | nil =>
      rw [List.append_nil] at hchar
      rw [List.nil_append] at hcs
      exact ⟨[c], cs, rfl, (List.append_nil _).trans hchar, hcs.symm⟩
    | cons b cut =>
      rw [hcs] at hback
      exact absurd (hback b rfl) (Nat.not_lt_of_le (not_ascii_of_encodeChar hchar hfront))

inductive Inside (cs : List Char) (place : Nat) : Prop where
  | intro {before behind : List Char} {c : Char} (text_eq : cs = before ++ c :: behind)
      (begun : (encode before).length < place)
      (not_ended : place < (encode before).length + c.utf8Size)

/-- No byte of ASCII stands inside a character. -/
theorem Inside.exists_getElem? {cs : List Char} {place : Nat} (h : Inside cs place) :
    ∃ b, (encode cs)[place]? = some b ∧ 128 ≤ b.toNat := by
  obtain ⟨rfl, begun, not_ended⟩ := h
  rename_i before behind c
  obtain ⟨i, rfl⟩ := Nat.exists_eq_add_of_lt begun
  have hi : i + 1 < (String.utf8EncodeChar c).length := by
    rw [String.length_utf8EncodeChar]
    omega
  refine ⟨(String.utf8EncodeChar c)[i + 1], ?_, ?_⟩
  · have hc : encode (c :: behind) = String.utf8EncodeChar c ++ encode behind := List.flatMap_cons
    rw [encode_append, hc, Nat.add_assoc, List.getElem?_append_right (Nat.le_add_right _ _),
      Nat.add_sub_cancel_left, List.getElem?_append_left hi, List.getElem?_eq_getElem hi]
  · have hcut : String.utf8EncodeChar c =
        (String.utf8EncodeChar c).take (i + 1) ++
          (String.utf8EncodeChar c)[i + 1] :: (String.utf8EncodeChar c).drop (i + 2) := by
      rw [← List.drop_eq_getElem_cons hi, List.take_append_drop]
    refine not_ascii_of_encodeChar hcut fun hnil => ?_
    rcases List.take_eq_nil_iff.mp hnil with h | h
    · cases h
    · exact encodeChar_ne_nil c h

namespace Decoder

def held (d : Decoder) : Nat :=
  d.pieces.length + if d.pending.isSome then 1 else 0

theorem held_start {d : Decoder} (h : d.pending = none) (b : UInt8) :
    (d.start b).held = d.held + 1 := by
  unfold start
  dsimp only
  split
  · simp [held, h]
  · split <;> simp [held, h]

theorem held_step_le (d : Decoder) (b : UInt8) : (d.step b).held ≤ d.held + 1 := by
  unfold step
  cases hp : d.pending with
  | none => exact Nat.le_of_eq (held_start hp b)
  | some p =>
    dsimp only
    split
    · split <;> simp [held, hp]
    · rw [held_start rfl]
      simp [held, hp]

theorem held_foldl_le (d : Decoder) (bytes : List UInt8) :
    (bytes.foldl step d).held ≤ d.held + bytes.length := by
  induction bytes generalizing d with
  | nil => exact Nat.le_refl _
  | cons b bytes ih =>
    have hstep := held_step_le d b
    have hrest := ih (d.step b)
    rw [List.foldl_cons, List.length_cons]
    omega

theorem length_finish (d : Decoder) : d.finish.length = d.held := by
  unfold finish held
  cases d.pending <;> simp

end Decoder

/-- There are no more characters than bytes. -/
theorem length_decode_le {bytes : List UInt8} {cs : List Char} (h : decode bytes = .ok cs) :
    cs.length ≤ bytes.length := by
  have hheld := Decoder.held_foldl_le .empty bytes
  rw [← decodeLossy_of_decode h, decodeLossy, List.length_map, pieces, Decoder.length_finish]
  rwa [show Decoder.empty.held = 0 from rfl, Nat.zero_add] at hheld

/-- A character has at most four bytes. -/
theorem length_encode_le (cs : List Char) : (encode cs).length ≤ 4 * cs.length := by
  induction cs with
  | nil => exact Nat.zero_le _
  | cons c cs ih =>
    change (String.utf8EncodeChar c ++ encode cs).length ≤ _
    have hc := c.utf8Size_le_four
    rw [List.length_append, String.length_utf8EncodeChar, List.length_cons]
    omega

theorem utf8ByteSize_le (s : String) : s.utf8ByteSize ≤ 4 * s.length := by
  have hsize : s.utf8ByteSize = (encode s.toList).length := by
    rw [← String.size_toByteArray, ← String.utf8Encode_toList]
    simp [List.utf8Encode, encode]
  rw [hsize, ← String.length_toList]
  exact length_encode_le _

end MetricCapture.Text.Utf8
