import MetricCapture.Message.Notice
import MetricCapture.Proofs.Text.Encoding
/-! The lengths that an event declares. They count bytes, yet where they fit the bytes of a text they cut
it between two of its characters, since a bar must follow where they end. -/
namespace MetricCapture.Message.Notice
open MetricCapture.Text

/-- The lengths of a title and a text fit the bytes they are declared for: a bar stands behind the
title, and behind the text there is nothing or another bar. -/
structure Fits (titleLength textLength : Nat) (body : List UInt8) : Prop where
  title_closed : body[titleLength]? = some bar
  text_within : titleLength + 1 + textLength ≤ body.length
  text_closed : ∀ b ∈ body[titleLength + 1 + textLength]?, b = bar

theorem encode_bar (cs : List Char) : Utf8.encode ('|' :: cs) = bar :: Utf8.encode cs := rfl

/-- Bytes that begin with a bar are those of a text that does. -/
theorem exists_of_encode_eq_bar {cs : List Char} {bytes : List UInt8}
    (h : Utf8.encode cs = bar :: bytes) : ∃ rest, cs = '|' :: rest ∧ Utf8.encode rest = bytes := by
  obtain ⟨rest, rfl⟩ := List.head?_eq_some_iff.mp
    (Utf8.head?_of_encode (c := '|') (congrArg List.head? h) (by decide) rfl)
  exact ⟨rest, rfl, (List.cons.inj ((encode_bar rest).symm.trans h)).2⟩

/-- What begins with a bar, or is nothing, does so as text and as bytes. -/
theorem closed_iff {tail : List Char} :
    (∀ b ∈ (Utf8.encode tail).head?, b = bar) ↔ ∀ c ∈ tail.head?, c = '|' := by
  cases tail with
  | nil => exact ⟨fun _ => nofun, fun _ => nofun⟩
  | cons c tail =>
    constructor
    · rintro h _ ⟨⟩
      have hne : Utf8.encode (c :: tail) ≠ [] := mt Utf8.encode_eq_nil_iff.mp (List.cons_ne_nil c tail)
      have hhead := List.head?_eq_some_head hne
      have hbar := Utf8.head?_of_encode (c := '|') (h _ hhead ▸ hhead) (by decide) rfl
      exact Option.some.inj hbar
    · intro h
      obtain rfl := h c rfl
      rintro _ ⟨⟩
      rfl

theorem encode_parts (title said tail : List Char) :
    Utf8.encode (title ++ '|' :: said ++ tail) =
      Utf8.encode title ++ bar :: (Utf8.encode said ++ Utf8.encode tail) := by
  rw [Utf8.encode_append, Utf8.encode_append, encode_bar, List.append_assoc, List.cons_append]

/-- The bytes behind a bar are those of the text behind it. -/
theorem drop_encode_of_closed {tail : List Char} (closed : ∀ c ∈ tail.head?, c = '|') :
    (Utf8.encode tail).drop 1 = Utf8.encode (tail.drop 1) := by
  cases tail with
  | nil => rfl
  | cons c tail =>
    obtain rfl := closed c rfl
    rfl

/-- Where the bytes of a text are cut with bars between the parts, the text is. -/
theorem exists_of_encode_eq_parts {after : List Char} {title said tail : List UInt8}
    (h : Utf8.encode after = title ++ bar :: (said ++ tail)) (closed : ∀ b ∈ tail.head?, b = bar) :
    ∃ t s l, after = t ++ '|' :: s ++ l ∧ Utf8.encode t = title ∧ Utf8.encode s = said ∧
      ∀ c ∈ l.head?, c = '|' := by
  have hbar : bar.toNat < 128 := by decide
  obtain ⟨t, behind, rfl, ht, hbehind⟩ := Utf8.exists_of_encode_eq_append h fun b hb => by
    cases hb
    exact hbar
  obtain ⟨rest, rfl, hrest⟩ := exists_of_encode_eq_bar hbehind
  obtain ⟨s, l, rfl, hs, rfl⟩ := Utf8.exists_of_encode_eq_append hrest fun b hb => closed b hb ▸ hbar
  exact ⟨t, s, l, (List.append_assoc t ('|' :: s) l).symm, ht, hs, closed_iff.mp closed⟩

section

variable {n k : Nat} {body : List UInt8}

/-- Lengths that fit cut bytes with bars between the parts. -/
theorem Fits.exists_parts (h : Fits n k body) :
    ∃ title said tail, body = title ++ bar :: (said ++ tail) ∧ title.length = n ∧ said.length = k ∧
      ∀ b ∈ tail.head?, b = bar := by
  obtain ⟨hn, hbar⟩ := List.getElem?_eq_some_iff.mp h.title_closed
  have hwithin := h.text_within
  refine ⟨body.take n, (body.drop (n + 1)).take k, (body.drop (n + 1)).drop k, ?_, ?_, ?_, ?_⟩
  · rw [List.take_append_drop, ← hbar, ← List.drop_eq_getElem_cons hn, List.take_append_drop]
  · exact List.length_take_of_le (Nat.le_of_lt hn)
  · rw [List.length_take, List.length_drop]
    omega
  · rw [List.drop_drop, List.head?_drop]
    exact h.text_closed

/-- The check of a title is for the bar behind it: where a byte is, there are as many before it. -/
theorem title_refused_iff :
    ((body.take n).length < n || (body.drop n).head? != some bar) = true ↔ body[n]? ≠ some bar := by
  rw [List.head?_drop, Bool.or_eq_true, decide_eq_true_eq, bne_iff_ne, List.length_take]
  refine or_iff_right_of_imp fun hshort => ?_
  rw [List.getElem?_eq_none (by omega)]
  exact nofun

/-- The check of a text is for the rest. -/
theorem text_refused_iff (h : body[n]? = some bar) :
    ((((body.drop n).drop 1).take k).length < k ||
      (((body.drop n).drop 1).drop k).head?.any (· != bar)) = true ↔ ¬ Fits n k body := by
  obtain ⟨hn, _⟩ := List.getElem?_eq_some_iff.mp h
  rw [List.drop_drop, List.drop_drop, List.head?_drop, List.length_take, List.length_drop,
    Bool.or_eq_true, decide_eq_true_eq, Option.any_eq_true]
  constructor
  · rintro (hshort | ⟨b, hb, hne⟩) hfits
    · have := hfits.text_within
      omega
    · exact bne_iff_ne.mp hne (hfits.text_closed b hb)
  · intro hfits
    rcases Nat.lt_or_ge body.length (n + 1 + k) with hshort | hlong
    · exact .inl (by omega)
    cases hb : body[n + 1 + k]? with
    | none => exact absurd ⟨h, hlong, fun b hb' => nomatch hb.symm.trans hb'⟩ hfits
    | some b =>
      refine .inr ⟨b, rfl, bne_iff_ne.mpr fun hclosed => hfits ⟨h, hlong, fun b' hb' => ?_⟩⟩
      exact Option.some.inj (hb'.symm.trans hb) ▸ hclosed

theorem split_of_title (h : body[n]? ≠ some bar) :
    split n k body = reject .malformedTagSection "event title length mismatch" :=
  if_pos (title_refused_iff.mpr h)

theorem split_of_text (h : body[n]? = some bar) (h' : ¬ Fits n k body) :
    split n k body = reject .malformedTagSection "event text length mismatch" :=
  (if_neg (mt title_refused_iff.mp (not_not_intro h))).trans (if_pos ((text_refused_iff h).mpr h'))

/-- Lengths that do not fit are refused, for that of the title first. -/
theorem split_of_not_fits (h : ¬ Fits n k body) :
    split n k body = reject .malformedTagSection "event title length mismatch" ∨
      split n k body = reject .malformedTagSection "event text length mismatch" := by
  by_cases htitle : body[n]? = some bar
  · exact .inr (split_of_text htitle h)
  · exact .inl (split_of_title htitle)

end

/-- A text is cut by the lengths of its title and its text, and no character is split. -/
theorem split_encode {title said tail : List Char} (closed : ∀ c ∈ tail.head?, c = '|') :
    split (Utf8.encode title).length (Utf8.encode said).length
        (Utf8.encode (title ++ '|' :: said ++ tail)) =
      if title = [] then reject .missingName "event without a title"
      else .ok (title, tail.drop 1) := by
  have hclosed : (Utf8.encode tail).head?.any (· != bar) = false := by
    cases tail with
    | nil => rfl
    | cons c tail =>
      obtain rfl := closed c rfl
      rfl
  rw [encode_parts]
  unfold split
  simp [hclosed, drop_encode_of_closed closed, Utf8.encode_eq_nil_iff, Utf8.decode_encode]

variable {n k : Nat} {after : List Char}

/-- Lengths that fit the bytes of a text are those of parts of it. -/
theorem Fits.exists_text (h : Fits n k (Utf8.encode after)) :
    ∃ title said tail, after = title ++ '|' :: said ++ tail ∧ (Utf8.encode title).length = n ∧
      (Utf8.encode said).length = k ∧ ∀ c ∈ tail.head?, c = '|' := by
  obtain ⟨_, _, _, hparts, hn, hk, closed⟩ := h.exists_parts
  obtain ⟨title, said, tail, rfl, rfl, rfl, closed⟩ := exists_of_encode_eq_parts hparts closed
  exact ⟨title, said, tail, rfl, hn, hk, closed⟩

/-- The bytes that lengths that fit cut out of a text, for its title and for what stands behind its
text, are each those of a text of their own. -/
theorem Fits.decode (h : Fits n k (Utf8.encode after)) :
    ∃ title trailer, Utf8.decode ((Utf8.encode after).take n) = .ok title ∧
      Utf8.decode ((Utf8.encode after).drop (n + 1 + k + 1)) = .ok trailer ∧
      (n ≠ 0 → split n k (Utf8.encode after) = .ok (title, trailer)) := by
  obtain ⟨title, said, tail, rfl, rfl, rfl, closed⟩ := h.exists_text
  refine ⟨title, tail.drop 1, ?_, ?_, fun hn => ?_⟩
  · rw [encode_parts, List.take_left, Utf8.decode_encode]
  · have hbehind : (Utf8.encode (title ++ '|' :: said ++ tail)).drop
        ((Utf8.encode title).length + 1 + (Utf8.encode said).length) = Utf8.encode tail := by
      rw [encode_parts, ← List.drop_drop, ← List.drop_drop, List.drop_left, List.drop_succ_cons,
        List.drop_zero, List.drop_left]
    rw [← List.drop_drop, hbehind, drop_encode_of_closed closed, Utf8.decode_encode]
  · rw [split_encode closed, if_neg]
    rintro rfl
    exact hn rfl

/-- Unless the declared lengths are refused, their event has a title, or else is refused for having none. -/
theorem split_cases (n k : Nat) (after : List Char) :
    split n k (Utf8.encode after) = reject .malformedTagSection "event title length mismatch" ∨
      split n k (Utf8.encode after) = reject .malformedTagSection "event text length mismatch" ∨
      split n k (Utf8.encode after) = reject .missingName "event without a title" ∨
      ∃ parts, split n k (Utf8.encode after) = .ok parts := by
  by_cases h : Fits n k (Utf8.encode after)
  · obtain ⟨title, said, tail, rfl, rfl, rfl, closed⟩ := h.exists_text
    rw [split_encode closed]
    split
    · exact .inr (.inr (.inl rfl))
    · exact .inr (.inr (.inr ⟨_, rfl⟩))
  · rcases split_of_not_fits h with h | h
    · exact .inl h
    · exact .inr (.inl h)

end MetricCapture.Message.Notice
