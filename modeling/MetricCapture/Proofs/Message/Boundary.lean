import MetricCapture.Proofs.Message.Notice
/-! Characters of events: no line is refused for a declared length that splits one. A length that ends
inside a character is refused before anything is decoded, since no bar stands there. -/
namespace MetricCapture
open MetricCapture.Text MetricCapture.Number

namespace Reading

/-- A line is refused as its text is. -/
theorem ofLine_of_reject {line : String} (some_text : trimEnd line.toList ≠ []) {reason : Reason}
    {detail : String} (h : Message.parseTrimmed (trimEnd line.toList) = Message.reject reason detail) :
    ofLine line = .ok (.failure ⟨reason, line, some detail⟩) := by
  unfold ofLine
  dsimp only
  rw [if_neg (mt List.isEmpty_iff.mp some_text), h]
  rfl

/-- Every failure tells what is wrong in words that go with its reason, but that of an empty line. -/
theorem worded_of_failure {line : String} {f : Failure} (h : ofLine line = .ok (.failure f)) :
    f.detail = none ∨ ∃ detail, f.detail = some detail ∧ Message.Worded f.reason detail := by
  by_cases hempty : allBlank line.toList = true
  · rw [ofLine_blank hempty] at h
    cases h
    exact .inl rfl
  rcases ofLine_cases h (mt (trimEnd_eq_nil_iff _).mp hempty) with ⟨m, _, hr⟩ | ⟨d, hd, hr⟩
  · cases hr
  · cases hr
    have hworded : BreaksWith (fun t => ∀ d, t = .defect d → Message.Worded d.reason d.detail)
        (Message.parseTrimmed (trimEnd line.toList)) := by
      refine Message.breaksWith_parseTrimmed ?_ (fun _ _ => nofun) _
      rintro reason detail worded _ ⟨⟩
      exact worded
    exact .inr ⟨d.detail, rfl, hworded _ hd d rfl⟩

end Reading

namespace Message

/-- A refusal that begins with none of the words there are is not worded. -/
theorem Worded.ne {reason : Reason} {detail text : String} (h : Worded reason detail)
    (unknown : ∀ words ∈ wordings reason, ¬ words.toList <+: text.toList) : detail ≠ text := by
  obtain ⟨known, quoted⟩ := h
  rintro rfl
  refine unknown _ known ?_
  rw [String.toList_append]
  exact List.prefix_append _ _

namespace Notice

/-- What becomes of a line with an event that declares the lengths `n` and `k` of the parts of what
follows its header. -/
structure Divides (line : String) (after : List Char) (n k : Nat) : Prop where
  /-- Lengths that fit cut out bytes that can be decoded, and are refused for a title of no bytes alone. -/
  decoded : Fits n k (Utf8.encode after) →
    ∃ title trailer, Utf8.decode ((Utf8.encode after).take n) = .ok title ∧
      Utf8.decode ((Utf8.encode after).drop (n + 1 + k + 1)) = .ok trailer ∧
      (n ≠ 0 → split n k (Utf8.encode after) = .ok (title, trailer))
  /-- Lengths that do not fit are refused, for that of the title first. -/
  refused : ¬ Fits n k (Utf8.encode after) →
    Reading.ofLine line =
        .ok (.failure ⟨.malformedTagSection, line, some "event title length mismatch"⟩) ∨
      Reading.ofLine line =
        .ok (.failure ⟨.malformedTagSection, line, some "event text length mismatch"⟩)
  title_inside : Utf8.Inside after n →
    Reading.ofLine line =
      .ok (.failure ⟨.malformedTagSection, line, some "event title length mismatch"⟩)
  text_inside : (Utf8.encode after)[n]? = some bar → Utf8.Inside after (n + 1 + k) →
    Reading.ofLine line =
      .ok (.failure ⟨.malformedTagSection, line, some "event text length mismatch"⟩)

/-- No bar stands inside a character. -/
theorem ne_bar_of_inside {cs : List Char} {place : Nat} (h : Utf8.Inside cs place) :
    ∃ b, (Utf8.encode cs)[place]? = some b ∧ b ≠ bar := by
  obtain ⟨b, hb, hwide⟩ := h.exists_getElem?
  refine ⟨b, hb, ?_⟩
  rintro rfl
  exact absurd hwide (by decide)

variable {line : String} {titleDigits textDigits after : List Char} {n k : Nat}

/-- A line is refused as its declared lengths are. -/
theorem ofLine_of_split (header : Header (trimEnd line.toList) titleDigits textDigits after)
    (title_length : readInteger titleDigits = .ok n) (said_length : readInteger textDigits = .ok k)
    {reason : Reason} {detail : String} (h : split n k (Utf8.encode after) = reject reason detail) :
    Reading.ofLine line = .ok (.failure ⟨reason, line, some detail⟩) := by
  obtain ⟨rest, hrest⟩ : opening <+: trimEnd line.toList := by
    rw [header.text_eq, List.append_assoc, List.append_assoc]
    exact List.prefix_append _ _
  refine Reading.ofLine_of_reject (hrest ▸ List.cons_ne_nil _ _) ?_
  rw [← hrest, parseTrimmed_notice, hrest, parse_of_header header title_length said_length, h]
  rfl

theorem divides (header : Header (trimEnd line.toList) titleDigits textDigits after)
    (title_length : readInteger titleDigits = .ok n) (said_length : readInteger textDigits = .ok k) :
    Divides line after n k where
  decoded := Fits.decode
  refused h := by
    rcases split_of_not_fits h with hsplit | hsplit
    · exact .inl (ofLine_of_split header title_length said_length hsplit)
    · exact .inr (ofLine_of_split header title_length said_length hsplit)
  title_inside h := by
    obtain ⟨b, hb, hne⟩ := ne_bar_of_inside h
    refine ofLine_of_split header title_length said_length (split_of_title ?_)
    exact fun hbar => hne (Option.some.inj (hb.symm.trans hbar))
  text_inside htitle h := by
    obtain ⟨b, hb, hne⟩ := ne_bar_of_inside h
    refine ofLine_of_split header title_length said_length (split_of_text htitle ?_)
    exact fun hfits => hne (hfits.text_closed b hb)

end Notice
end Message

/-- No line is refused for a length that splits a character. Where the lengths that an event declares fit,
its title and what stands behind its text can be decoded, and where one ends inside a character they
do not fit. -/
theorem Reading.ofLine_splits_no_character (line : String) :
    (∀ f, ofLine line = .ok (.failure f) → f.detail ≠ some "event length splits a character") ∧
      ∀ {titleDigits textDigits after : List Char} {n k : Nat},
        Message.Notice.Header (trimEnd line.toList) titleDigits textDigits after →
        readInteger titleDigits = .ok n → readInteger textDigits = .ok k →
        Message.Notice.Divides line after n k := by
  refine ⟨fun f h => ?_, Message.Notice.divides⟩
  rcases worded_of_failure h with hnone | ⟨detail, hdetail, worded⟩
  · rw [hnone]
    exact nofun
  · rw [hdetail]
    refine mt Option.some.inj (worded.ne ?_)
    cases f.reason <;> decide

/-- A title of one character and two bytes, and a length of the text that ends inside such a character, or
behind it. -/
theorem Reading.ofLine_splits_no_character_sample :
    ofLine "_e{2,1}:é|ü" =
        .ok (.failure ⟨.malformedTagSection, "_e{2,1}:é|ü", some "event text length mismatch"⟩) ∧
      ∃ title trailer, Message.Notice.split 2 2 (Utf8.encode "é|ü".toList) = .ok (title, trailer) := by
  have hdigits : ∀ digit ∈ [['1'], ['2']], digit ≠ [] ∧ digit.all isDecimal = true := by decide
  constructor
  · have header : Message.Notice.Header (trimEnd "_e{2,1}:é|ü".toList) ['2'] ['1'] "é|ü".toList :=
      ⟨by decide, hdigits _ (by decide), hdigits _ (by decide)⟩
    have hinside : Utf8.Inside "é|ü".toList (2 + 1 + 1) :=
      @Utf8.Inside.intro _ _ ['é', '|'] [] 'ü' (by decide) (by decide) (by decide)
    exact ((ofLine_splits_no_character _).2 header rfl rfl).text_inside (by decide) hinside
  · have header : Message.Notice.Header (trimEnd "_e{2,2}:é|ü".toList) ['2'] ['2'] "é|ü".toList :=
      ⟨by decide, hdigits _ (by decide), hdigits _ (by decide)⟩
    have hend : (Utf8.encode "é|ü".toList)[2 + 1 + 2]? = none := by decide
    have hfits : Message.Notice.Fits 2 2 (Utf8.encode "é|ü".toList) :=
      ⟨by decide, by decide, fun _ hb => nomatch hend.symm.trans hb⟩
    obtain ⟨title, trailer, _, _, hsplit⟩ := ((ofLine_splits_no_character _).2 header rfl rfl).decoded hfits
    exact ⟨title, trailer, hsplit (by decide)⟩

end MetricCapture
