import MetricCapture.Proofs.Text.Encoding
import MetricCapture.Text.Line
/-! Lines: it does not matter how bytes are cut into chunks, no line holds a line feed, and a line
written out is read as it was, less one carriage return at its end. -/
namespace MetricCapture.Text

theorem mem_intercalate_singleton {α : Type} {sep x : α} {pieces : List (List α)}
    (h : x ∈ [sep].intercalate pieces) : x = sep ∨ ∃ piece ∈ pieces, x ∈ piece := by
  induction pieces with
  | nil => exact absurd h List.not_mem_nil
  | cons piece pieces ih =>
    cases pieces with
    | nil => exact .inr ⟨piece, List.mem_cons_self, by simpa [List.intercalate] using h⟩
    | cons next pieces =>
      rw [List.intercalate_cons_cons, List.mem_append, List.mem_append] at h
      rcases h with (h | h) | h
      · exact .inr ⟨piece, List.mem_cons_self, h⟩
      · exact .inl (List.mem_singleton.mp h)
      · rcases ih h with h | ⟨p, hp, hx⟩
        · exact .inl h
        · exact .inr ⟨p, List.mem_cons_of_mem piece hp, hx⟩

/-- Pieces with separators between them are put together from two parts. -/
theorem intercalate_append {α : Type} {sep : α} {pieces others : List (List α)} (hp : pieces ≠ [])
    (ho : others ≠ []) :
    [sep].intercalate (pieces ++ others) =
      [sep].intercalate pieces ++ sep :: [sep].intercalate others := by
  induction pieces with
  | nil => exact absurd rfl hp
  | cons piece pieces ih =>
    cases pieces with
    | nil =>
      obtain ⟨other, others, rfl⟩ := List.exists_cons_of_ne_nil ho
      rw [List.cons_append, List.nil_append, List.intercalate_cons_cons, List.intercalate_singleton,
        List.append_assoc]
      rfl
    | cons next pieces =>
      rw [List.cons_append, List.cons_append, List.intercalate_cons_cons, ← List.cons_append,
        ih (List.cons_ne_nil next pieces), List.intercalate_cons_cons]
      simp only [List.append_assoc]

/-- Pieces of a text are no longer than the text, and hardly more than its items. -/
theorem splitOn_bounds {α : Type} [BEq α] [LawfulBEq α] (sep : α) (xs : List α) :
    (xs.splitOn sep).length ≤ xs.length + 1 ∧ ∀ piece ∈ xs.splitOn sep, piece.length ≤ xs.length := by
  have hbounds : ∀ pieces : List (List α), pieces.length ≤ ([sep].intercalate pieces).length + 1 ∧
      ∀ piece ∈ pieces, piece.length ≤ ([sep].intercalate pieces).length := by
    intro pieces
    induction pieces with
    | nil => exact ⟨Nat.zero_le _, nofun⟩
    | cons piece pieces ih =>
      cases pieces with
      | nil => simp [List.intercalate]
      | cons next pieces =>
        obtain ⟨hcount, hlength⟩ := ih
        have hlonger : ([sep].intercalate (piece :: next :: pieces)).length =
            piece.length + 1 + ([sep].intercalate (next :: pieces)).length := by
          rw [List.intercalate_cons_cons, List.length_append, List.length_append, List.length_singleton]
        rw [hlonger]
        refine ⟨?_, List.forall_mem_cons.mpr ⟨by omega, fun p hp => ?_⟩⟩
        · rw [List.length_cons]
          omega
        · exact Nat.le_trans (hlength p hp) (Nat.le_add_left _ _)
  have h := hbounds (xs.splitOn sep)
  rwa [List.intercalate_splitOn] at h

section Pieces

variable {α : Type} [BEq α]

/-- More items go on with the last piece of those before them. -/
theorem splitOn_append {sep : α} {pieces : List (List α)} {last xs : List α} (ys : List α)
    (h : xs.splitOn sep = pieces ++ [last]) :
    (xs ++ ys).splitOn sep = pieces ++ (last ++ ys).splitOn sep := by
  induction xs generalizing pieces last with
  | nil =>
    change [] ++ [[]] = pieces ++ [last] at h
    obtain ⟨rfl, hlast⟩ := List.append_inj' h rfl
    rw [← List.singleton_inj.mp hlast]
    rfl
  | cons x xs ih =>
    obtain ⟨first, others, hxs⟩ := List.exists_cons_of_ne_nil (List.splitOn_ne_nil sep xs)
    rw [List.splitOn_cons_eq_if_modifyHead, hxs, List.modifyHead_cons] at h
    rw [List.cons_append, List.splitOn_cons_eq_if_modifyHead]
    by_cases hx : (x == sep) = true
    · rw [if_pos hx] at h ⊢
      cases pieces with
      | nil => cases h
      | cons piece pieces =>
        obtain ⟨rfl, hrest⟩ := List.cons.inj h
        rw [ih (hxs.trans hrest)]
        rfl
    · rw [if_neg hx] at h ⊢
      cases pieces with
      | nil =>
        obtain ⟨rfl, rfl⟩ := List.cons.inj h
        have hgo : (xs ++ ys).splitOn sep = [] ++ (first ++ ys).splitOn sep := ih hxs
        rw [hgo, List.nil_append, List.nil_append, List.cons_append,
          List.splitOn_cons_eq_if_modifyHead, if_neg hx]
      | cons piece pieces =>
        obtain ⟨rfl, rfl⟩ := List.cons.inj h
        have hgo : (xs ++ ys).splitOn sep = first :: pieces ++ (last ++ ys).splitOn sep := ih hxs
        rw [hgo]
        rfl

/-- No piece holds what separates it from the next. -/
theorem not_mem_of_mem_splitOn [LawfulBEq α] {sep : α} {xs piece : List α} (h : piece ∈ xs.splitOn sep) :
    sep ∉ piece := by
  induction xs generalizing piece with
  | nil =>
    rw [List.splitOn_nil, List.mem_singleton] at h
    rw [h]
    exact List.not_mem_nil
  | cons x xs ih =>
    rw [List.splitOn_cons_eq_if_modifyHead] at h
    split at h
    · rcases List.mem_cons.mp h with rfl | h
      · exact List.not_mem_nil
      · exact ih h
    · rename_i hx
      obtain ⟨first, pieces, hp⟩ := List.exists_cons_of_ne_nil (List.splitOn_ne_nil sep xs)
      rw [hp, List.modifyHead_cons] at h
      rcases List.mem_cons.mp h with rfl | h
      · rw [List.mem_cons, not_or]
        exact ⟨fun he => hx (beq_iff_eq.mpr he.symm), ih (hp ▸ List.mem_cons_self)⟩
      · exact ih (hp ▸ List.mem_cons_of_mem first h)

/-- Pieces hold nothing that the text does not. -/
theorem mem_of_mem_splitOn [LawfulBEq α] {sep x : α} {xs piece : List α} (h : piece ∈ xs.splitOn sep)
    (hx : x ∈ piece) : x ∈ xs := by
  induction xs generalizing piece with
  | nil =>
    rw [List.splitOn_nil, List.mem_singleton] at h
    exact h ▸ hx
  | cons y ys ih =>
    rw [List.splitOn_cons_eq_if_modifyHead] at h
    split at h
    · rcases List.mem_cons.mp h with rfl | h
      · exact absurd hx List.not_mem_nil
      · exact List.mem_cons_of_mem y (ih h hx)
    · obtain ⟨first, pieces, hp⟩ := List.exists_cons_of_ne_nil (List.splitOn_ne_nil sep ys)
      rw [hp, List.modifyHead_cons] at h
      rcases List.mem_cons.mp h with rfl | h
      · rcases List.mem_cons.mp hx with rfl | hx
        · exact List.mem_cons_self
        · exact List.mem_cons_of_mem y (ih (hp ▸ List.mem_cons_self) hx)
      · exact List.mem_cons_of_mem y (ih (hp ▸ List.mem_cons_of_mem first h) hx)

/-- Two pieces or more stand on the two sides of the first separator. -/
theorem splitOn_eq_cons_cons_iff [LawfulBEq α] {sep : α} {xs piece next : List α}
    {pieces : List (List α)} :
    xs.splitOn sep = piece :: next :: pieces ↔
      ∃ rest, sep ∉ piece ∧ xs = piece ++ sep :: rest ∧ rest.splitOn sep = next :: pieces := by
  constructor
  · intro h
    by_cases hmem : sep ∈ xs
    · obtain ⟨before, rest, rfl, hbefore⟩ := List.eq_append_cons_of_mem hmem
      rw [List.splitOn_append_cons_self_of_not_mem hbefore] at h
      obtain ⟨rfl, hrest⟩ := List.cons.inj h
      exact ⟨rest, hbefore, rfl, hrest⟩
    · rw [List.splitOn_eq_singleton hmem] at h
      cases h
  · rintro ⟨rest, hpiece, rfl, hrest⟩
    rw [List.splitOn_append_cons_self_of_not_mem hpiece, hrest]

/-- Pieces without a separator in them are those of one text only, the pieces with separators between. -/
theorem splitOn_eq_cons_iff_intercalate [LawfulBEq α] {sep : α} {xs piece : List α}
    {pieces : List (List α)} :
    xs.splitOn sep = piece :: pieces ↔
      xs = [sep].intercalate (piece :: pieces) ∧ ∀ p ∈ piece :: pieces, sep ∉ p := by
  constructor
  · intro h
    refine ⟨?_, fun p hp => not_mem_of_mem_splitOn (h ▸ hp)⟩
    rw [← h, List.intercalate_splitOn]
  · rintro ⟨rfl, hpieces⟩
    exact List.splitOn_intercalate sep hpieces (List.cons_ne_nil piece pieces)

end Pieces

theorem takeWhile_append_cons {α : Type} {p : α → Bool} {xs : List α} {c : α} (hxs : xs.all p = true)
    (hc : p c = false) (rest : List α) : (xs ++ c :: rest).takeWhile p = xs := by
  rw [List.takeWhile_append_of_pos (List.all_eq_true.mp hxs),
    List.takeWhile_cons_of_neg (Bool.not_eq_true _ ▸ hc), List.append_nil]

theorem dropWhile_append_cons {α : Type} {p : α → Bool} {xs : List α} {c : α} (hxs : xs.all p = true)
    (hc : p c = false) (rest : List α) : (xs ++ c :: rest).dropWhile p = c :: rest := by
  rw [List.dropWhile_append_of_pos (List.all_eq_true.mp hxs),
    List.dropWhile_cons_of_neg (Bool.not_eq_true _ ▸ hc)]

namespace LineFeed

/-- Behind some bytes the lines ended and the line begun are the pieces between their line feeds. -/
def Holds (f : LineFeed) (bs : Bytes) : Prop :=
  bs.splitOn 10 = f.complete ++ [f.rest]

theorem holds_empty : empty.Holds [] := rfl

/-- A chunk is cut together with what was carried over. -/
theorem Holds.chunk {f : LineFeed} {bs : Bytes} (h : f.Holds bs) (c : Bytes) :
    (f.chunk c).Holds (bs ++ c) := by
  unfold LineFeed.chunk
  split
  · rename_i hc
    rw [List.isEmpty_iff.mp hc, List.append_nil]
    exact h
  · have hne := List.splitOn_ne_nil 10 (f.carry ++ c)
    unfold Holds complete rest
    dsimp only
    rw [splitOn_append c h, List.reverse_append, List.reverse_reverse, List.append_assoc,
      List.getLastD_eq_getLast?, List.getLast?_eq_some_getLast hne, Option.getD_some,
      List.dropLast_concat_getLast hne]
    rfl

/-- Chunks leave the pieces of all their bytes. -/
theorem holds_ofChunks (chunks : List Bytes) : (ofChunks chunks).Holds chunks.flatten := by
  have hrun : ∀ (f : LineFeed) (bs : Bytes), f.Holds bs →
      (chunks.foldl LineFeed.chunk f).Holds (bs ++ chunks.flatten) := by
    induction chunks with
    | nil =>
      intro f bs h
      rw [List.flatten_nil, List.append_nil]
      exact h
    | cons c cs ih =>
      intro f bs h
      rw [List.foldl_cons, List.flatten_cons, ← List.append_assoc]
      exact ih _ _ (h.chunk c)
  exact hrun empty [] holds_empty

theorem Holds.complete {f : LineFeed} {bs : Bytes} (h : f.Holds bs) :
    f.complete = (bs.splitOn 10).dropLast := by
  rw [h, List.dropLast_concat]

theorem Holds.rest {f : LineFeed} {bs : Bytes} (h : f.Holds bs) :
    f.rest = (bs.splitOn 10).getLastD [] := by
  rw [h, List.getLastD_concat]

/-- Lines written one after the other, and bytes behind them that are no line yet. -/
theorem splitOn_lines {ls : List Bytes} (h : ∀ l ∈ ls, 10 ∉ l) {rest : Bytes} (hr : 10 ∉ rest) :
    (ls.flatMap (· ++ [10]) ++ rest).splitOn 10 = ls ++ [rest] := by
  induction ls with
  | nil => exact List.splitOn_eq_singleton hr
  | cons l ls ih =>
    rw [List.flatMap_cons, List.append_assoc, List.append_assoc, List.singleton_append,
      List.splitOn_append_cons_self_of_not_mem (h l List.mem_cons_self),
      ih fun m hm => h m (List.mem_cons_of_mem l hm)]
    rfl

theorem not_mem_complete {chunks : List Bytes} {l : Bytes} (h : l ∈ (ofChunks chunks).complete) :
    10 ∉ l := by
  rw [(holds_ofChunks chunks).complete] at h
  exact not_mem_of_mem_splitOn ((List.dropLast_sublist _).subset h)

theorem not_mem_rest (chunks : List Bytes) : 10 ∉ (ofChunks chunks).rest := by
  have h := holds_ofChunks chunks
  have hmem : (ofChunks chunks).rest ∈ chunks.flatten.splitOn 10 := by
    rw [h]
    exact List.mem_concat_self
  exact not_mem_of_mem_splitOn hmem

end LineFeed

/-- A text without the carriage return at its end. Only one is taken off. -/
def chomp (cs : List Char) : List Char :=
  if cs.getLast? = some '\r' then cs.dropLast else cs

theorem chomp_of_ne {cs : List Char} (h : cs.getLast? ≠ some '\r') : chomp cs = cs :=
  if_neg h

theorem dropReturn_encode (cs : List Char) : dropReturn (Utf8.encode cs) = Utf8.encode (chomp cs) := by
  unfold dropReturn chomp
  by_cases h : cs.getLast? = some '\r'
  · obtain ⟨ds, rfl⟩ := List.getLast?_eq_some_iff.mp h
    have he : Utf8.encode (ds ++ ['\r']) = Utf8.encode ds ++ [13] := Utf8.encode_append ds ['\r']
    rw [he, List.getLast?_concat, if_pos rfl, if_pos h, List.dropLast_concat, List.dropLast_concat]
  · rw [if_neg h, if_neg]
    exact fun hb => h (Utf8.getLast?_of_encode hb (by decide) rfl)

/-- Under either policy the bytes of a text are read as the text, less a carriage return at its
end. -/
theorem decodeLine_ofString (policy : Settings.TextPolicy) (m : String) :
    decodeLine policy (Utf8.ofString m) = .ok (String.ofList (chomp m.toList)) := by
  unfold decodeLine Utf8.ofString
  rw [dropReturn_encode]
  cases policy with
  | replace =>
    dsimp only
    rw [Utf8.decodeLossy_encode]
  | refuse =>
    dsimp only
    rw [Utf8.decode_encode]
    rfl

theorem not_mem_ofString {m : String} (h : '\n' ∉ m.toList) : 10 ∉ Utf8.ofString m :=
  fun hm => h (Utf8.mem_of_mem_encode hm (by decide) rfl)

theorem mem_dropReturn {bs : Bytes} {b : UInt8} (h : b ∈ dropReturn bs) : b ∈ bs := by
  unfold dropReturn at h
  split at h
  · exact (List.dropLast_sublist bs).subset h
  · exact h

/-- The text of a line without a line feed has none either, however ill-formed the line is. -/
theorem not_mem_of_decodeLine {policy : Settings.TextPolicy} {l : Bytes} {m : String}
    (h : decodeLine policy l = .ok m) (hl : 10 ∉ l) : '\n' ∉ m.toList := by
  have hm : m.toList = Utf8.decodeLossy (dropReturn l) := by
    cases policy with
    | replace =>
      obtain rfl := Except.ok.inj h
      exact String.toList_ofList
    | refuse =>
      change (Utf8.decode (dropReturn l)).map String.ofList = .ok m at h
      cases hd : Utf8.decode (dropReturn l) with
      | error f =>
        rw [hd] at h
        cases h
      | ok cs =>
        rw [hd] at h
        obtain rfl := Except.ok.inj h
        rw [String.toList_ofList, Utf8.decodeLossy_of_decode hd]
  rw [hm]
  intro hn
  exact hl (mem_dropReturn (Utf8.mem_bytes_of_mem_decodeLossy hn (by decide) (by decide)))

theorem decodeLines_of_ok {α : Type} {policy : Settings.TextPolicy} {line : α → Bytes}
    {text : α → String} (done : List String) {xs : List α}
    (h : ∀ x ∈ xs, decodeLine policy (line x) = .ok (text x)) :
    decodeLines policy done (xs.map line) = (done.reverse ++ xs.map text, none) := by
  induction xs generalizing done with
  | nil =>
    rw [List.map_nil, List.map_nil, List.append_nil]
    rfl
  | cons x xs ih =>
    rw [List.map_cons, decodeLines, h x List.mem_cons_self]
    dsimp only
    rw [ih (text x :: done) fun y hy => h y (List.mem_cons_of_mem x hy), List.reverse_cons,
      List.append_assoc]
    rfl

/-- Every text given is the text of a line. -/
theorem exists_line_of_mem {policy : Settings.TextPolicy} {done : List String} {ls : List Bytes}
    {m : String} (h : m ∈ (decodeLines policy done ls).1) :
    m ∈ done ∨ ∃ l ∈ ls, decodeLine policy l = .ok m := by
  induction ls generalizing done with
  | nil => exact .inl (List.mem_reverse.mp h)
  | cons l ls ih =>
    rw [decodeLines] at h
    split at h
    · rename_i s hs
      rcases ih h with hd | ⟨l', hl', he⟩
      · rcases List.mem_cons.mp hd with rfl | hd
        · exact .inr ⟨l, List.mem_cons_self, hs⟩
        · exact .inl hd
      · exact .inr ⟨l', List.mem_cons_of_mem l hl', he⟩
    · exact .inl (List.mem_reverse.mp h)

end MetricCapture.Text
