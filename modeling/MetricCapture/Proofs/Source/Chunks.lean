import MetricCapture.Proofs.Source.Payload
/-! Lines told by bytes alone: the lines of some chunks are the texts of the pieces between the line
feeds of all their bytes, wherever one chunk ends and the next begins. -/
namespace MetricCapture
open MetricCapture.Text

namespace Text

def endedPieces (bs : Bytes) : List Bytes :=
  (bs.splitOn 10).dropLast

def openPiece (bs : Bytes) : Bytes :=
  (bs.splitOn 10).getLastD []

/-- The pieces of some bytes between their line feeds. The last of them counts only if there is
something in it. -/
def linePieces (bs : Bytes) : List Bytes :=
  endedPieces bs ++ if openPiece bs = [] then [] else [openPiece bs]

/-- The pieces that count where the bytes end as given. An error takes what stands behind the last
line feed. -/
def countedPieces (ending : Option StreamError) (bs : Bytes) : List Bytes :=
  match ending with
  | none => linePieces bs
  | some _ => endedPieces bs

def lossyLine (piece : Bytes) : String :=
  String.ofList (Utf8.decodeLossy (dropReturn piece))

theorem pieces_of_splitOn {bs last : Bytes} {pieces : List Bytes}
    (h : bs.splitOn 10 = pieces ++ [last]) : endedPieces bs = pieces ∧ openPiece bs = last := by
  unfold endedPieces openPiece
  rw [h, List.dropLast_concat, List.getLastD_concat]
  exact ⟨rfl, rfl⟩

end Text

namespace Lines

/-- The texts of some pieces up to the first that has a fault. If none has, they end as given. -/
def ofPieces (policy : Settings.TextPolicy) (ending : Option StreamError) :
    List Bytes → Delivery String
  | [] => ⟨[], ending⟩
  | piece :: pieces =>
    match decodeLine policy piece with
    | .error f => ⟨[], some (.text f)⟩
    | .ok s => ⟨s :: (ofPieces policy ending pieces).items, (ofPieces policy ending pieces).error⟩

variable {policy : Settings.TextPolicy} {ending : Option StreamError}

/-- Where faults are replaced, every piece has a text. -/
theorem ofPieces_replace (pieces : List Bytes) :
    ofPieces .replace ending pieces = ⟨pieces.map lossyLine, ending⟩ := by
  induction pieces with
  | nil => rfl
  | cons piece pieces ih => simp only [ofPieces, decodeLine, lossyLine, ih, List.map_cons]

/-- A fault among the first pieces hides those behind them. -/
theorem ofPieces_append (first second : List Bytes) :
    ofPieces policy ending (first ++ second) =
      match (ofPieces policy none first).error with
      | some e => ⟨(ofPieces policy none first).items, some e⟩
      | none =>
        ⟨(ofPieces policy none first).items ++ (ofPieces policy ending second).items,
          (ofPieces policy ending second).error⟩ := by
  induction first with
  | nil => rfl
  | cons piece pieces ih =>
    simp only [List.cons_append, ofPieces]
    cases decodeLine policy piece with
    | error f => rfl
    | ok s =>
      dsimp only
      rw [ih]
      cases (ofPieces policy none pieces).error with
      | none => rfl
      | some e => rfl

/-- The reader of lines keeps the texts of the pieces behind those it has. -/
theorem decodeLines_eq (policy : Settings.TextPolicy) (done : List String) (pieces : List Bytes) :
    (decodeLines policy done pieces).1 = done.reverse ++ (ofPieces policy none pieces).items ∧
      (decodeLines policy done pieces).2.map StreamError.text =
        (ofPieces policy none pieces).error := by
  induction pieces generalizing done with
  | nil => exact ⟨(List.append_nil _).symm, rfl⟩
  | cons piece pieces ih =>
    rw [decodeLines, ofPieces]
    cases decodeLine policy piece with
    | error f => exact ⟨(List.append_nil _).symm, rfl⟩
    | ok s =>
      obtain ⟨htexts, hfault⟩ := ih (s :: done)
      refine ⟨?_, hfault⟩
      rw [htexts, List.reverse_cons, List.append_assoc]
      rfl

/-- The fault found in some pieces ends their texts, whatever stands behind them. -/
private theorem ofPieces_of_fault {pieces : List Bytes} {texts : List String} {f : Utf8.Fault}
    (h : decodeLines policy [] pieces = (texts, some f)) (more : List Bytes) :
    ofPieces policy ending (pieces ++ more) = ⟨texts, some (.text f)⟩ := by
  obtain ⟨htexts, hfault⟩ := decodeLines_eq policy [] pieces
  rw [h] at htexts hfault
  rw [ofPieces_append, ← hfault]
  exact congrArg (Delivery.mk · _) htexts.symm

/-- Pieces without a fault are followed by those behind them. -/
private theorem ofPieces_of_clean {pieces : List Bytes} {texts : List String}
    (h : decodeLines policy [] pieces = (texts, none)) (more : List Bytes) :
    ofPieces policy ending (pieces ++ more) =
      ⟨texts ++ (ofPieces policy ending more).items, (ofPieces policy ending more).error⟩ := by
  obtain ⟨htexts, hfault⟩ := decodeLines_eq policy [] pieces
  rw [h] at htexts hfault
  rw [ofPieces_append, ← hfault]
  exact congrArg (fun ts => Delivery.mk (ts ++ _) _) htexts.symm

/-- The lines of chunks are the texts of the pieces that count of all their bytes. -/
theorem delivery_eq (policy : Settings.TextPolicy) (chunks : Delivery Bytes) :
    (ofChunks policy chunks).delivery =
      ofPieces policy chunks.error (countedPieces chunks.error chunks.items.flatten) := by
  obtain ⟨items, ending⟩ := chunks
  obtain ⟨hended, hopen⟩ := pieces_of_splitOn (LineFeed.holds_ofChunks items)
  cases hd : decodeLines policy [] (LineFeed.ofChunks items).complete with
  | mk texts fault =>
    cases fault with
    | some f =>
      -- Whatever the pieces behind the fault are, they do not count.
      have hcounted : ∃ more, countedPieces ending items.flatten =
          (LineFeed.ofChunks items).complete ++ more := by
        cases ending with
        | none => exact ⟨_, by rw [countedPieces, linePieces, hended]⟩
        | some e => exact ⟨[], by rw [countedPieces, hended, List.append_nil]⟩
      obtain ⟨more, hmore⟩ := hcounted
      dsimp only
      rw [hmore, ofPieces_of_fault hd]
      simp [ofChunks, hd, delivery]
    | none =>
      cases ending with
      | some e =>
        dsimp only
        rw [countedPieces, hended, ← List.append_nil (LineFeed.ofChunks items).complete,
          ofPieces_of_clean hd]
        simp [ofChunks, hd, delivery, ofPieces]
      | none =>
        dsimp only
        rw [countedPieces, linePieces, hended, hopen, ofPieces_of_clean hd]
        simp only [ofChunks, hd]
        by_cases hrest : (LineFeed.ofChunks items).rest = []
        · simp [delivery, hrest, ofPieces]
        · simp only [List.isEmpty_iff, if_neg hrest, ofPieces]
          cases decodeLine policy (LineFeed.ofChunks items).rest with
          | ok s => simp [delivery]
          | error f => simp [delivery]

/-- The lines of chunks are the texts of the pieces between the line feeds of all their bytes. Where
one chunk ends and the next begins makes no difference, and in the strict policy neither to the lines
before a fault nor to the fault. If the chunks break off, the pieces that are ended are all that is
given before the error. -/
theorem delivery_ofChunks (policy : Settings.TextPolicy) (chunks : List Bytes) :
    (ofChunks policy ⟨chunks, none⟩).delivery =
        ofPieces policy none (linePieces chunks.flatten) ∧
      ∀ e, (ofChunks policy ⟨chunks, some e⟩).delivery =
        ofPieces policy (some e) (endedPieces chunks.flatten) :=
  ⟨delivery_eq policy ⟨chunks, none⟩, fun e => delivery_eq policy ⟨chunks, some e⟩⟩

-- A character and a line end that chunks cut, and a line that is not ended.
example : (ofChunks .replace ⟨[[97, 0xC3], [], [0xA9, 13], [10, 98]], none⟩).delivery =
    ⟨["aé", "b"], none⟩ := rfl

end Lines
end MetricCapture
