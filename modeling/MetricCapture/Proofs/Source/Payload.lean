import MetricCapture.Proofs.Source.Plain
import MetricCapture.Proofs.Text.Line
import MetricCapture.Replay.Writer
/-! From payloads to lines: the chunks of plain text are its bytes, and messages written a line each
are the lines read, however they are spread over chunks. -/
namespace MetricCapture
open MetricCapture.Text

/-- The chunks of plain bytes are the bytes, and reading them ends cleanly. -/
theorem textChunks_ofBytes {size : Nat} (hs : 0 < size) (done : List Bytes) (bs : Bytes) :
    (textChunks size done (Source.ofBytes bs)).error = none ∧
      (textChunks size done (Source.ofBytes bs)).items.flatten = done.reverse.flatten ++ bs := by
  induction hn : bs.length using Nat.strongRecOn generalizing bs done with
  | ind n ih =>
    rw [textChunks]
    split
    · rename_i h
      rw [Source.read_ofBytes] at h
      cases h
    · rename_i chunk rest h
      rw [Source.read_ofBytes] at h
      simp only [Except.ok.injEq, Prod.mk.injEq] at h
      obtain ⟨rfl, rfl⟩ := h
      split
      · rename_i hc
        rw [List.take_eq_nil_iff] at hc
        rcases hc with hz | rfl
        · omega
        · exact ⟨rfl, (List.append_nil _).symm⟩
      · rename_i hc
        have hpos := List.length_pos_iff.mpr hc
        rw [List.length_take] at hpos
        have hlt : (bs.drop size).length < n := by
          rw [List.length_drop]
          omega
        obtain ⟨he, hi⟩ := ih _ hlt (bs.take size :: done) (bs.drop size) rfl
        refine ⟨he, ?_⟩
        rw [hi, List.reverse_cons, List.flatten_append, List.flatten_singleton, List.append_assoc,
          List.take_append_drop]

/-- Text of a line each is cut into the lines again, with whatever stands behind them. -/
theorem splitOn_messageText {ms : List String} (h : ∀ m ∈ ms, '\n' ∉ m.toList) {rest : Bytes}
    (hr : 10 ∉ rest) :
    (Replay.messageText ms ++ rest).splitOn 10 = ms.map Utf8.ofString ++ [rest] := by
  have hl : ∀ l ∈ ms.map Utf8.ofString, 10 ∉ l := by
    intro l hl
    obtain ⟨m, hm, rfl⟩ := List.mem_map.mp hl
    exact not_mem_ofString (h m hm)
  rw [← LineFeed.splitOn_lines hl hr, List.flatMap_map]
  rfl

/-- Messages written a line each are read again, less a carriage return at the end of each. -/
theorem Lines.ofChunks_messageText (policy : Settings.TextPolicy) {chunks : List Bytes}
    {ms : List String} (hf : chunks.flatten = Replay.messageText ms)
    (h : ∀ m ∈ ms, '\n' ∉ m.toList) :
    Lines.ofChunks policy ⟨chunks, none⟩ =
      ⟨ms.map fun m => String.ofList (chomp m.toList), true, none, none⟩ := by
  have hpieces : (Replay.messageText ms ++ []).splitOn 10 = ms.map Utf8.ofString ++ [[]] :=
    splitOn_messageText h List.not_mem_nil
  rw [List.append_nil, ← hf] at hpieces
  have hfeed := LineFeed.holds_ofChunks chunks
  have hcomplete := hfeed.complete
  have hrest := hfeed.rest
  rw [hpieces, List.dropLast_concat] at hcomplete
  rw [hpieces, List.getLastD_concat] at hrest
  have hdecode : decodeLines policy [] (ms.map Utf8.ofString) =
      (ms.map fun m => String.ofList (chomp m.toList), none) :=
    decodeLines_of_ok [] fun m _ => decodeLine_ofString policy m
  unfold Lines.ofChunks
  dsimp only
  rw [hcomplete, hrest, hdecode]
  rfl

/-- It does not matter how bytes are spread over chunks. -/
theorem Lines.ofChunks_flatten (policy : Settings.TextPolicy) (chunks : List Bytes)
    (error : Option StreamError) :
    Lines.ofChunks policy ⟨chunks, error⟩ = Lines.ofChunks policy ⟨[chunks.flatten], error⟩ := by
  have hmany := LineFeed.holds_ofChunks chunks
  have hone := LineFeed.holds_ofChunks [chunks.flatten]
  rw [List.flatten_singleton] at hone
  unfold Lines.ofChunks
  dsimp only
  rw [hmany.complete, hmany.rest, hone.complete, hone.rest]

/-- No line given holds a line feed. -/
theorem Lines.not_mem_delivery {policy : Settings.TextPolicy} {chunks : Delivery Bytes} {m : String}
    (h : m ∈ (Lines.ofChunks policy chunks).delivery.items) : '\n' ∉ m.toList := by
  have hcomplete : ∀ {t : String},
      t ∈ (decodeLines policy [] (LineFeed.ofChunks chunks.items).complete).1 → '\n' ∉ t.toList := by
    intro t ht
    rcases exists_line_of_mem ht with hn | ⟨l, hl, he⟩
    · exact absurd hn List.not_mem_nil
    · exact not_mem_of_decodeLine he (LineFeed.not_mem_complete hl)
  have hnone : ∀ {ls : List String}, m ∈ ls ++ (none : Option String).toList → m ∈ ls := by
    intro ls hm
    rw [Option.toList_none, List.append_nil] at hm
    exact hm
  unfold Lines.ofChunks Lines.delivery at h
  dsimp only at h
  split at h
  · exact hcomplete (hnone h)
  · exact hcomplete (hnone h)
  · split at h
    · exact hcomplete (hnone h)
    · split at h
      · rename_i s hs
        rcases List.mem_append.mp h with h | h
        · exact hcomplete h
        · rw [List.mem_singleton.mp h]
          exact not_mem_of_decodeLine hs (LineFeed.not_mem_rest chunks.items)
      · exact hcomplete (hnone h)

/-- The lines of plain text are those of its bytes. -/
theorem Source.lines_text {cfg : Settings.Reader} {bs : Bytes}
    (h : cfg.detect (bs.take cfg.sniffLength) = .text) :
    (ofBytes bs).lines cfg = Lines.ofChunks cfg.textPolicy ⟨[bs], none⟩ := by
  obtain ⟨herror, hitems⟩ := textChunks_ofBytes cfg.chunkSize_pos [] bs
  have hchunks : ((ofBytes bs).payloads cfg).chunks = textChunks cfg.chunkSize [] (ofBytes bs) := by
    unfold payloads
    rw [resolve_ofBytes h (fun he => nomatch he)]
    rfl
  unfold lines
  rw [hchunks]
  generalize textChunks cfg.chunkSize [] (ofBytes bs) = chunks at herror hitems ⊢
  obtain ⟨items, error⟩ := chunks
  dsimp only at herror hitems
  rw [herror, Lines.ofChunks_flatten, hitems]
  rfl

end MetricCapture
