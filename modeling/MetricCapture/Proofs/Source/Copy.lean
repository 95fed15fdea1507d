import MetricCapture.Proofs.Source.Payload
import MetricCapture.Proofs.Source.Sniff
import MetricCapture.Proofs.Statistics.Snapshot
/-! Copies: the messages of a source, written a line each, are taken for text and give the same
statistics as the source. -/
namespace MetricCapture
open MetricCapture.Text
open Source (ofBytes)
open Replay (messageText)

private theorem messageText_eq_encode (ms : List String) :
    messageText ms = Utf8.encode (ms.flatMap fun m => m.toList ++ ['\n']) := by
  induction ms with
  | nil => rfl
  | cons m ms ih =>
    rw [List.flatMap_cons, Utf8.encode_append, Utf8.encode_append, ← ih]
    rfl

private theorem head?_messages {ms : List String} (hb : ∀ m ∈ ms, allBlank m.toList = false)
    (hn : ∀ m ∈ ms, '\n' ∉ m.toList) :
    (ms.flatMap fun m => m.toList ++ ['\n']).head? ≠ some '\n' := by
  cases ms with
  | nil => exact fun h => nomatch h
  | cons m ms =>
    have hblank := hb m List.mem_cons_self
    have hfeed := hn m List.mem_cons_self
    rw [List.flatMap_cons]
    cases hm : m.toList with
    | nil =>
      rw [hm] at hblank
      cases hblank
    | cons c cs =>
      rw [hm, List.mem_cons, not_or] at hfeed
      intro h
      exact hfeed.1 (Option.some.inj h).symm

private theorem trimEnd_chomped (m : String) :
    trimEnd m.toList = trimEnd (String.ofList (chomp m.toList)).toList := by
  rw [String.toList_ofList, trimEnd_chomp]

private theorem bare_chomped (ms : List String) :
    ((ms.map fun m => String.ofList (chomp m.toList)).flatMap Reading.counted).map Reading.bare =
      (ms.flatMap Reading.counted).map Reading.bare := by
  induction ms with
  | nil => rfl
  | cons m ms ih =>
    rw [List.map_cons, List.flatMap_cons, List.flatMap_cons, List.map_append, List.map_append, ih,
      Reading.bare_counted (trimEnd_chomped m)]

/-- The messages of a source, each on a line of its own, are text, and analysing them gives what
analysing the source gives. -/
theorem Source.analyze_messages (cfg : Settings.Reader) (x : Bytes)
    (hr : cfg.replayMarker = Settings.Reader.standard.replayMarker)
    (hz : cfg.compressedMarker = Settings.Reader.standard.compressedMarker)
    (hc : ((ofBytes x).messages cfg).error = none)
    (hp : ∀ m ∈ ((ofBytes x).messages cfg).items, ∃ r, Reading.ofLine m = .ok r) :
    (ofBytes (messageText ((ofBytes x).messages cfg).items)).resolve cfg =
        .ok ⟨.text, false, ofBytes (messageText ((ofBytes x).messages cfg).items)⟩ ∧
      ∀ analysis bestEffort,
        ((ofBytes (messageText ((ofBytes x).messages cfg).items)).analyze cfg analysis
            bestEffort).result =
          ((ofBytes x).analyze cfg analysis bestEffort).result := by
  generalize hms : ((ofBytes x).messages cfg).items = ms at hp ⊢
  have hmem : ∀ m, m ∈ ms ↔
      m ∈ ((ofBytes x).lines cfg).delivery.items ∧ (!allBlank m.toList) = true := by
    intro m
    rw [← hms]
    exact List.mem_filter
  have hblank : ∀ m ∈ ms, allBlank m.toList = false := by
    intro m hm
    exact Bool.not_eq_true' _ ▸ ((hmem m).mp hm).2
  have hfeed : ∀ m ∈ ms, '\n' ∉ m.toList := fun m hm => Lines.not_mem_delivery ((hmem m).mp hm).1
  have hdetect : cfg.detect ((messageText ms).take cfg.sniffLength) = .text := by
    rw [messageText_eq_encode]
    exact Settings.Reader.detect_encode hr hz (head?_messages hblank hfeed)
  refine ⟨resolve_ofBytes hdetect (fun he => nomatch he), fun analysis bestEffort => ?_⟩
  -- The copy delivers the messages, each less a carriage return at its end.
  have hcopy : (ofBytes (messageText ms)).lines cfg =
      ⟨ms.map fun m => String.ofList (chomp m.toList), true, none, none⟩ := by
    rw [lines_text hdetect]
    exact Lines.ofChunks_messageText cfg.textPolicy (List.append_nil _) hfeed
  have hdelivered : ((ofBytes (messageText ms)).lines cfg).delivery.items =
      ms.map fun m => String.ofList (chomp m.toList) := by
    rw [hcopy]
    exact List.append_nil _
  have hcopied := trace_clean cfg (ofBytes (messageText ms)) (by rw [hcopy]) (by
    intro line hline
    rw [hdelivered] at hline
    obtain ⟨m, hm, rfl⟩ := List.mem_map.mp hline
    exact Reading.readable_congr (trimEnd_chomped m) (hp m hm))
  have hsource := trace_clean cfg (ofBytes x) hc (by
    intro line hline
    by_cases hb : allBlank line.toList = true
    · exact ⟨_, Reading.ofLine_blank hb⟩
    · exact hp line ((hmem line).mpr ⟨hline, by rw [Bool.not_eq_true] at hb; rw [hb]; rfl⟩))
  have hitems : ((ofBytes x).lines cfg).delivery.items.flatMap Reading.counted =
      ms.flatMap Reading.counted := by
    rw [← hms]
    exact (Reading.counted_filter _).symm
  rw [analyze_clean hcopied, analyze_clean hsource, hitems, hdelivered]
  exact Statistics.ofReadings_congr analysis (bare_chomped ms)

/-- Two carriage returns at the end of a line, a blank line, and an ill-formed byte in a line that is
not ended. -/
def sampleText : Bytes := [97, 58, 49, 124, 99, 13, 13, 10, 32, 10, 0xFF, 58, 50, 124, 103]

def sampleCopy : Bytes := [97, 58, 49, 124, 99, 13, 10, 0xEF, 0xBF, 0xBD, 58, 50, 124, 103, 10]

theorem messages_sampleText :
    (ofBytes sampleText).messages .standard = ⟨["a:1|c\r", "\uFFFD:2|g"], none⟩ := by
  unfold Source.messages
  rw [Source.lines_text (by decide)]
  rfl

theorem analyze_sampleText :
    messageText ((ofBytes sampleText).messages .standard).items = sampleCopy ∧
      (ofBytes sampleCopy).resolve .standard = .ok ⟨.text, false, ofBytes sampleCopy⟩ ∧
      ∀ analysis bestEffort, ((ofBytes sampleCopy).analyze .standard analysis bestEffort).result =
        ((ofBytes sampleText).analyze .standard analysis bestEffort).result := by
  have hcopy : messageText ((ofBytes sampleText).messages .standard).items = sampleCopy := by
    rw [messages_sampleText]
    rfl
  have hread : ∀ m ∈ ((ofBytes sampleText).messages .standard).items,
      ∃ r, Reading.ofLine m = .ok r := by
    rw [messages_sampleText]
    intro m hm
    rcases List.mem_cons.mp hm with rfl | hm
    · exact ⟨_, rfl⟩
    · rw [List.mem_singleton.mp hm]
      exact ⟨_, rfl⟩
  have hall := Source.analyze_messages .standard sampleText rfl rfl
    (by rw [messages_sampleText]) hread
  rw [hcopy] at hall
  exact ⟨hcopy, hall⟩

end MetricCapture
