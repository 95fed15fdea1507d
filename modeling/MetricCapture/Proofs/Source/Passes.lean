import MetricCapture.Proofs.Message.Trouble
import MetricCapture.Proofs.Source.Payload
import MetricCapture.Proofs.Statistics.Estimate
/-! Passes over a source: taking its messages as they stand and analysing them come upon the same lines,
in the same order and to the same end. -/
namespace MetricCapture
open MetricCapture.Text

namespace Reading

/-- A reading that counts: a message, or a failure of a line that is not blank. -/
def Counts : Reading → Prop
  | .message _ => True
  | .failure f => f.reason ∈ Reason.counted

theorem Counts.ne_emptyLine {f : Failure} (h : Counts (.failure f)) : f.reason ≠ .emptyLine := by
  intro he
  rw [Counts, he] at h
  exact absurd h (by decide)

/-- Of a line that is not blank every reading counts. -/
theorem counts_of_ofLine {line : String} {r : Reading} (h : ofLine line = .ok r)
    (hline : allBlank line.toList = false) : r.Counts := by
  have hne : trimEnd line.toList ≠ [] := by
    rw [ne_eq, trimEnd_eq_nil_iff, hline]
    exact Bool.false_ne_true
  unfold ofLine at h
  dsimp only at h
  rw [if_neg (mt List.isEmpty_iff.mp hne)] at h
  split at h
  · cases h
    trivial
  · rename_i d hd
    cases h
    exact Message.breaksWith_parseTrimmed Message.allows_countsOrInteger (fun _ => trivial) _ _ hd
  · cases h

theorem counted_of_counts {line : String} {r : Reading} (h : ofLine line = .ok r) (hr : r.Counts) :
    counted line = [r] := by
  unfold counted
  rw [h]
  cases r with
  | message m => rfl
  | failure f => exact if_neg hr.ne_emptyLine

/-- Lines that are not blank and can all be read have a reading each, and all of these count. -/
theorem exists_readings {lines : List String} (hblank : ∀ line ∈ lines, allBlank line.toList = false)
    (h : ∀ line ∈ lines, Readable line) :
    ∃ rs, lines.map ofLine = rs.map .ok ∧ lines.flatMap counted = rs ∧ ∀ r ∈ rs, r.Counts := by
  induction lines with
  | nil => exact ⟨[], rfl, rfl, nofun⟩
  | cons line lines ih =>
    obtain ⟨hline, hlines⟩ := List.forall_mem_cons.mp hblank
    obtain ⟨⟨r, hr⟩, hrest⟩ := List.forall_mem_cons.mp h
    obtain ⟨rs, hmap, hcounted, hcounts⟩ := ih hlines hrest
    have hcount := counts_of_ofLine hr hline
    refine ⟨r :: rs, ?_, ?_, List.forall_mem_cons.mpr ⟨hcount, hcounts⟩⟩
    · rw [List.map_cons, hr, hmap, List.map_cons]
    · rw [List.flatMap_cons, counted_of_counts hr hcount, hcounted]
      rfl

end Reading

theorem Ledger.length_ofReadings (rs : List Reading) :
    (ofReadings rs).kinds.length + (ofReadings rs).reasons.length = rs.length := by
  induction rs with
  | nil => rfl
  | cons r rs ih =>
    change (ofReading r ++ ofReadings rs).kinds.length + (ofReading r ++ ofReadings rs).reasons.length = _
    cases r <;> simp [ofReading, ofMessage] <;> omega

namespace Statistics

/-- A snapshot tells of as many lines as there were readings, however the source has ended. -/
theorem total_of_finish {analysis : Settings.Analysis} {rs : List Reading} {bestEffort : Bool}
    {e : Option StreamError} {snap : Snapshot}
    (h : (observed analysis rs).bind (fun s => s.finish bestEffort e) = .ok snap) :
    snap.statistics.total = rs.length := by
  rcases observed_cases analysis rs with ⟨_, s, hs, hrep⟩ | ⟨_, f, hf⟩
  · rw [hs] at h
    have hsnap : snap.statistics = s := by
      cases e with
      | none => exact statistics_of_conclude h
      | some e =>
        change (if bestEffort && e.isContainer then s.conclude (some e.message)
          else .error (.stream e)) = .ok snap at h
        split at h
        · exact statistics_of_conclude h
        · cases h
    rw [hsnap, hrep.total, Ledger.length_ofReadings]
  · rw [hf] at h
    cases h

end Statistics

namespace Source

variable {cfg : Settings.Reader} {s : Source}

def Reads (cfg : Settings.Reader) (s : Source) (rs : List Reading) : Prop :=
  (s.messages cfg).items.map Reading.ofLine = rs.map .ok

theorem Reads.unique {rs rs' : List Reading} (h : s.Reads cfg rs) (h' : s.Reads cfg rs') : rs = rs' :=
  List.map_injective_iff.mpr (fun _ _ => Except.ok.inj) (h.symm.trans h')

theorem Reads.readable {rs : List Reading} (h : s.Reads cfg rs) :
    ∀ line ∈ (s.messages cfg).items, Readable line := by
  intro line hline
  have hread : Reading.ofLine line ∈ rs.map .ok := h ▸ List.mem_map_of_mem hline
  obtain ⟨r, _, hr⟩ := List.mem_map.mp hread
  exact ⟨r, hr.symm⟩

/-- Lines can be read if the messages among them can: the others are blank. -/
theorem readable_messages_iff :
    (∀ line ∈ (s.messages cfg).items, Readable line) ↔
      ∀ line ∈ (s.lines cfg).delivery.items, Readable line := by
  constructor
  · intro h line hline
    cases hblank : allBlank line.toList with
    | true => exact ⟨_, Reading.ofLine_blank hblank⟩
    | false => exact h line (List.mem_filter.mpr ⟨hline, by rw [hblank]; rfl⟩)
  · exact fun h line hline => h line (List.mem_filter.mp hline).1

/-- If every message of a source can be read, a pass over it comes upon their readings, and ends as the
messages do. -/
theorem exists_reads (h : ∀ line ∈ (s.messages cfg).items, Readable line) :
    ∃ rs, s.Reads cfg rs ∧ (s.trace cfg).Ends rs (s.messages cfg).error ∧ ∀ r ∈ rs, r.Counts := by
  have hblank : ∀ line ∈ (s.messages cfg).items, allBlank line.toList = false := by
    intro line hline
    exact Bool.not_eq_true' _ ▸ (List.mem_filter.mp hline).2
  obtain ⟨rs, hmap, hcounted, hcounts⟩ := Reading.exists_readings hblank h
  refine ⟨rs, hmap, ?_, hcounts⟩
  rw [← hcounted]
  unfold messages Lines.messages
  rw [Reading.counted_filter]
  exact s.trace_ends cfg (readable_messages_iff.mp h)

/-- An analysis is that of the readings of the messages. -/
theorem Reads.analyze {rs : List Reading} (h : s.Reads cfg rs) (analysis : Settings.Analysis)
    (bestEffort : Bool) :
    (s.analyze cfg analysis bestEffort).result =
      (Statistics.observed analysis rs).bind
        fun st => st.finish bestEffort (s.messages cfg).error := by
  obtain ⟨rs', h', hends, _⟩ := exists_reads h.readable
  rw [h.unique h']
  exact analyze_ends hends analysis bestEffort

end Source

/-- If every line of a source can be read, analysing it comes upon one reading for each of its messages,
in their order, none of them of a blank line; both passes end in the same error or in none; the
statistics are those of these readings, and a snapshot of them tells of as many as there are messages. -/
theorem Source.passes_agree (cfg : Settings.Reader) (s : Source)
    (h : ∀ line ∈ (s.lines cfg).delivery.items, Readable line) :
    ∃ rs, (s.messages cfg).items.map Reading.ofLine = rs.map .ok ∧
      (s.trace cfg).readings = rs ∧ (s.trace cfg).error = (s.messages cfg).error ∧
      (∀ f, .failure f ∈ rs → f.reason ≠ .emptyLine) ∧
      ∀ analysis bestEffort,
        (s.analyze cfg analysis bestEffort).result =
            (Statistics.observed analysis rs).bind
              (fun st => st.finish bestEffort (s.messages cfg).error) ∧
          ∀ snap, (s.analyze cfg analysis bestEffort).result = .ok snap →
            snap.statistics.total = (s.messages cfg).items.length := by
  obtain ⟨rs, hmap, hends, hcounts⟩ := exists_reads (readable_messages_iff.mpr h)
  refine ⟨rs, hmap, hends.readings, hends.error, fun f hf => (hcounts _ hf).ne_emptyLine, ?_⟩
  intro analysis bestEffort
  have hresult := Reads.analyze hmap analysis bestEffort
  refine ⟨hresult, fun snap hsnap => ?_⟩
  rw [hresult] at hsnap
  have hlength : rs.length = (s.messages cfg).items.length := by
    rw [← List.length_map Reading.ofLine, hmap, List.length_map]
  rw [Statistics.total_of_finish hsnap, hlength]

def strictText : Settings.Reader := { Settings.Reader.standard with textPolicy := .refuse }

def mixedText : Bytes :=
  [97, 58, 49, 124, 99, 10, 0xC2, 0xA0, 10, 120, 10, 0xFF, 58, 50, 124, 103, 10]

theorem lines_mixedText :
    ((Source.ofBytes mixedText).lines strictText).delivery =
      ⟨["a:1|c", "\u00A0", "x"], some (.text ⟨0xFF, 0, 1, .invalidStart⟩)⟩ := by
  rw [Source.lines_text (by decide)]
  rfl

theorem passes_mixedText :
    (∀ line ∈ ((Source.ofBytes mixedText).lines strictText).delivery.items, Readable line) ∧
      ∃ rs, ["a:1|c", "x"].map Reading.ofLine = rs.map .ok ∧
        ((Source.ofBytes mixedText).trace strictText).readings = rs ∧
        ((Source.ofBytes mixedText).trace strictText).error =
          some (.text ⟨0xFF, 0, 1, .invalidStart⟩) ∧
        ∀ analysis bestEffort,
          ((Source.ofBytes mixedText).analyze strictText analysis bestEffort).result =
            (Statistics.observed analysis rs).bind
              fun st => st.finish bestEffort (some (.text ⟨0xFF, 0, 1, .invalidStart⟩)) := by
  have hmessages : (Source.ofBytes mixedText).messages strictText =
      ⟨["a:1|c", "x"], some (.text ⟨0xFF, 0, 1, .invalidStart⟩)⟩ := by
    have herror := congrArg Delivery.error lines_mixedText
    unfold Source.messages Lines.messages
    rw [lines_mixedText]
    change Delivery.mk _ ((Source.ofBytes mixedText).lines strictText).delivery.error = _
    rw [herror]
    rfl
  have hread : ∀ line ∈ ((Source.ofBytes mixedText).lines strictText).delivery.items,
      Readable line := by
    rw [lines_mixedText]
    intro line hline
    simp only [List.mem_cons, List.not_mem_nil, or_false] at hline
    rcases hline with rfl | rfl | rfl <;> exact ⟨_, rfl⟩
  obtain ⟨rs, hmap, hreadings, herror, _, hanalysis⟩ :=
    Source.passes_agree strictText (Source.ofBytes mixedText) hread
  rw [hmessages] at hmap herror hanalysis
  exact ⟨hread, rs, hmap, hreadings, herror, fun analysis bestEffort =>
    (hanalysis analysis bestEffort).1⟩

end MetricCapture
