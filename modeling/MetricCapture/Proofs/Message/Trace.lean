import MetricCapture.Proofs.Message.Line
/-! Traces: reading lines that can all be read ends as the lines do, and the readings come upon are
those of the lines in order. -/
namespace MetricCapture

namespace Trace

@[simp] theorem readings_append (xs ys : List Entry) (e : Option StreamError) :
    (Trace.mk (xs ++ ys) e).readings = (Trace.mk xs none).readings ++ (Trace.mk ys e).readings :=
  List.filterMap_append

theorem readings_entries (t : Trace) (e : Option StreamError) :
    (Trace.mk t.entries e).readings = t.readings := rfl

@[simp] theorem readings_ofNotes (notes : List Note) : (ofNotes notes).readings = [] := by
  unfold readings
  rw [List.filterMap_eq_nil_iff]
  intro entry h
  obtain ⟨n, _, rfl⟩ := List.mem_map.mp h
  rfl

/-- The entries of a reading are notes and what counts of it. -/
theorem readings_ofReading {line : String} {r : Reading} (h : Reading.ofLine line = .ok r) :
    (Trace.mk (Entry.ofReading r) none).readings = Reading.counted line := by
  unfold Reading.counted
  rw [h]
  cases r with
  | message m => rfl
  | failure f =>
    unfold Entry.ofReading
    dsimp only
    split
    · rfl
    · rfl

structure Ends (t : Trace) (rs : List Reading) (e : Option StreamError) : Prop where
  error : t.error = e
  readings : t.readings = rs

theorem ends_ofNotes (notes : List Note) : (ofNotes notes).Ends [] none :=
  ⟨rfl, readings_ofNotes notes⟩

/-- What stands behind a trace without an error decides how both end. -/
theorem Ends.andThen {t next : Trace} {rs rs' : List Reading} {e : Option StreamError}
    (h : t.Ends rs none) (h' : next.Ends rs' e) : (t.andThen next).Ends (rs ++ rs') e := by
  obtain ⟨entries, error⟩ := t
  obtain ⟨he, hr⟩ := h
  dsimp only at he
  subst he
  refine ⟨h'.error, ?_⟩
  rw [← hr, ← h'.readings]
  exact List.filterMap_append

end Trace

theorem traceLines_ends (done : List Entry) {ls : List String} (h : ∀ line ∈ ls, Readable line) :
    (traceLines done ls).Ends
      ((Trace.mk done.reverse none).readings ++ ls.flatMap Reading.counted) none := by
  induction ls generalizing done with
  | nil =>
    refine ⟨rfl, ?_⟩
    rw [List.flatMap_nil, List.append_nil]
    rfl
  | cons line ls ih =>
    obtain ⟨r, hr⟩ := h line List.mem_cons_self
    have hrest := ih ((Entry.ofReading r).reverse ++ done)
      fun l hl => h l (List.mem_cons_of_mem line hl)
    rw [List.reverse_append, List.reverse_reverse, Trace.readings_append,
      Trace.readings_ofReading hr, List.append_assoc, ← List.flatMap_cons] at hrest
    rw [traceLines, hr]
    exact hrest

/-- A source whose lines can all be read gives the readings of its lines and ends as they do. -/
theorem Source.trace_ends (cfg : Settings.Reader) (s : Source)
    (h : ∀ line ∈ (s.lines cfg).delivery.items, Readable line) :
    (s.trace cfg).Ends ((s.lines cfg).delivery.items.flatMap Reading.counted)
      (s.lines cfg).error := by
  have hall : ∀ part : List String, (∀ line ∈ part, line ∈ (s.lines cfg).delivery.items) →
      (traceLines [] part).Ends (part.flatMap Reading.counted) none :=
    fun part hp => traceLines_ends [] fun line hl => h line (hp line hl)
  have hcomplete := hall (s.lines cfg).complete fun line hl => List.mem_append_left _ hl
  have hrest := hall (s.lines cfg).rest.toList fun line hl => List.mem_append_right _ hl
  have hend : (Trace.mk [] (s.lines cfg).error).Ends [] (s.lines cfg).error := ⟨rfl, rfl⟩
  have hjoin := (((Trace.ends_ofNotes (s.payloads cfg).opening).andThen hcomplete).andThen
    (Trace.ends_ofNotes
      (if (s.lines cfg).drained then (s.payloads cfg).closing else []))).andThen
    (hrest.andThen hend)
  rw [List.nil_append, List.append_nil, List.append_nil, ← List.flatMap_append] at hjoin
  exact hjoin

theorem Source.trace_clean (cfg : Settings.Reader) (s : Source) (he : (s.lines cfg).error = none)
    (h : ∀ line ∈ (s.lines cfg).delivery.items, Readable line) :
    (s.trace cfg).Ends ((s.lines cfg).delivery.items.flatMap Reading.counted) none :=
  he ▸ s.trace_ends cfg h

end MetricCapture
