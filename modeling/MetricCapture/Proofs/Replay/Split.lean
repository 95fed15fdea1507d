import MetricCapture.Replay.Writer
/-! Cutting bytes into payloads: together the payloads are the bytes, and none of them is empty. -/
namespace MetricCapture.Replay

namespace LineCutter

def read (c : LineCutter) : Bytes := c.lines.reverse.flatten ++ c.line.reverse

structure Nonempty (c : LineCutter) : Prop where
  lines : ∀ l ∈ c.lines, l ≠ []
  line : c.afterReturn = true → c.line ≠ []

private theorem flatten_push (ls : List Bytes) (l : Bytes) :
    (l :: ls).reverse.flatten = ls.reverse.flatten ++ l := by
  rw [List.reverse_cons, List.flatten_append, List.flatten_singleton]

theorem read_step (c : LineCutter) (b : UInt8) : (c.step b).read = c.read ++ [b] := by
  obtain ⟨line, lines, after⟩ := c
  unfold step read
  dsimp only
  split
  · split
    · rename_i hb
      rw [flatten_push, List.reverse_cons, hb, List.reverse_nil, List.append_nil, List.append_assoc]
    · rw [flatten_push]
      split
      · rename_i hb
        rw [hb]
        rfl
      · rfl
  · split
    · rename_i hb
      rw [flatten_push, List.reverse_cons, hb, List.reverse_nil, List.append_nil, List.append_assoc]
    · rw [List.reverse_cons, List.append_assoc]

theorem step_nonempty {c : LineCutter} (h : c.Nonempty) (b : UInt8) : (c.step b).Nonempty := by
  obtain ⟨line, lines, after⟩ := c
  have hpush : ∀ {l : Bytes}, l ≠ [] → ∀ m ∈ l :: lines, m ≠ [] := by
    intro l hl m hm
    rcases List.mem_cons.mp hm with rfl | hm
    · exact hl
    · exact h.lines m hm
  have hfeed : (10 :: line).reverse ≠ [] := by
    rw [Ne, List.reverse_eq_nil_iff]
    exact List.cons_ne_nil 10 line
  unfold step
  dsimp only
  split
  · rename_i hafter
    have hline : line.reverse ≠ [] := by
      rw [Ne, List.reverse_eq_nil_iff]
      exact h.line hafter
    split
    · exact ⟨hpush hfeed, fun he => nomatch he⟩
    · refine ⟨hpush hline, fun _ => ?_⟩
      dsimp only
      split <;> exact List.cons_ne_nil _ []
  · split
    · exact ⟨hpush hfeed, fun he => nomatch he⟩
    · exact ⟨h.lines, fun _ => List.cons_ne_nil b line⟩

theorem read_foldl (c : LineCutter) (bs : Bytes) : (bs.foldl step c).read = c.read ++ bs := by
  induction bs generalizing c with
  | nil => exact (List.append_nil c.read).symm
  | cons b bs ih =>
    rw [List.foldl_cons, ih, read_step, List.append_assoc]
    rfl

theorem foldl_nonempty {c : LineCutter} (h : c.Nonempty) (bs : Bytes) :
    (bs.foldl step c).Nonempty := by
  induction bs generalizing c with
  | nil => exact h
  | cons b bs ih => exact ih (step_nonempty h b)

end LineCutter

theorem flatten_splitLines (bs : Bytes) : (splitLines bs).flatten = bs := by
  have hread := LineCutter.read_foldl ⟨[], [], false⟩ bs
  unfold splitLines
  generalize bs.foldl LineCutter.step ⟨[], [], false⟩ = c at hread ⊢
  change c.read = bs at hread
  obtain ⟨line, lines, after⟩ := c
  dsimp only
  rw [← hread]
  unfold LineCutter.read
  cases line with
  | nil => exact (List.append_nil _).symm
  | cons b line => exact LineCutter.flatten_push lines (b :: line).reverse

theorem splitLines_ne_nil {bs l : Bytes} (h : l ∈ splitLines bs) : l ≠ [] := by
  have hne := LineCutter.foldl_nonempty (c := ⟨[], [], false⟩)
    ⟨fun l hl => absurd hl List.not_mem_nil, fun he => nomatch he⟩ bs
  unfold splitLines at h
  generalize bs.foldl LineCutter.step ⟨[], [], false⟩ = c at h hne
  obtain ⟨line, lines, after⟩ := c
  cases line with
  | nil => exact hne.lines l (List.mem_reverse.mp h)
  | cons b line =>
    rcases List.mem_cons.mp (List.mem_reverse.mp h) with rfl | hm
    · rw [Ne, List.reverse_eq_nil_iff]
      exact List.cons_ne_nil b line
    · exact hne.lines l hm

theorem flatten_pieces {size : Nat} (hs : 0 < size) (done : List Bytes) (bs : Bytes) :
    (pieces size done bs).flatten = done.reverse.flatten ++ bs := by
  fun_induction pieces size done bs with
  | case1 done bs h ih =>
    rw [ih, LineCutter.flatten_push, List.append_assoc, List.take_append_drop]
  | case2 done bs h =>
    have hb : bs = [] := Classical.byContradiction fun hb => h ⟨hs, hb⟩
    rw [hb, List.append_nil]

theorem pieces_ne_nil {size : Nat} {done : List Bytes} {bs p : Bytes} (hd : ∀ q ∈ done, q ≠ [])
    (h : p ∈ pieces size done bs) : p ≠ [] := by
  fun_induction pieces size done bs with
  | case1 done bs hb ih =>
    refine ih (fun q hq => ?_) h
    rcases List.mem_cons.mp hq with rfl | hq
    · rw [Ne, List.take_eq_nil_iff, not_or]
      exact ⟨Nat.ne_of_gt hb.1, hb.2⟩
    · exact hd q hq
  | case2 done bs hb => exact hd p (List.mem_reverse.mp h)

/-- The payloads of some bytes are the bytes, cut into pieces that are not empty. -/
theorem splitPayload_eq_ok {bs : Bytes} {size : Option Int} {payloads : List Bytes}
    (h : splitPayload bs size = .ok payloads) :
    payloads.flatten = bs ∧ ∀ p ∈ payloads, p ≠ [] := by
  unfold splitPayload at h
  split at h
  · rename_i hb
    obtain rfl := Except.ok.inj h
    exact ⟨(List.isEmpty_iff.mp hb).symm, fun p hp => absurd hp List.not_mem_nil⟩
  · split at h
    · obtain rfl := Except.ok.inj h
      exact ⟨flatten_splitLines bs, fun p hp => splitLines_ne_nil hp⟩
    · split at h
      · cases h
      · rename_i n hn
        obtain rfl := Except.ok.inj h
        have hpos : 0 < n.toNat := by omega
        exact ⟨flatten_pieces hpos [] bs,
          fun p hp => pieces_ne_nil (fun q hq => absurd hq List.not_mem_nil) hp⟩

end MetricCapture.Replay
