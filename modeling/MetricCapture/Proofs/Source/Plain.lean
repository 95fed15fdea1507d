import MetricCapture.Source.Open
/-! Plain sources: a read takes bytes from the front, a look changes nothing, and whatever is not
unwrapped is read as it stands. -/
namespace MetricCapture
namespace Source

@[simp] theorem read_ofBytes (bs : Bytes) (n : Nat) :
    (ofBytes bs).read n = .ok (bs.take n, ofBytes (bs.drop n)) := by
  unfold read
  split
  · rename_i h
    subst h
    rfl
  · rfl

@[simp] theorem peek_ofBytes (bs : Bytes) (n : Nat) :
    (ofBytes bs).peek n = .ok (bs.take n, ofBytes bs) := by
  unfold peek
  rw [read_ofBytes]
  change Except.ok (bs.take n, ofBytes (bs.take n ++ bs.drop n)) = _
  rw [List.take_append_drop]

/-- A read of everything gives all of a plain source, however many steps it takes. -/
@[simp] theorem readAll_ofBytes (bs : Bytes) : (ofBytes bs).readAll = .ok bs := by
  induction hn : bs.length using Nat.strongRecOn generalizing bs with
  | ind n ih =>
    rw [readAll, read_ofBytes]
    dsimp only
    split
    · rename_i hnone
      rw [List.take_eq_nil_iff] at hnone
      rw [hnone.resolve_left (by decide)]
    · rename_i hsome
      have hpos := List.length_pos_iff.mpr hsome
      rw [List.length_take] at hpos
      rw [ih _ (by rw [List.length_drop]; omega) _ rfl]
      exact congrArg Except.ok (List.take_append_drop _ _)

end Source

/-- A marker no longer than a look is told by it. -/
theorem marker_take {marker bs : Bytes} {n : Nat} (h : marker.length ≤ n) :
    marker.isPrefixOf (bs.take n) = marker.isPrefixOf bs := by
  rw [Bool.eq_iff_iff, List.isPrefixOf_iff_prefix, List.isPrefixOf_iff_prefix, List.prefix_take_iff]
  exact and_iff_left h

namespace Settings.Reader

theorem replayMarker_lt_sniff (cfg : Reader) : cfg.replayMarker.length < cfg.sniffLength := by
  unfold sniffLength
  omega

theorem compressedMarker_le_sniff (cfg : Reader) :
    cfg.compressedMarker.length ≤ cfg.sniffLength := by
  unfold sniffLength
  omega

theorem four_le_sniff (cfg : Reader) : 4 ≤ cfg.sniffLength := by
  unfold sniffLength
  omega

/-- The first bytes that are looked at tell what all of them tell. -/
theorem detect_take (cfg : Reader) (bs : Bytes) :
    cfg.detect (bs.take cfg.sniffLength) = cfg.detect bs := by
  have hshort : ∀ marker : Bytes, marker.length ≤ 4 →
      marker.isPrefixOf (bs.take cfg.sniffLength) = marker.isPrefixOf bs :=
    fun marker h => marker_take (Nat.le_trans h cfg.four_le_sniff)
  have hpcap : pcapMarkers.any (·.isPrefixOf (bs.take cfg.sniffLength)) =
      pcapMarkers.any (·.isPrefixOf bs) := by
    have hlength : ∀ marker ∈ pcapMarkers, marker.length ≤ 4 := by decide
    rw [Bool.eq_iff_iff, List.any_eq_true, List.any_eq_true]
    exact exists_congr fun marker => and_congr_right fun h => by rw [hshort marker (hlength marker h)]
  unfold detect beginsCompressed beginsReplay
  rw [marker_take cfg.compressedMarker_le_sniff, marker_take (Nat.le_of_lt cfg.replayMarker_lt_sniff),
    hpcap, hshort pcapngMarker (by decide)]

/-- Bytes are left as they are: compression is not unwrapped, or they do not begin with its
marker. -/
def Leaves (cfg : Reader) (bs : Bytes) : Prop :=
  cfg.unwrap = false ∨ ¬ cfg.compressedMarker <+: bs

theorem leaves_iff (cfg : Reader) (bs : Bytes) :
    cfg.Leaves bs ↔ (cfg.unwrap && cfg.beginsCompressed (bs.take cfg.sniffLength)) = false := by
  unfold Leaves beginsCompressed
  rw [marker_take cfg.compressedMarker_le_sniff, Bool.and_eq_false_iff,
    ← List.isPrefixOf_iff_prefix, Bool.not_eq_true]

theorem detect_replay {cfg : Reader} {bs : Bytes} (h : cfg.Leaves bs)
    (hr : cfg.replayMarker <+: bs) : cfg.detect (bs.take cfg.sniffLength) = .replay := by
  have hmark : cfg.beginsReplay (bs.take cfg.sniffLength) = true := by
    unfold beginsReplay
    rw [marker_take (Nat.le_of_lt cfg.replayMarker_lt_sniff), List.isPrefixOf_iff_prefix]
    exact hr
  rw [cfg.leaves_iff] at h
  unfold detect
  rw [h, hmark]
  rfl

end Settings.Reader

namespace Source

/-- A source that is not unwrapped is read from its first byte. -/
theorem resolve_ofBytes {cfg : Settings.Reader} {bs : Bytes} {kind : SourceKind}
    (h : cfg.detect (bs.take cfg.sniffLength) = kind) (hk : kind ≠ .compressed) :
    (ofBytes bs).resolve cfg = .ok ⟨kind, false, ofBytes bs⟩ := by
  have hpeek : orCorrupt ((ofBytes bs).peek cfg.sniffLength) =
      .ok (bs.take cfg.sniffLength, ofBytes bs) := by
    rw [peek_ofBytes]
    rfl
  unfold resolve
  rw [hpeek]
  simp only [bind, Except.bind, h]
  cases kind with
  | compressed => exact absurd rfl hk
  | replay => rfl
  | pcap => rfl
  | pcapng => rfl
  | text => rfl

end Source

end MetricCapture
