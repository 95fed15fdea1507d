import MetricCapture.Proofs.Attempt
import MetricCapture.Proofs.Replay.RoundTrip
/-! Frames of a line each: without a size, the text of messages is cut behind every line feed and behind
every carriage return. So there is a frame for each message unless a carriage return stands inside one. -/
namespace MetricCapture.Replay

open MetricCapture.Text
open Bytes (Signed64)

def messageLine (m : String) : Bytes := Utf8.ofString m ++ [10]

/-- What ends the line of a message: a line feed, with the carriage return before it if there is one. -/
def lineEnd (m : String) : Bytes :=
  if (Utf8.ofString m).getLast? = some 13 then [13, 10] else [10]

/-- The pieces that the line of a message is cut into: one for each carriage return inside it, and one for
its end. -/
def linePieces (m : String) : List Bytes :=
  let parts := (dropReturn (Utf8.ofString m)).splitOn 13
  parts.dropLast.map (· ++ [13]) ++ [parts.getLastD [] ++ lineEnd m]

theorem messageLine_eq (m : String) :
    messageLine m = dropReturn (Utf8.ofString m) ++ lineEnd m := by
  unfold messageLine lineEnd dropReturn
  by_cases hlast : (Utf8.ofString m).getLast? = some 13
  · obtain ⟨bs, hbs⟩ := List.getLast?_eq_some_iff.mp hlast
    simp [hbs]
  · simp [hlast]

namespace LineCutter

def settled (c : LineCutter) : LineCutter :=
  if c.afterReturn then ⟨[], c.line.reverse :: c.lines, false⟩ else c

/-- A carriage return ends a line as soon as no line feed follows it. -/
theorem step_settled (c : LineCutter) {b : UInt8} (hb : b ≠ 10) : c.step b = c.settled.step b := by
  obtain ⟨line, lines, after⟩ := c
  cases after with
  | false => rfl
  | true => by_cases h : b = 13 <;> simp [step, settled, hb, h]

theorem foldl_settled (c : LineCutter) {bs : Bytes} (h : 10 ∉ bs) :
    (bs.foldl step c).settled = (bs.foldl step c.settled).settled := by
  cases bs with
  | nil => cases hc : c.afterReturn <;> simp [settled, hc]
  | cons b bs => rw [List.foldl_cons, List.foldl_cons, step_settled c (List.ne_of_not_mem_cons h).symm]

theorem afterReturn_step (c : LineCutter) (b : UInt8) : (c.step b).afterReturn = decide (b = 13) := by
  unfold step
  split
  · split <;> simp [*]
  · split <;> simp [*]

/-- Bytes that end no line go into the line begun. -/
theorem foldl_plain (line : Bytes) (lines : List Bytes) {bs : Bytes} (h : 10 ∉ bs) (h' : 13 ∉ bs) :
    bs.foldl step ⟨line, lines, false⟩ = ⟨bs.reverse ++ line, lines, false⟩ := by
  induction bs generalizing line with
  | nil => rfl
  | cons b bs ih =>
    have hstep : step ⟨line, lines, false⟩ b = ⟨b :: line, lines, false⟩ := by
      simp [step, (List.ne_of_not_mem_cons h).symm, (List.ne_of_not_mem_cons h').symm]
    rw [List.foldl_cons, hstep, ih (b :: line) (List.not_mem_of_not_mem_cons h)
      (List.not_mem_of_not_mem_cons h')]
    simp

/-- Parts with carriage returns between them are cut behind these. -/
theorem settled_parts (lines : List Bytes) {parts : List Bytes} {last : Bytes}
    (h : ∀ p ∈ parts ++ [last], 10 ∉ p ∧ 13 ∉ p) :
    (([13].intercalate (parts ++ [last])).foldl step ⟨[], lines, false⟩).settled =
      ⟨last.reverse, (parts.map (· ++ [13])).reverse ++ lines, false⟩ := by
  induction parts generalizing lines with
  | nil =>
    obtain ⟨h10, h13⟩ := h last List.mem_cons_self
    simp [foldl_plain [] lines h10 h13, settled]
  | cons p parts ih =>
    obtain ⟨⟨h10, h13⟩, hrest⟩ := List.forall_mem_cons.mp h
    have hfeed : 10 ∉ [13].intercalate (parts ++ [last]) := by
      intro hmem
      rcases mem_intercalate_singleton hmem with hb | ⟨q, hq, hb⟩
      · exact absurd hb (by decide)
      · exact (hrest q hq).1 hb
    have hreturn : (p ++ [13]).foldl step ⟨[], lines, false⟩ = ⟨13 :: p.reverse, lines, true⟩ := by
      rw [List.foldl_append, foldl_plain [] lines h10 h13]
      simp [step]
    have hparts : [13].intercalate (p :: (parts ++ [last])) =
        (p ++ [13]) ++ [13].intercalate (parts ++ [last]) := by
      rw [List.intercalate_cons_of_ne_nil (List.concat_ne_nil last parts)]
    rw [List.cons_append, hparts, List.foldl_append, hreturn, foldl_settled _ hfeed]
    simpa [settled] using ih ((p ++ [13]) :: lines) hrest

/-- Behind the line of a message no line is begun, and its pieces are the last lines. -/
theorem foldl_messageLine {m : String} (h : '\n' ∉ m.toList) (lines : List Bytes) :
    (messageLine m).foldl step ⟨[], lines, false⟩ = ⟨[], (linePieces m).reverse ++ lines, false⟩ := by
  obtain ⟨parts, last, hparts⟩ :=
    (List.eq_nil_or_concat ((dropReturn (Utf8.ofString m)).splitOn 13)).resolve_left
      (List.splitOn_ne_nil 13 _)
  have hplain : ∀ p ∈ parts ++ [last], 10 ∉ p ∧ 13 ∉ p := by
    intro p hp
    rw [← List.concat_eq_append, ← hparts] at hp
    exact ⟨fun hb => not_mem_ofString h (mem_dropReturn (mem_of_mem_splitOn hp hb)),
      not_mem_of_mem_splitOn hp⟩
  have hjoin : dropReturn (Utf8.ofString m) = [13].intercalate (parts ++ [last]) := by
    rw [← List.concat_eq_append, ← hparts, List.intercalate_splitOn]
  have hpieces : linePieces m = parts.map (· ++ [13]) ++ [last ++ lineEnd m] := by
    simp [linePieces, hparts]
  have hsettled := settled_parts lines hplain
  rw [← hjoin] at hsettled
  rw [messageLine_eq, List.foldl_append, hpieces]
  by_cases hlast : (Utf8.ofString m).getLast? = some 13
  · -- The line feed follows a carriage return, which has closed whatever line was begun.
    have hend : lineEnd m = [13, 10] := if_pos hlast
    rw [hend, List.foldl_cons, List.foldl_cons, List.foldl_nil, step_settled (b := 13) _ (by decide),
      hsettled]
    simp [step]
  · have hend : lineEnd m = [10] := if_neg hlast
    have hdrop : dropReturn (Utf8.ofString m) = Utf8.ofString m := if_neg hlast
    have hopen : ((dropReturn (Utf8.ofString m)).foldl step ⟨[], lines, false⟩).afterReturn = false := by
      rw [hdrop]
      rcases List.eq_nil_or_concat (Utf8.ofString m) with hnil | ⟨bs, b, hbs⟩
      · rw [hnil]
        rfl
      · rw [hbs, List.concat_eq_append, List.foldl_append, List.foldl_cons, List.foldl_nil,
          afterReturn_step, decide_eq_false_iff_not]
        rintro rfl
        simp [hbs] at hlast
    rw [settled, hopen, if_neg Bool.false_ne_true] at hsettled
    rw [hend, hsettled]
    simp [step]

end LineCutter

/-- The text of messages is cut into the pieces of their lines. -/
theorem splitLines_messageText {ms : List String} (h : ∀ m ∈ ms, '\n' ∉ m.toList) :
    splitLines (messageText ms) = ms.flatMap linePieces := by
  have hrun : ∀ lines, (messageText ms).foldl LineCutter.step ⟨[], lines, false⟩ =
      ⟨[], (ms.flatMap linePieces).reverse ++ lines, false⟩ := by
    induction ms with
    | nil => exact fun lines => rfl
    | cons m ms ih =>
      obtain ⟨hm, hms⟩ := List.forall_mem_cons.mp h
      intro lines
      have htext : messageText (m :: ms) = messageLine m ++ messageText ms := rfl
      rw [htext, List.foldl_append, LineCutter.foldl_messageLine hm, ih hms]
      simp
  simp [splitLines, hrun []]

theorem length_splitOn (sep : UInt8) (bs : Bytes) : (bs.splitOn sep).length = bs.count sep + 1 := by
  induction bs with
  | nil => rfl
  | cons b bs ih =>
    rw [List.splitOn_cons_eq_if_modifyHead, List.count_cons]
    split
    · rw [List.length_cons, ih]
    · rw [List.length_modifyHead, ih, Nat.add_zero]

theorem count_encode (cs : List Char) : (Utf8.encode cs).count 13 = cs.count '\r' := by
  induction cs with
  | nil => rfl
  | cons c cs ih =>
    have happend : Utf8.encode (c :: cs) = String.utf8EncodeChar c ++ Utf8.encode cs := rfl
    rw [happend, List.count_append, ih, List.count_cons]
    by_cases hc : c = '\r'
    · have hreturn : (String.utf8EncodeChar '\r').count 13 = 1 := by decide
      simp [hc, hreturn, Nat.add_comm]
    · have hnone : 13 ∉ String.utf8EncodeChar c := fun hb =>
        hc (Char.toNat_inj.mp (Utf8.mem_encodeChar hb (by decide)))
      simp [List.count_eq_zero.mpr hnone, hc]

/-- How many carriage returns stand inside a message. One at its end is not inside. -/
def returnsInside (m : String) : Nat := (chomp m.toList).count '\r'

theorem length_linePieces (m : String) : (linePieces m).length = returnsInside m + 1 := by
  unfold linePieces returnsInside
  rw [Utf8.ofString, dropReturn_encode, ← count_encode]
  simp [length_splitOn]

/-- A line is in one piece if no carriage return stands inside its message. -/
theorem linePieces_eq {m : String} (h : returnsInside m = 0) : linePieces m = [messageLine m] := by
  have hnone : 13 ∉ dropReturn (Utf8.ofString m) := by
    rw [Utf8.ofString, dropReturn_encode, ← List.count_eq_zero, count_encode]
    exact h
  simp [linePieces, List.splitOn_eq_singleton hnone, messageLine_eq]

/-- How many frames some messages take without a size: one each, and one for every carriage return inside
a message. -/
def frameCount : List String → Nat
  | [] => 0
  | m :: ms => returnsInside m + 1 + frameCount ms

theorem length_pieces (ms : List String) : (ms.flatMap linePieces).length = frameCount ms := by
  induction ms with
  | nil => rfl
  | cons m ms ih => rw [List.flatMap_cons, List.length_append, length_linePieces, ih, frameCount]

theorem length_le_frameCount (ms : List String) : ms.length ≤ frameCount ms := by
  induction ms with
  | nil => exact Nat.le_refl _
  | cons m ms ih =>
    rw [List.length_cons, frameCount]
    omega

/-- There is a frame for each message exactly if no carriage return stands inside one. -/
theorem frameCount_eq_iff {ms : List String} :
    frameCount ms = ms.length ↔ ∀ m ∈ ms, returnsInside m = 0 := by
  induction ms with
  | nil => exact iff_of_true rfl nofun
  | cons m ms ih =>
    have hle := length_le_frameCount ms
    rw [List.forall_mem_cons, ← ih, frameCount, List.length_cons]
    omega

theorem pieces_eq {ms : List String} (h : ∀ m ∈ ms, returnsInside m = 0) :
    ms.flatMap linePieces = ms.map messageLine := by
  induction ms with
  | nil => rfl
  | cons m ms ih =>
    obtain ⟨hm, hms⟩ := List.forall_mem_cons.mp h
    rw [List.flatMap_cons, linePieces_eq hm, ih hms]
    rfl

theorem splitPayload_messageText {ms : List String} (h : ∀ m ∈ ms, '\n' ∉ m.toList) :
    splitPayload (messageText ms) none = .ok (ms.flatMap linePieces) := by
  unfold splitPayload
  split
  · rename_i hempty
    rw [← splitLines_messageText h, List.isEmpty_iff.mp hempty]
    rfl
  · rw [← splitLines_messageText h]

/-- No piece of a line is longer than the line. -/
theorem length_le_of_mem_linePieces {m : String} (h : '\n' ∉ m.toList) {p : Bytes}
    (hp : p ∈ linePieces m) : p.length ≤ (messageLine m).length := by
  have hflat := flatten_splitLines (messageText [m])
  rw [splitLines_messageText (List.forall_mem_singleton.mpr h), List.flatMap_singleton] at hflat
  have hline : messageText [m] = messageLine m := List.flatMap_singleton _ _
  rw [← hline, ← hflat]
  exact (List.sublist_flatten_of_mem hp).length_le

section Writing

variable {cfg : Settings.Reader} {layout : Layout} {messages : List String} {payloads : List Bytes}

/-- Too few timestamps are refused. -/
theorem encode_of_few (hp : splitPayload (messageText messages) layout.frameSize = .ok payloads)
    {ts : List Int} (hts : layout.timestamps = some ts) (hfew : ts.length < payloads.length) :
    encode cfg layout messages = .error (.timestamps payloads.length ts.length) := by
  unfold encode frameTimes
  simp [hp, hts, hfew, bind, Except.bind]

/-- Payloads are written if there are timestamps for them and all numbers fit. -/
theorem encode_of_fits (hp : splitPayload (messageText messages) layout.frameSize = .ok payloads)
    (henough : ∀ ts, layout.timestamps = some ts → payloads.length ≤ ts.length)
    (htimes : ∀ i < payloads.length, Signed64 (layout.time i))
    (hoob : layout.outOfBand.length < 256 ^ (4 : Nat))
    (hfit : ∀ p ∈ payloads, p.length < 256 ^ (4 : Nat)) :
    encode cfg layout messages = .ok ((layout.container payloads).bytes cfg) := by
  obtain ⟨times, ht⟩ : ∃ times, frameTimes layout payloads.length = .ok times := by
    unfold frameTimes
    cases hts : layout.timestamps with
    | none => exact ⟨_, rfl⟩
    | some ts => exact ⟨_, if_neg (Nat.not_lt.mpr (henough ts hts))⟩
  have hmem : ∀ t ∈ times, Signed64 t := by
    rw [frameTimes_eq_ok ht]
    exact List.forall_mem_map.mpr fun i hi => htimes i (List.mem_range.mp hi)
  obtain ⟨frames, hf⟩ : ∃ frames, ((payloads.zip times).mapM fun x =>
      encodeFrame x.2 layout.outOfBand x.1) = .ok frames := by
    refine exists_mapM_iff.mpr fun x hx => ⟨_, if_pos ?_⟩
    obtain ⟨hl, hu⟩ := hmem _ (List.of_mem_zip hx).2
    have hlength := hfit _ (List.of_mem_zip hx).1
    simp [hl, hu, hlength, hoob]
  obtain ⟨b, hb⟩ : ∃ b, encode cfg layout messages = .ok b :=
    ⟨_, bind_eq_ok_iff.mpr ⟨_, hp, bind_eq_ok_iff.mpr ⟨_, ht, bind_eq_ok_iff.mpr ⟨_, hf, rfl⟩⟩⟩⟩
  rw [hb, (encode_bytes hb hp).1]

/-- Every frame adds its header and the out-of-band bytes to the bytes of the payloads. -/
theorem length_segments (layout : Layout) (payloads : List Bytes) :
    ((layout.container payloads).segments.flatMap Segment.bytes).length =
      payloads.length * (16 + layout.outOfBand.length) + payloads.flatten.length := by
  have hmap : (layout.container payloads).segments.map (fun s => s.bytes.length) =
      payloads.map fun p => 16 + layout.outOfBand.length + p.length := by
    apply List.ext_getElem
    · simp [Layout.container]
    · intro i hi hi'
      simp [Layout.container, Layout.segment, Segment.bytes, Nat.add_assoc]
  rw [List.length_flatMap, hmap]
  clear hmap
  induction payloads with
  | nil => simp
  | cons p ps ih =>
    rw [List.map_cons, List.sum_cons, ih, List.flatten_cons, List.length_append, List.length_cons,
      Nat.succ_mul]
    omega

/-- The same bytes in other payloads make another container if these are more or fewer. -/
theorem length_eq_of_bytes_eq {others : List Bytes} (hflat : payloads.flatten = others.flatten)
    (h : (layout.container payloads).bytes cfg = (layout.container others).bytes cfg) :
    payloads.length = others.length := by
  have hlength := congrArg List.length h
  simp only [Container.bytes, List.length_append, List.length_cons, length_segments, hflat] at hlength
  simp only [Layout.container] at hlength
  have hmul : payloads.length * (16 + layout.outOfBand.length) =
      others.length * (16 + layout.outOfBand.length) := by omega
  exact Nat.eq_of_mul_eq_mul_right (by omega) hmul

/-- Write messages without a line feed, with no size for the payloads, and with a timestamp for each
message or none; let timestamps and out-of-band bytes fit. There is one frame for each message, in order, of
its line and its timestamp, if and only if no carriage return stands inside a message and every line fits.
Every such carriage return takes a frame more. Timestamps that are given are then too few, and without them
the pieces of the lines are written, a frame each. -/
theorem encode_messages (hlines : ∀ m ∈ messages, '\n' ∉ m.toList) (hsize : layout.frameSize = none)
    (hgiven : ∀ ts, layout.timestamps = some ts → ts.length = messages.length)
    (htimes : ∀ i < frameCount messages, Signed64 (layout.time i))
    (hoob : layout.outOfBand.length < 256 ^ (4 : Nat)) :
    (encode cfg layout messages = .ok ((layout.container (messages.map messageLine)).bytes cfg) ↔
        ∀ m ∈ messages, returnsInside m = 0 ∧ (messageLine m).length < 256 ^ (4 : Nat)) ∧
      ((∃ m ∈ messages, 0 < returnsInside m) → layout.timestamps.isSome = true →
        encode cfg layout messages = .error (.timestamps (frameCount messages) messages.length)) ∧
      (layout.timestamps = none → (∀ m ∈ messages, (messageLine m).length < 256 ^ (4 : Nat)) →
        (messages.flatMap linePieces).length = frameCount messages ∧
          encode cfg layout messages =
            .ok ((layout.container (messages.flatMap linePieces)).bytes cfg)) := by
  have hp : splitPayload (messageText messages) layout.frameSize = .ok (messages.flatMap linePieces) :=
    hsize ▸ splitPayload_messageText hlines
  have hcount := length_pieces messages
  have hflat := (splitPayload_eq_ok hp).1
  refine ⟨⟨fun h => ?_, fun h => ?_⟩, fun ⟨m, hm, hpos⟩ hsome => ?_, fun hnone hfit => ⟨hcount, ?_⟩⟩
  · obtain ⟨hbytes, hfit⟩ := encode_bytes h hp
    have hsame := length_eq_of_bytes_eq hflat.symm hbytes
    rw [List.length_map, hcount] at hsame
    have hwhole := frameCount_eq_iff.mp hsame.symm
    refine fun m hm => ⟨hwhole m hm, ?_⟩
    rw [pieces_eq hwhole] at hfit
    obtain ⟨i, hi, hline⟩ := List.getElem_of_mem (List.mem_map_of_mem (f := messageLine) hm)
    rw [← hline]
    exact (hfit _ (List.mem_mapIdx.mpr ⟨i, hi, rfl⟩)).2.2.2
  · have hwhole := frameCount_eq_iff.mpr fun m hm => (h m hm).1
    rw [pieces_eq fun m hm => (h m hm).1] at hp
    refine encode_of_fits hp (fun ts hts => ?_) (fun i hi => ?_) hoob
      (List.forall_mem_map.mpr fun m hm => (h m hm).2)
    · rw [List.length_map]
      exact Nat.le_of_eq (hgiven ts hts).symm
    · rw [List.length_map, ← hwhole] at hi
      exact htimes i hi
  · obtain ⟨ts, hts⟩ := Option.isSome_iff_exists.mp hsome
    have hmore : messages.length < frameCount messages :=
      Nat.lt_of_le_of_ne (length_le_frameCount messages) fun heq =>
        Nat.ne_of_gt hpos (frameCount_eq_iff.mp heq.symm m hm)
    rw [encode_of_few hp hts (by rw [hgiven ts hts, hcount]; exact hmore), hgiven ts hts, hcount]
  · refine encode_of_fits hp (fun ts hts => ?_) (hcount ▸ htimes) hoob fun p hpiece => ?_
    · rw [hnone] at hts
      cases hts
    · obtain ⟨m, hm, hpiece⟩ := List.mem_flatMap.mp hpiece
      exact Nat.lt_of_le_of_lt (length_le_of_mem_linePieces (hlines m hm) hpiece) (hfit m hm)

end Writing

def returningMessages : List String := ["a\rb", "c\r", "d\r\r"]

theorem encode_returningMessages :
    encode .standard {} returningMessages =
        .ok ((Layout.container {} [[97, 13], [98, 10], [99, 13, 10], [100, 13], [13, 10]]).bytes .standard) ∧
      encode .standard { timestamps := some [7, 8, 9] } returningMessages = .error (.timestamps 5 3) ∧
        encode .standard { timestamps := some [7] } ["c\r"] =
          .ok ((Layout.container { timestamps := some [7] } [[99, 13, 10]]).bytes .standard) := by
  refine ⟨?_, ?_, ?_⟩
  · exact ((encode_messages (by decide) rfl (fun ts h => by cases h) (by decide) (by decide)).2.2 rfl (by decide)).2
  · exact (encode_messages (by decide) rfl (fun ts h => by cases h; rfl) (by decide) (by decide)).2.1
      (by decide) rfl
  · exact (encode_messages (by decide) rfl (fun ts h => by cases h; rfl) (by decide) (by decide)).1.mpr
      (by decide)

end MetricCapture.Replay
