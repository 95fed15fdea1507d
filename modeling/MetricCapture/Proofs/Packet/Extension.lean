import MetricCapture.Packet.Link
/-! Extension headers of IPv6, any number of which may stand in front of a datagram. A walk along them ends
at the datagram. The reader does not walk: it asks what the first header of a packet is, and so finds a
datagram only where nothing stands in front of it, whatever frame the packet is in. -/
namespace MetricCapture.Packet
open MetricCapture.Bytes

inductive Extension where
  | hopByHop
  | routing
  | destination
  deriving Repr, DecidableEq

def Extension.protocol : Extension → UInt8
  | .hopByHop => 0
  | .routing => 43
  | .destination => 60

/-- A chain of extension headers in front of a datagram: the protocol it begins with, and its bytes. Each
header names the next one, and then counts its own bytes, in units of eight beyond the first eight. What
else it holds makes no difference. -/
inductive Chain (datagram : Bytes) : List Extension → UInt8 → Bytes → Prop where
  | datagram : Chain datagram [] datagramProtocol datagram
  | extension (e : Extension) {es : List Extension} {next units : UInt8} {body rest : Bytes}
      (length_body : body.length = 8 * units.toNat + 6) (chain : Chain datagram es next rest) :
      Chain datagram (e :: es) e.protocol (next :: units :: body ++ rest)

/-- Where extension headers lead to: the protocol that the last one names, and all behind it. -/
def walk (protocol : UInt8) (bs : Bytes) : UInt8 × Bytes :=
  match bs with
  | next :: units :: rest =>
    if [.hopByHop, .routing, .destination].any (Extension.protocol · == protocol) then
      walk next (rest.drop (8 * units.toNat + 6))
    else (protocol, bs)
  | _ => (protocol, bs)
termination_by bs.length
decreasing_by
  simp only [List.length_drop, List.length_cons]
  omega

def ofWalk (packet : Bytes) : Option Bytes :=
  if packet.length < 40 then none
  else
    let (protocol, bs) := walk (packet.getD 6 0) (counted (bigAt 4 2 packet) (packet.drop 40))
    if protocol = datagramProtocol then datagramData bs else none

theorem walk_datagram (bs : Bytes) : walk datagramProtocol bs = (datagramProtocol, bs) := by
  unfold walk
  split
  · exact if_neg (by decide)
  · rfl

theorem walk_extension (e : Extension) {next units : UInt8} {body rest : Bytes}
    (h : body.length = 8 * units.toNat + 6) :
    walk e.protocol (next :: units :: body ++ rest) = walk next rest := by
  have he : [.hopByHop, .routing, .destination].any (Extension.protocol · == e.protocol) = true := by
    cases e <;> rfl
  rw [List.cons_append, List.cons_append, walk, if_pos he, ← h, List.drop_left]

namespace Chain

variable {datagram bs : Bytes} {es : List Extension} {protocol : UInt8}

/-- However many headers there are, the walk ends at the datagram. -/
theorem walk_eq (h : Chain datagram es protocol bs) :
    walk protocol bs = (datagramProtocol, datagram) := by
  induction h with
  | datagram => exact walk_datagram datagram
  | extension e length_body chain ih => rw [walk_extension e length_body, ih]

theorem length_le (h : Chain datagram es protocol bs) : datagram.length ≤ bs.length := by
  induction h with
  | datagram => exact Nat.le_refl _
  | extension e length_body chain ih =>
    rw [List.length_append]
    omega

/-- A chain begins with a datagram only if it has nothing else. -/
theorem protocol_eq_iff (h : Chain datagram es protocol bs) : protocol = datagramProtocol ↔ es = [] := by
  cases h with
  | datagram => exact iff_of_true rfl rfl
  | extension e => exact iff_of_false (by cases e <;> decide) (List.cons_ne_nil _ _)

end Chain

/-- The reader finds what a walk would find, in packets whose first header is that of a datagram. -/
theorem ofIpv6_eq (packet : Bytes) :
    ofIpv6 packet = if packet.getD 6 0 = datagramProtocol then ofWalk packet else none := by
  unfold ofIpv6 ofWalk
  by_cases h : packet.getD 6 0 = datagramProtocol
  · rw [h, walk_datagram]
    simp
  · rw [if_neg h, if_pos]
    rw [Bool.or_eq_true, bne_iff_ne]
    exact .inr h

/-- A packet of IPv6 with a datagram behind extension headers. It counts the bytes of both, and there may
be padding behind it; or it leaves them uncounted, and all that is there is its own. -/
inductive Sends (data : Bytes) (es : List Extension) : Bytes → Prop where
  | intro {first flow₁ flow₂ flow₃ high low protocol hops : UInt8} {addresses header chain padding : Bytes}
      (version : first.toNat / 16 = 6) (length_addresses : addresses.length = 32)
      (length_header : header.length = 8) (chained : Chain (header ++ data) es protocol chain)
      (counts : ofBig [high, low] = chain.length ∨ ofBig [high, low] = 0 ∧ padding = []) :
      Sends data es (first :: flow₁ :: flow₂ :: flow₃ :: high :: low :: protocol :: hops ::
        (addresses ++ (chain ++ padding)))

theorem counted_append {n : Nat} {chain padding : Bytes} (some_chain : chain ≠ [])
    (counts : n = chain.length ∨ n = 0 ∧ padding = []) : counted n (chain ++ padding) = chain := by
  unfold counted
  rcases counts with rfl | ⟨rfl, rfl⟩
  · rw [if_neg (mt List.length_eq_zero_iff.mp some_chain), List.take_left]
  · rw [if_pos rfl, List.append_nil]

namespace Sends

variable {data packet : Bytes} {es : List Extension}

theorem version_eq (h : Sends data es packet) : (packet.getD 0 0).toNat / 16 = 6 := by
  obtain ⟨version, _⟩ := h
  exact version

/-- What a packet counts is its chain, which begins with the protocol that its header names. -/
theorem exists_chain (h : Sends data es packet) :
    40 ≤ packet.length ∧ ∃ header, header.length = 8 ∧
      Chain (header ++ data) es (packet.getD 6 0) (counted (bigAt 4 2 packet) (packet.drop 40)) := by
  obtain ⟨-, length_addresses, length_header, chained, counts⟩ := h
  rename_i addresses header chain padding
  have hne : chain ≠ [] := by
    rintro rfl
    have hlong := chained.length_le
    rw [List.length_append, length_header, List.length_nil] at hlong
    omega
  refine ⟨?_, header, length_header, ?_⟩
  · simp only [List.length_cons, List.length_append, length_addresses]
    omega
  · simp only [List.drop_succ_cons, List.drop_left' length_addresses]
    exact (counted_append hne counts).symm ▸ chained

/-- The walk finds the datagram of a packet, whatever is in front of it. -/
theorem ofWalk_eq (h : Sends data es packet) : ofWalk packet = some data := by
  obtain ⟨hlong, header, length_header, chained⟩ := h.exists_chain
  have hheader : ¬ (header ++ data).length < 8 := by
    rw [List.length_append]
    omega
  unfold ofWalk datagramData
  rw [if_neg (Nat.not_lt_of_le hlong), chained.walk_eq]
  dsimp only
  rw [if_pos rfl, if_neg hheader, ← length_header, List.drop_left]

/-- The reader finds it if nothing is. -/
theorem ofIpv6_eq (h : Sends data es packet) :
    ofIpv6 packet = if es = [] then some data else none := by
  obtain ⟨_, _, _, chained⟩ := h.exists_chain
  simp only [Packet.ofIpv6_eq, h.ofWalk_eq, chained.protocol_eq_iff]

end Sends

/-- A field is read behind what is in front of it. -/
theorem bigAt_behind {front : Bytes} {n : Nat} (length_front : front.length = n) (bs : Bytes)
    (length : Nat) : bigAt n length (front ++ bs) = bigAt 0 length bs := by
  unfold bigAt slice
  rw [List.drop_left' length_front, List.drop_zero]

/-- The field of an Ethernet type in front of a packet of IPv6, and all behind it: between the two there
may be VLAN tags, each of which names the type of what follows it. -/
inductive Tagged (packet : Bytes) : Nat → Bytes → Prop where
  | packet : Tagged packet 0 (0x86 :: 0xDD :: packet)
  | tag {tags : Nat} {high low control₁ control₂ : UInt8} {field : Bytes}
      (is_tag : ofBig [high, low] ∈ tagTypes) (tagged : Tagged packet tags field) :
      Tagged packet (tags + 1) (high :: low :: control₁ :: control₂ :: field)

namespace Tagged

variable {packet field : Bytes} {tags : Nat}

theorem two_le_length (h : Tagged packet tags field) : 2 ≤ field.length := by
  cases h with
  | packet => simp
  | tag => simp

theorem type_mem (h : Tagged packet tags field) : bigAt 0 2 field ∈ 0x86DD :: tagTypes := by
  cases h with
  | packet => exact List.mem_cons_self
  | tag is_tag => exact List.mem_cons_of_mem _ is_tag

/-- As many tags are taken off as there are, or as may be. -/
theorem dropTags_eq (h : Tagged packet tags field) (most : Nat) :
    ∃ rest, Tagged packet (tags - most) rest ∧
      dropTags most (bigAt 0 2 field) (field.drop 2) = some (bigAt 0 2 rest, rest.drop 2) := by
  -- On the tags from the outermost in: with each, one fewer of the others may be taken off.
  induction h generalizing most with
  | packet =>
    rw [Nat.zero_sub]
    refine ⟨_, .packet, ?_⟩
    cases most with
    | zero => rfl
    | succ most => rfl
  | tag is_tag tagged ih =>
    cases most with
    | zero => exact ⟨_, .tag is_tag tagged, rfl⟩
    | succ most =>
      rename_i tags high low control₁ control₂ field
      obtain ⟨rest, hrest, hdrop⟩ := ih most
      refine ⟨rest, Nat.succ_sub_succ tags most ▸ hrest, ?_⟩
      have hcontains : (!tagTypes.contains (ofBig [high, low])) = false := by
        rw [List.contains_iff_mem.mpr is_tag]
        rfl
      have hlong : ¬ (control₁ :: control₂ :: field).length < 4 := by
        have := tagged.two_le_length
        simp only [List.length_cons]
        omega
      change dropTags (most + 1) (ofBig [high, low]) (control₁ :: control₂ :: field) = _
      rw [dropTags, hcontains, if_neg Bool.false_ne_true, if_neg hlong]
      exact hdrop

/-- Tags are not labels, so that they are taken off by two. -/
theorem unwrap_eq (h : Tagged packet tags field) :
    ∃ rest, Tagged packet (tags - 2) rest ∧
      unwrap (bigAt 0 2 field) (field.drop 2) = some (bigAt 0 2 rest, rest.drop 2) := by
  have hlabels : ∀ t ∈ 0x86DD :: tagTypes, labelTypes.contains t = false := by decide
  unfold unwrap
  rw [hlabels _ h.type_mem]
  exact h.dropTags_eq 2

/-- A tag that is left hides what is behind it. -/
theorem ofEtherType_eq (h : Tagged packet tags field) :
    ofEtherType (bigAt 0 2 field) (field.drop 2) = if tags = 0 then ofIpv6 packet else none := by
  have htags : ∀ t ∈ tagTypes, t ≠ 0x0800 ∧ t ≠ 0x86DD := by decide
  cases h with
  | packet => rfl
  | tag is_tag =>
    obtain ⟨hfour, hsix⟩ := htags _ is_tag
    unfold ofEtherType
    rw [if_neg (Nat.succ_ne_zero _)]
    exact (if_neg hfour).trans (if_neg hsix)

/-- Of an Ethernet frame four tags are taken off in all. -/
theorem ofEthernet_eq (h : Tagged packet tags field) {addresses : Bytes}
    (length_addresses : addresses.length = 12) :
    ofEthernet (addresses ++ field) = if tags ≤ 4 then ofIpv6 packet else none := by
  have hlarge : ∀ t ∈ 0x86DD :: tagTypes, 1500 < t := by decide
  have htype := bigAt_behind length_addresses field 2
  have hbehind : (addresses ++ field).drop (12 + 2) = field.drop 2 :=
    length_addresses ▸ List.drop_length_add_append 2
  have hlong : ¬ (addresses ++ field).length < 14 := by
    have := h.two_le_length
    rw [List.length_append]
    omega
  obtain ⟨rest, hrest, hunwrap⟩ := h.unwrap_eq
  obtain ⟨rest', hrest', hunwrap'⟩ := hrest.unwrap_eq
  rw [ofEthernet, dif_neg hlong]
  dsimp only
  rw [htype, hbehind, if_pos (hlarge _ h.type_mem), hunwrap]
  change unwrap _ _ >>= _ = _
  rw [hunwrap']
  change ofEtherType _ _ = _
  rw [hrest'.ofEtherType_eq]
  simp only [show tags - 2 - 2 = 0 ↔ tags ≤ 4 by omega]

end Tagged

/-- The frames of each link layer around a packet of IPv6, and the count of VLAN tags in them. -/
inductive Link.Carries (packet : Bytes) : Link → Nat → Bytes → Prop where
  | raw : Carries packet .raw 0 packet
  | loopback {family : Bytes} (big : Bool) (length_family : family.length = 4)
      (told : number big family ∈ [24, 28, 30]) : Carries packet .loopback 0 (family ++ packet)
  | cooked {header : Bytes} (length_header : header.length = 14) :
      Carries packet .cooked 0 (header ++ 0x86 :: 0xDD :: packet)
  | ethernet {addresses field : Bytes} {tags : Nat} (length_addresses : addresses.length = 12)
      (tagged : Tagged packet tags field) : Carries packet .ethernet tags (addresses ++ field)

theorem ofRaw_eq {packet : Bytes} (h : (packet.getD 0 0).toNat / 16 = 6) :
    ofRaw packet = ofIpv6 packet := by
  unfold ofRaw
  rw [h]
  rfl

/-- The address families of IPv6 are not that of IPv4, in whatever order their bytes are. -/
theorem familyIn_eq {family : Bytes} {big : Bool} (length_family : family.length = 4)
    (told : number big family ∈ [24, 28, 30]) (packet : Bytes) :
    familyIn [2] (family ++ packet) = false ∧ familyIn [24, 28, 30] (family ++ packet) = true := by
  have hread : (family ++ packet).take 4 = family := List.take_left' length_family
  have hsix : ofLittle family ∈ [24, 28, 30] ∨ ofBig family ∈ [24, 28, 30] := by
    cases big with
    | false => exact .inl told
    | true => exact .inr told
  -- A number this small in the one order of its four bytes is a multiple of 2 ^ 24 in the other.
  have hfour : ofLittle family ≠ 2 ∧ ofBig family ≠ 2 := by
    match family, length_family with
    | [a, b, c, d], _ =>
      have ha := a.toNat_lt
      have hd := d.toNat_lt
      simp only [ofLittle, ofBig, List.foldl_cons, List.foldl_nil, List.mem_cons, List.not_mem_nil,
        or_false] at hsix ⊢
      omega
  unfold familyIn
  rw [hread]
  simpa [hfour] using hsix

theorem ofLoopback_eq {family : Bytes} {big : Bool} (length_family : family.length = 4)
    (told : number big family ∈ [24, 28, 30]) (packet : Bytes) :
    ofLoopback (family ++ packet) = ofIpv6 packet := by
  obtain ⟨hfour, hsix⟩ := familyIn_eq length_family told packet
  have hlong : ¬ (family ++ packet).length < 4 := by
    rw [List.length_append]
    omega
  unfold ofLoopback
  rw [if_neg hlong, hfour, hsix, List.drop_left' length_family]
  rfl

theorem datagram?_cooked {header : Bytes} (length_header : header.length = 14) (packet : Bytes) :
    Link.datagram? .cooked (header ++ 0x86 :: 0xDD :: packet) = (ofIpv6 packet).filter (!·.isEmpty) := by
  have hlong : ¬ (header ++ 0x86 :: 0xDD :: packet).length < 16 := by
    simp only [List.length_append, List.length_cons, length_header]
    omega
  have htype := bigAt_behind length_header (0x86 :: 0xDD :: packet) 2
  have hbehind : (header ++ 0x86 :: 0xDD :: packet).drop (14 + 2) = packet :=
    length_header ▸ List.drop_length_add_append 2
  unfold Link.datagram?
  dsimp only
  rw [if_neg hlong, htype, hbehind]
  rfl

/-- Whatever the link layer, the packet is read, unless there are more tags in front of it than are taken off. -/
theorem Link.Carries.datagram?_eq {link : Link} {tags : Nat} {frame packet : Bytes}
    (h : Link.Carries packet link tags frame) (version : (packet.getD 0 0).toNat / 16 = 6) :
    link.datagram? frame = (if tags ≤ 4 then ofIpv6 packet else none).filter (!·.isEmpty) := by
  cases h with
  | raw => exact congrArg (Option.filter _) (ofRaw_eq version)
  | loopback big length_family told =>
    exact congrArg (Option.filter _) (ofLoopback_eq length_family told packet)
  | cooked length_header => exact datagram?_cooked length_header packet
  | ethernet length_addresses tagged =>
    exact congrArg (Option.filter _) (tagged.ofEthernet_eq length_addresses)

/-- A datagram behind extension headers is what a walk along them finds. It is found in a frame, under any
link layer, exactly if there is no extension header, and no more VLAN tags than are taken off. -/
theorem Link.datagram?_of_carries {link : Link} {tags : Nat} {es : List Extension}
    {frame packet data : Bytes} (carried : Link.Carries packet link tags frame)
    (sent : Sends data es packet) (some_data : data ≠ []) :
    ofWalk packet = some data ∧
      link.datagram? frame = if es = [] ∧ tags ≤ 4 then some data else none := by
  refine ⟨sent.ofWalk_eq, ?_⟩
  rw [carried.datagram?_eq sent.version_eq, sent.ofIpv6_eq]
  by_cases hes : es = []
  · by_cases htags : tags ≤ 4
    · simp [hes, htags, some_data]
    · simp [htags]
  · simp [hes]

/-- The message `a:4|c`, sent in a tagged frame: behind two extension headers it is not found. -/
theorem Link.datagram?_of_carries_sample :
    Link.datagram? .ethernet (List.replicate 12 0 ++ [0x81, 0, 0, 7, 0x86, 0xDD,
      0x60, 0, 0, 0, 0, 29, 0, 64] ++ List.replicate 32 0 ++ [60, 0, 1, 4, 0, 0, 0, 0,
      17, 0, 1, 4, 0, 0, 0, 0, 0x9C, 0x40, 0x1F, 0xBD, 0, 13, 0, 0, 0x61, 0x3A, 0x34, 0x7C, 0x63]) = none ∧
    Link.datagram? .ethernet (List.replicate 12 0 ++ [0x81, 0, 0, 7, 0x86, 0xDD,
      0x60, 0, 0, 0, 0, 13, 17, 64] ++ List.replicate 32 0 ++ [
      0x9C, 0x40, 0x1F, 0xBD, 0, 13, 0, 0, 0x61, 0x3A, 0x34, 0x7C, 0x63]) =
        some [0x61, 0x3A, 0x34, 0x7C, 0x63] := by
  have hcarried (packet : Bytes) : Link.Carries packet .ethernet 1
      (List.replicate 12 0 ++ 0x81 :: 0 :: 0 :: 7 :: 0x86 :: 0xDD :: packet) :=
    .ethernet rfl (.tag (by decide) .packet)
  have hchain : Chain ([0x9C, 0x40, 0x1F, 0xBD, 0, 13, 0, 0] ++ [0x61, 0x3A, 0x34, 0x7C, 0x63])
      [.hopByHop, .destination] 0 _ :=
    @Chain.extension _ .hopByHop _ _ 0 [1, 4, 0, 0, 0, 0] _ rfl
      (@Chain.extension _ .destination _ _ 0 [1, 4, 0, 0, 0, 0] _ rfl .datagram)
  have hbehind := @Sends.intro _ _ 0x60 0 0 0 0 29 0 64 (List.replicate 32 0) _ _ [] rfl rfl rfl hchain (.inl rfl)
  have halone := @Sends.intro [0x61, 0x3A, 0x34, 0x7C, 0x63] _ 0x60 0 0 0 0 13 17 64 (List.replicate 32 0)
    [0x9C, 0x40, 0x1F, 0xBD, 0, 13, 0, 0] _ [] rfl rfl rfl .datagram (.inl rfl)
  exact ⟨(Link.datagram?_of_carries (hcarried _) hbehind (by decide)).2,
    (Link.datagram?_of_carries (hcarried _) halone (by decide)).2⟩

end MetricCapture.Packet
