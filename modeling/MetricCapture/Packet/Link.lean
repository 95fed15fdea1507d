import MetricCapture.Packet.Internet
/-! Link layers: the datagram in a captured frame, behind VLAN tags and labels. -/
namespace MetricCapture.Packet
open MetricCapture.Bytes

inductive Link where
  | loopback
  | ethernet
  | raw
  | cooked
  deriving Repr, DecidableEq

def Link.ofNumber? : Nat → Option Link
  | 0 | 108 => some .loopback
  | 1 => some .ethernet
  | 12 | 14 | 101 => some .raw
  | 113 => some .cooked
  | _ => none

def ofEtherType (etherType : Nat) (bs : Bytes) : Option Bytes :=
  if etherType = 0x0800 then ofIpv4 bs
  else if etherType = 0x86DD then ofIpv6 bs
  else none

def tagTypes : List Nat := [0x8100, 0x88A8, 0x9100, 0x9200]

def labelTypes : List Nat := [0x8847, 0x8848]

def dropTags : Nat → Nat → Bytes → Option (Nat × Bytes)
  | 0, etherType, bs => some (etherType, bs)
  | most + 1, etherType, bs =>
    if !tagTypes.contains etherType then some (etherType, bs)
    else if bs.length < 4 then none
    else dropTags most (bigAt 2 2 bs) (bs.drop 4)

/-- What lies behind a label stack. It ends with a label marked as the last or after the given
number of them. -/
def dropLabels : Nat → Bytes → Option Bytes
  | 0, bs => some bs
  | most + 1, bs =>
    if bs.length < 4 then none
    else if (bs.getD 2 0).toNat % 2 = 1 then some (bs.drop 4)
    else dropLabels most (bs.drop 4)

/-- What lies behind a label stack, and its Ethernet type. Labels do not tell it, so it is
guessed from the first byte: an IPv4 header without options, or one of IPv6. -/
def ofLabels (bs : Bytes) : Option (Nat × Bytes) := do
  let rest ← dropLabels 24 bs
  let first ← rest.head?
  if first = 0x45 then pure (0x0800, rest)
  else if first.toNat / 16 = 6 then pure (0x86DD, rest)
  else none

def unwrap (etherType : Nat) (bs : Bytes) : Option (Nat × Bytes) :=
  if labelTypes.contains etherType then ofLabels bs else dropTags 2 etherType bs

def switchMarkers : List Bytes :=
  [[0x01, 0x00, 0x0C, 0x00, 0x00], [0x03, 0x00, 0x0C, 0x00, 0x00]]

/-- The datagram in an Ethernet frame. Its payload is unwrapped twice over. -/
def ofEthernet (bs : Bytes) : Option Bytes :=
  if _h : bs.length < 14 then none
  else
    let etherType := bigAt 12 2 bs
    if 1500 < etherType then do
      let (once, inner) ← unwrap etherType (bs.drop 14)
      let (twice, packet) ← unwrap once inner
      ofEtherType twice packet
    else if switchMarkers.any (·.isPrefixOf bs) && 26 ≤ bs.length then ofEthernet (bs.drop 26)
    else none
termination_by bs.length
decreasing_by
  simp only [List.length_drop]
  omega

def familyIn (families : List Nat) (bs : Bytes) : Bool :=
  families.contains (ofLittle (bs.take 4)) || families.contains (ofBig (bs.take 4))

def ofLoopback (bs : Bytes) : Option Bytes :=
  if bs.length < 4 then none
  else if familyIn [2] bs then ofIpv4 (bs.drop 4)
  else if familyIn [24, 28, 30] bs then ofIpv6 (bs.drop 4)
  else none

def ofRaw (bs : Bytes) : Option Bytes :=
  match (bs.getD 0 0).toNat / 16 with
  | 4 => ofIpv4 bs
  | 6 => ofIpv6 bs
  | _ => none

/-- The data of the datagram in a frame. A frame without a datagram, with a broken one or with
one that is empty gives none. -/
def Link.datagram? (link : Link) (frame : Bytes) : Option Bytes :=
  let data :=
    match link with
    | .loopback => ofLoopback frame
    | .ethernet => ofEthernet frame
    | .raw => ofRaw frame
    | .cooked => if frame.length < 16 then none else ofEtherType (bigAt 14 2 frame) (frame.drop 16)
  data.filter (!·.isEmpty)

end MetricCapture.Packet
