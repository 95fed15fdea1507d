import MetricCapture.Bytes.Order
/-! Internet packets: the data of the UDP datagram in an IPv4 or IPv6 packet. -/
namespace MetricCapture.Packet
open MetricCapture.Bytes

def datagramProtocol : UInt8 := 17

/-- The data of a datagram: all that follows its eight bytes of header. Neither the length field
nor the checksum is looked at. -/
def datagramData (bs : Bytes) : Option Bytes :=
  if bs.length < 8 then none else some (bs.drop 8)

/-- What is left of some bytes that a length field counts. A length of zero counts all. -/
def counted (length : Nat) (bs : Bytes) : Bytes :=
  if length = 0 then bs else bs.take length

/-- The data of the datagram in an IPv4 packet. A fragment other than the first has none. -/
def ofIpv4 (bs : Bytes) : Option Bytes :=
  let headerLength := 4 * ((bs.getD 0 0).toNat % 16)
  let fragment := bigAt 6 2 bs % 0x2000
  if bs.length < 20 || headerLength < 20 || fragment != 0 || bs.getD 9 0 != datagramProtocol then
    none
  else datagramData ((counted (bigAt 2 2 bs) bs).drop headerLength)

/-- The data of the datagram in an IPv6 packet. Only one right behind the fixed header is found:
a packet with extension headers names another protocol first. -/
def ofIpv6 (bs : Bytes) : Option Bytes :=
  if bs.length < 40 || bs.getD 6 0 != datagramProtocol then none
  else datagramData (counted (bigAt 4 2 bs) (bs.drop 40))

end MetricCapture.Packet
