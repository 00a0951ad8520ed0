import Mpitofino.Dataplane.Egress
import Mpitofino.Dataplane.IcrcReference
import Mpitofino.Dataplane.Ingress
import Mpitofino.Library.Codec
import Mpitofino.Library.OnesComplement

/-!
# Packets as bits

The headers of `headers.p4` on the wire, and the parsers and deparsers of both pipes, state by state. A
parser cuts the headers off a packet and leaves the rest alone; the deparser puts those that are valid in
front of it again. A packet that is too short for what its headers announce is a parser error, `none`.

Between the two the controls work on frames; what a parser did not extract is blank there.
-/

namespace Mpitofino

/-! ### Headers -/

namespace EthernetH

def codec : Codec EthernetH :=
  ((Codec.bits 48).prod ((Codec.bits 48).prod (Codec.bits 16))).map
    ⟨fun x => ⟨x.1, x.2.1, x.2.2⟩, fun h => ⟨h.dstAddr, h.srcAddr, h.etherType⟩, fun _ => rfl, fun _ => rfl⟩

end EthernetH

namespace Ipv4H

def codec : Codec Ipv4H :=
  ((Codec.bits 4).prod ((Codec.bits 4).prod ((Codec.bits 8).prod ((Codec.bits 16).prod
    ((Codec.bits 16).prod ((Codec.bits 3).prod ((Codec.bits 13).prod ((Codec.bits 8).prod
    ((Codec.bits 8).prod ((Codec.bits 16).prod ((Codec.bits 32).prod (Codec.bits 32)))))))))))).map
    ⟨fun ⟨version, ihl, tos, totalLength, identification, flags, fragmentOffset, ttl, protocol,
        headerChecksum, srcAddr, dstAddr⟩ =>
      ⟨version, ihl, tos, totalLength, identification, flags, fragmentOffset, ttl, protocol,
        headerChecksum, srcAddr, dstAddr⟩,
    fun h => ⟨h.version, h.ihl, h.tos, h.totalLength, h.identification, h.flags, h.fragmentOffset, h.ttl,
      h.protocol, h.headerChecksum, h.srcAddr, h.dstAddr⟩, fun _ => rfl, fun _ => rfl⟩

end Ipv4H

namespace UdpH

def codec : Codec UdpH :=
  ((Codec.bits 16).prod ((Codec.bits 16).prod ((Codec.bits 16).prod (Codec.bits 16)))).map
    ⟨fun ⟨srcPort, dstPort, length, checksum⟩ => ⟨srcPort, dstPort, length, checksum⟩,
    fun h => ⟨h.srcPort, h.dstPort, h.length, h.checksum⟩, fun _ => rfl, fun _ => rfl⟩

end UdpH

namespace RoceH

def codec : Codec RoceH :=
  ((Codec.bits 8).prod ((Codec.bits 1).prod ((Codec.bits 1).prod ((Codec.bits 2).prod
    ((Codec.bits 4).prod ((Codec.bits 16).prod ((Codec.bits 8).prod ((Codec.bits 24).prod
    ((Codec.bits 1).prod ((Codec.bits 7).prod (Codec.bits 24))))))))))).map
    ⟨fun ⟨opcode, se, migreq, padCnt, version, partitionKey, reserved, dstQp, ackReq, reserved2, psn⟩ =>
      ⟨opcode, se, migreq, padCnt, version, partitionKey, reserved, dstQp, ackReq, reserved2, psn⟩,
    fun h => ⟨h.opcode, h.se, h.migreq, h.padCnt, h.version, h.partitionKey, h.reserved, h.dstQp, h.ackReq,
      h.reserved2, h.psn⟩, fun _ => rfl, fun _ => rfl⟩

end RoceH

namespace RoceAckH

def codec : Codec RoceAckH :=
  ((Codec.bits 8).prod ((Codec.bits 24).prod (Codec.bits 32))).map
    ⟨fun x => ⟨x.1, x.2.1, x.2.2⟩, fun h => ⟨h.syndrome, h.msn, h.icrc⟩, fun _ => rfl, fun _ => rfl⟩

end RoceAckH

namespace AggregateH

def codec : Codec AggregateH := (Codec.bits 32).vec 64

end AggregateH

namespace BridgeHeader

/-- The bridge header with its seven bits of padding. -/
def codec : Codec (BridgeHeader × BitVec 7) :=
  ((Codec.bits 16).prod ((Codec.bits 32).prod (Codec.bool.prod (Codec.bits 7)))).map
    ⟨fun x => ⟨⟨x.1, x.2.1, x.2.2.1⟩, x.2.2.2⟩, fun h => ⟨h.1.aggUnit, h.1.icrc, h.1.isRoceAck, h.2⟩,
      fun _ => rfl, fun _ => rfl⟩

end BridgeHeader

namespace Frame

def blank : Frame where
  ethernet := ⟨0, 0, 0⟩
  ipv4 := ⟨0, 0, 0, 0, 0, 0, 0, 0, 0, 0, 0, 0⟩
  udp := ⟨0, 0, 0, 0⟩
  roce := ⟨0, 0, 0, 0, 0, 0, 0, 0, 0, 0, 0⟩
  aggregate _ := 0
  roceAck := ⟨0, 0, 0⟩
  icrc := 0

end Frame

namespace Wire

/-- A packet behind a parser: the headers, and the bits it did not extract. -/
structure Parsed where
  extracted : Extracted
  hdr : Frame
  payload : List Bool

/-! ### The ingress pipe -/

namespace IngressParser

def parseAggregate (hdr : Frame) (pkt : List Bool) : Option Parsed :=
  (AggregateH.codec.extract pkt).map fun x => ⟨.aggregate, { hdr with aggregate := x.1 }, x.2⟩

def parseRoce (hdr : Frame) (pkt : List Bool) : Option Parsed :=
  (RoceH.codec.extract pkt).bind fun x =>
    let hdr := { hdr with roce := x.1 }
    if hdr.udp.length = 28 then some ⟨.roce, hdr, x.2⟩
    else if hdr.udp.length = 280 then parseAggregate hdr x.2
    else some ⟨.roce, hdr, x.2⟩

def parseUdp (hdr : Frame) (pkt : List Bool) : Option Parsed :=
  (UdpH.codec.extract pkt).bind fun x =>
    let hdr := { hdr with udp := x.1 }
    if hdr.udp.dstPort = 4791 then parseRoce hdr x.2 else some ⟨.udp, hdr, x.2⟩

def parseIpv4 (hdr : Frame) (pkt : List Bool) : Option Parsed :=
  (Ipv4H.codec.extract pkt).bind fun x =>
    let hdr := { hdr with ipv4 := x.1 }
    if hdr.ipv4.protocol = Ipv4Protocol.udp then parseUdp hdr x.2 else some ⟨.ipv4, hdr, x.2⟩

def parseEthernet (hdr : Frame) (pkt : List Bool) : Option Parsed :=
  (EthernetH.codec.extract pkt).bind fun x =>
    let hdr := { hdr with ethernet := x.1 }
    if hdr.ethernet.etherType = EtherType.ipv4 then parseIpv4 hdr x.2 else some ⟨.ethernet, hdr, x.2⟩

/-- The pseudo header in front of a packet from the CPU, of 14 octets, is skipped. -/
def parseCpoffload (hdr : Frame) (pkt : List Bool) : Option Parsed :=
  if 14 * 8 ≤ pkt.length then
    ((Codec.bits 16).extract (pkt.drop (14 * 8))).bind fun x =>
      parseEthernet { hdr with cpoffload := x.1 } x.2
  else none

end IngressParser

def roceHeaders : Codec (EthernetH × Ipv4H × UdpH × RoceH) :=
  EthernetH.codec.prod (Ipv4H.codec.prod (UdpH.codec.prod RoceH.codec))

/-- `recirc_fanout_payload_h`: the headers of a packet and its words, which are passed on as they are. -/
def recircFanoutPayload : Codec ((EthernetH × Ipv4H × UdpH × RoceH) × AggregateH) :=
  roceHeaders.prod AggregateH.codec

namespace IngressParser

def parseRecircFanout (hdr : Frame) (pkt : List Bool) : Option Parsed :=
  (((Codec.bits 32).prod (recircFanoutPayload.prod (Codec.bits 32))).extract pkt).map fun
    | ((recircFanout, ((ethernet, ipv4, udp, roce), aggregate), icrc), rest) =>
      ⟨.recircFanout, { hdr with
        recircFanout := some recircFanout
        ethernet := ethernet, ipv4 := ipv4, udp := udp, roce := roce, aggregate := aggregate
        icrc := icrc }, rest⟩

/-- `meta_init`. -/
def start (port : PortId) (pkt : List Bool) : Option Parsed :=
  if port = 64 then parseCpoffload Frame.blank pkt
  else if port &&& 0x180 = 128 then parseRecircFanout Frame.blank pkt
  else if port &&& 0x180 = 256 then parseRecircFanout Frame.blank pkt
  else parseEthernet Frame.blank pkt

end IngressParser

/-- The header in front of a packet that is recirculated for its ICRC, if it is valid. -/
def recircFanoutBits (hdr : Frame) : List Bool := hdr.recircFanout.elim [] (Codec.bits 32).emit

/-- `pkt.emit(hdr)` of the ingress pipe. -/
def ingressHeaders (hdr : Frame) : Extracted → List Bool
  | .ethernet => EthernetH.codec.emit hdr.ethernet
  | .ipv4 => EthernetH.codec.emit hdr.ethernet ++ Ipv4H.codec.emit hdr.ipv4
  | .udp => EthernetH.codec.emit hdr.ethernet ++ (Ipv4H.codec.emit hdr.ipv4 ++ UdpH.codec.emit hdr.udp)
  | .roce => roceHeaders.emit (hdr.ethernet, hdr.ipv4, hdr.udp, hdr.roce)
  | .aggregate => roceHeaders.emit (hdr.ethernet, hdr.ipv4, hdr.udp, hdr.roce) ++
      AggregateH.codec.emit hdr.aggregate
  | .recircFanout => recircFanoutBits hdr ++
      (recircFanoutPayload.emit ((hdr.ethernet, hdr.ipv4, hdr.udp, hdr.roce), hdr.aggregate) ++
        (Codec.bits 32).emit hdr.icrc)

/-- The bridge header, which is invalid where the packet bypasses the egress pipe. -/
def bridgeBits (s : IngressState) : List Bool :=
  if s.bypassEgress then [] else BridgeHeader.codec.emit (s.md.bridgeHeader, 0)

def ingressDeparser (s : IngressState) (payload : List Bool) : List Bool :=
  bridgeBits s ++ (ingressHeaders s.hdr s.extracted ++ payload)

def ingress (m : Matcher) (asic : Asic) (pipe : PipeId) (port : PortId) (pkt : List Bool) :
    Option (IngressState × List Bool) :=
  (IngressParser.start port pkt).map fun x =>
    let s := Ingress.apply m asic pipe port x.hdr
    (s, ingressDeparser s x.payload)

/-! ### The egress pipe -/

namespace EgressParser

def parseRoceAck (hdr : Frame) (pkt : List Bool) : Option (Frame × List Bool) :=
  ((roceHeaders.prod RoceAckH.codec).extract pkt).map fun
    | (((ethernet, ipv4, udp, roce), roceAck), rest) =>
      ({ hdr with ethernet := ethernet, ipv4 := ipv4, udp := udp, roce := roce, roceAck := roceAck }, rest)

def parseAggregate (hdr : Frame) (pkt : List Bool) : Option (Frame × List Bool) :=
  (roceHeaders.extract pkt).map fun
    | ((ethernet, ipv4, udp, roce), rest) =>
      ({ hdr with ethernet := ethernet, ipv4 := ipv4, udp := udp, roce := roce }, rest)

/-- The states behind the bridge header. -/
def start (bridge : BridgeHeader) (pkt : List Bool) : Option (Frame × List Bool) :=
  match Mpitofino.EgressParser.parse bridge with
  | .nothing => some (Frame.blank, pkt)
  | .roceAck => parseRoceAck Frame.blank pkt
  | .roce => parseAggregate Frame.blank pkt

end EgressParser

/-- The sum of the 16-bit words of some octets, the first octet of a word the high one. -/
def checksumSum : List (BitVec 8) → Nat
  | first :: second :: data => (first ++ second).toNat + checksumSum data
  | [last] => (last ++ 0#8).toNat
  | [] => 0

/-- `Checksum.update`: the complement of the sum of the fields in ones' complement. -/
def checksumUpdate (fs : List Field) : BitVec 16 :=
  BitVec.ofNat 16 (65535 - OnesComplement.residue 65535 (checksumSum (wireBytes fs)))

end Wire

namespace Ipv4H

/-- The header with the checksum of `EgressDeparser`. -/
def checksummed (h : Ipv4H) : Ipv4H :=
  { h with headerChecksum := Wire.checksumUpdate [⟨h.version⟩, ⟨h.ihl⟩, ⟨h.tos⟩, ⟨h.totalLength⟩,
      ⟨h.identification⟩, ⟨h.flags⟩, ⟨h.fragmentOffset⟩, ⟨h.ttl⟩, ⟨h.protocol⟩, ⟨h.srcAddr⟩, ⟨h.dstAddr⟩] }

end Ipv4H

namespace Wire

/-- The headers that `EgressDeparser` emits. -/
def egressHeaders (hdr : Frame) : EgressExtracted → List Bool
  | .nothing => []
  | .roce => recircFanoutBits hdr ++
      roceHeaders.emit (hdr.ethernet, hdr.ipv4.checksummed, hdr.udp, hdr.roce)
  | .roceAck => recircFanoutBits hdr ++
      (roceHeaders.emit (hdr.ethernet, hdr.ipv4.checksummed, hdr.udp, hdr.roce) ++
        RoceAckH.codec.emit hdr.roceAck)

def egress (tables : PipeTables) (egressRid : BitVec 16) (pkt : List Bool) : Option (List Bool) :=
  (BridgeHeader.codec.extract pkt).bind fun x =>
    (EgressParser.start x.1.1 x.2).map fun y =>
      egressHeaders (Egress.apply tables x.1.1 egressRid y.1) (Mpitofino.EgressParser.parse x.1.1) ++ y.2

end Wire

end Mpitofino
