import Mpitofino.Dataplane.Headers
import Mpitofino.Library.Crc

/-!
# Hashing for the invariant CRC

`Hash.get` takes a list of header fields and hashes their concatenation. A field contributes its bits
from the most significant one down; the reflected CRC then reads every octet from its least
significant bit up. `icrcHash` is that hash with the polynomial `icrc_poly` of `mpitofino.p4`, and
`ingressIcrc`, `egressIcrc` and `egressAckIcrc` are the values the P4 program computes with it.
-/

namespace Mpitofino

/-- One argument of `Hash.get`. -/
structure Field where
  {width : Nat}
  value : BitVec width

namespace Field

def bits (f : Field) : List Bool := (List.range f.width).map f.value.getMsbD

end Field

/-- The bits of a list of fields in the order they are transmitted in. -/
def fieldBits (fs : List Field) : List Bool := fs.flatMap Field.bits

/-- Reverse the bits of every octet. -/
def reflectBytes : List Bool → List Bool
  | b7 :: b6 :: b5 :: b4 :: b3 :: b2 :: b1 :: b0 :: rest =>
      b0 :: b1 :: b2 :: b3 :: b4 :: b5 :: b6 :: b7 :: reflectBytes rest
  | _ => []

/-- The generator polynomial of the ICRC, `coeff` of `icrc_poly`. -/
def icrcPoly : BitVec 32 := 0x04c11db7

/-- `Hash.get` with `CRCPolynomial(0x04c11db7, true, true, false, 0xffffffff, 0xffffffff)`. -/
def icrcHash (fs : List Field) : BitVec 32 :=
  Crc.feed icrcPoly.reverse 0xffffffff (reflectBytes (fieldBits fs)) ^^^ 0xffffffff

/-- The words `from`, .., `from + len - 1` of the payload, followed by `pad` zero words. -/
def payloadFields (agg : AggregateH) (start len pad : Nat) : List Field :=
  ((List.finRange 64).drop start |>.take len).map (fun i => ⟨agg i⟩) ++
    List.replicate pad ⟨(0 : BitVec 32)⟩

/-- `tmp ^ icrc_hash3.get(..)` of `Ingress`: the payload's share of the ICRC. -/
def ingressIcrc (agg : AggregateH) : BitVec 32 :=
  icrcHash (payloadFields agg 0 16 48) ^^^ icrcHash (payloadFields agg 16 20 28) ^^^
    icrcHash (payloadFields agg 36 28 0)

/-- The fields of the IP, UDP and base transport headers that `Egress` hashes, the variant ones
masked. -/
def maskedHeaderFields (ipv4 : Ipv4H) (udp : UdpH) (roce : RoceH) : List Field :=
  [⟨ipv4.version⟩, ⟨ipv4.ihl⟩, ⟨(0xff : BitVec 8)⟩, ⟨ipv4.totalLength⟩, ⟨ipv4.identification⟩,
    ⟨ipv4.flags⟩, ⟨ipv4.fragmentOffset⟩, ⟨(0xff : BitVec 8)⟩, ⟨ipv4.protocol⟩,
    ⟨(0xffff : BitVec 16)⟩, ⟨ipv4.srcAddr⟩, ⟨ipv4.dstAddr⟩, ⟨udp.srcPort⟩, ⟨udp.dstPort⟩,
    ⟨udp.length⟩, ⟨(0xffff : BitVec 16)⟩, ⟨roce.opcode⟩, ⟨roce.se⟩, ⟨roce.migreq⟩, ⟨roce.padCnt⟩,
    ⟨roce.version⟩, ⟨roce.partitionKey⟩, ⟨(0xff : BitVec 8)⟩, ⟨roce.dstQp⟩, ⟨roce.ackReq⟩,
    ⟨roce.reserved2⟩, ⟨roce.psn⟩]

/-- `tmp[7:0] ++ tmp[15:8] ++ tmp[23:16] ++ tmp[31:24]`. -/
def swapEndianness (x : BitVec 32) : BitVec 32 :=
  x.extractLsb' 0 8 ++ x.extractLsb' 8 8 ++ x.extractLsb' 16 8 ++ x.extractLsb' 24 8

/-- `hdr.recirc_fanout.icrc` of `Egress`, from the value the ingress pipe passed on. -/
def egressIcrc (icrc : BitVec 32) (ipv4 : Ipv4H) (udp : UdpH) (roce : RoceH) : BitVec 32 :=
  swapEndianness (icrc ^^^ icrcHash (maskedHeaderFields ipv4 udp roce ++
    List.replicate 64 ⟨(0 : BitVec 32)⟩)) ^^^ 0x60d95a72

/-- `hdr.roce_ack.icrc` of `Egress`. -/
def egressAckIcrc (ipv4 : Ipv4H) (udp : UdpH) (roce : RoceH) (ack : RoceAckH) : BitVec 32 :=
  swapEndianness (icrcHash (maskedHeaderFields ipv4 udp roce ++ [⟨ack.syndrome⟩, ⟨ack.msn⟩]) ^^^
    0x71acd589)

end Mpitofino
