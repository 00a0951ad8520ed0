import Mathlib.Data.BitVec
import Mathlib.Data.Fintype.Pi

/-!
# Headers and frames

The header types of `headers.p4`, field by field. A `Frame` lists what the extract statements of the
two parsers would read from a packet at their fixed offsets; which of these headers a parser really
reads, and so which are valid, is decided by the parser.
-/

namespace Mpitofino

abbrev MacAddr := BitVec 48
abbrev IPv4Addr := BitVec 32
abbrev PortId := BitVec 9
abbrev IbQp := BitVec 24
abbrev IbPsn := BitVec 24

/-- `value_t`, the type of an aggregated word. -/
abbrev Value := BitVec 32

namespace EtherType

def ipv4 : BitVec 16 := 0x0800

end EtherType

namespace Ipv4Protocol

def udp : BitVec 8 := 0x11

end Ipv4Protocol

structure EthernetH where
  dstAddr : MacAddr
  srcAddr : MacAddr
  etherType : BitVec 16
  deriving DecidableEq

structure Ipv4H where
  version : BitVec 4
  ihl : BitVec 4
  tos : BitVec 8
  totalLength : BitVec 16
  identification : BitVec 16
  flags : BitVec 3
  fragmentOffset : BitVec 13
  ttl : BitVec 8
  protocol : BitVec 8
  headerChecksum : BitVec 16
  srcAddr : IPv4Addr
  dstAddr : IPv4Addr
  deriving DecidableEq

structure UdpH where
  srcPort : BitVec 16
  dstPort : BitVec 16
  length : BitVec 16
  checksum : BitVec 16
  deriving DecidableEq

/-- The InfiniBand base transport header. -/
structure RoceH where
  opcode : BitVec 8
  se : BitVec 1
  migreq : BitVec 1
  padCnt : BitVec 2
  version : BitVec 4
  partitionKey : BitVec 16
  reserved : BitVec 8
  dstQp : IbQp
  ackReq : BitVec 1
  reserved2 : BitVec 7
  psn : IbPsn
  deriving DecidableEq

structure RoceAckH where
  syndrome : BitVec 8
  msn : BitVec 24
  icrc : BitVec 32
  deriving DecidableEq

/-- The 64 words `val00` .. `val63`. -/
abbrev AggregateH := Fin 64 → Value

instance neZero_words : NeZero 64 := ⟨by decide⟩

/-- What the extract statements read from a packet. `recircFanout` is the header in front of a packet
that is recirculated for its ICRC, `cpoffload` the one in front of a packet from the CPU, `aggregate`
and `roceAck` are the two readings of what follows the transport header, and `icrc` is the trailer. -/
structure Frame where
  cpoffload : BitVec 16 := 65535
  recircFanout : Option (BitVec 32) := none
  ethernet : EthernetH
  ipv4 : Ipv4H
  udp : UdpH
  roce : RoceH
  aggregate : AggregateH
  roceAck : RoceAckH
  icrc : BitVec 32
  deriving DecidableEq

structure NodeBitmap where
  low : BitVec 32
  high : BitVec 32
  deriving DecidableEq

/-- Metadata taken from the ingress to the egress pipe. -/
structure BridgeHeader where
  aggUnit : BitVec 16
  icrc : BitVec 32
  isRoceAck : Bool
  deriving DecidableEq

end Mpitofino
