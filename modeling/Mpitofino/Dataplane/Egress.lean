import Mpitofino.Dataplane.Icrc
import Mpitofino.Dataplane.Tables

/-!
# The egress pipeline

`EgressParser`, `CollectivesDistributor` and `Egress`. A copy of a packet reaches the egress pipe with
the bridge header of the ingress pass and the replication id of its multicast node.
-/

namespace Mpitofino

/-- How `EgressParser` reads a packet. -/
inductive EgressExtracted where
  | nothing
  | roceAck
  | roce
  deriving DecidableEq

namespace EgressParser

def parse (bridge : BridgeHeader) : EgressExtracted :=
  if bridge.aggUnit = 65535 then
    if bridge.isRoceAck then .roceAck else .nothing
  else .roce

end EgressParser

namespace CollectivesDistributor

def outputAddressSet (d : OutputAddressSet) (hdr : Frame) : Frame :=
  { hdr with
    ethernet := { hdr.ethernet with srcAddr := d.srcMac, dstAddr := d.dstMac }
    ipv4 := { hdr.ipv4 with srcAddr := d.srcIp, dstAddr := d.dstIp }
    udp := { hdr.udp with srcPort := 4791, dstPort := 4791, checksum := 0 }
    roce := { hdr.roce with dstQp := d.dstQp } }

def apply (tables : PipeTables) (bridge : BridgeHeader) (egressRid : BitVec 16) (hdr : Frame) :
    Frame :=
  match tables.outputAddress.lookup ⟨bridge.aggUnit, egressRid⟩ with
  | some d => outputAddressSet d hdr
  | none => hdr

end CollectivesDistributor

namespace Egress

/-- A pass of a packet through the egress pipeline of a pipe. -/
def apply (tables : PipeTables) (bridge : BridgeHeader) (egressRid : BitVec 16) (f : Frame) :
    Frame :=
  match EgressParser.parse bridge with
  | .nothing => f
  | .roceAck =>
      { f with roceAck := { f.roceAck with icrc := egressAckIcrc f.ipv4 f.udp f.roce f.roceAck } }
  | .roce =>
      let hdr := CollectivesDistributor.apply tables bridge egressRid f
      { hdr with recircFanout := some (egressIcrc bridge.icrc hdr.ipv4 hdr.udp hdr.roce) }

theorem apply_aggregate (tables : PipeTables) (bridge : BridgeHeader) (egressRid : BitVec 16)
    (f : Frame) : (apply tables bridge egressRid f).aggregate = f.aggregate := by
  rw [apply]
  split
  · rfl
  · rfl
  · rw [CollectivesDistributor.apply]
    split <;> rfl

theorem apply_headers (tables : PipeTables) (bridge : BridgeHeader) (egressRid : BitVec 16)
    (f : Frame) : (apply tables bridge egressRid f).roce.opcode = f.roce.opcode ∧
      (apply tables bridge egressRid f).roce.psn = f.roce.psn ∧
      (apply tables bridge egressRid f).ipv4.totalLength = f.ipv4.totalLength ∧
      (apply tables bridge egressRid f).udp.length = f.udp.length := by
  rw [apply]
  split
  · exact ⟨rfl, rfl, rfl, rfl⟩
  · exact ⟨rfl, rfl, rfl, rfl⟩
  · rw [CollectivesDistributor.apply]
    split <;> exact ⟨rfl, rfl, rfl, rfl⟩

end Egress

end Mpitofino
