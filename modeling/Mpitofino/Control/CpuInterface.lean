import Mpitofino.Control.NodeDaemon
import Mpitofino.Control.Octets

/-!
# The CPU interface

What the packet processor reads from the interface to the switch and writes to it, and the discovery
protocol: a timer sends a datagram out of every port that says which port it is, and a node daemon that
reads it knows its switch and its port there.
-/

namespace Mpitofino

namespace PacketProcessor

/-- `on_com_fd_data`: a packet that fills the buffer is dropped. -/
def onComFdData (r : StRepo) (ptr : Bytes) : Option Bytes :=
  if 16384 ≤ ptr.length then none else parsePacket r ptr

/-- `send_packet`: a pseudo header makes it an Ethernet II frame. -/
def sendPacket (ptr : Bytes) : Bytes := List.replicate 12 0 ++ [0x08, 0x00] ++ ptr

/-- The addresses that the discovery protocol needs. -/
structure DiscoveryRepo extends StRepo where
  broadcastAddr : SimpleTypes.IPv4Addr
  controlIpAddr : SimpleTypes.IPv4Addr

def udpPortTdp : BitVec 16 := 0x2000

/-- `TDPHdr`. -/
def tdpHdr (portId : BitVec 16) (ctrlIp : Bytes) : Bytes := htons portId ++ ctrlIp

/-- The IPv4 header of a datagram for all nodes. -/
def broadcastIpv4Hdr (totalLength : BitVec 16) (srcAddr dstAddr : Bytes) (checksum : BitVec 16) : Bytes :=
  [0x45, 0] ++ htons totalLength ++ bytesOf 0x1234 ++ bytesOf 0 ++ [16, 0x11] ++ bytesOf checksum ++
    srcAddr ++ dstAddr

/-- The frame for a port. -/
def discoveryFrame (r : DiscoveryRepo) (portId : BitVec 16) : Bytes :=
  let tdp := tdpHdr portId r.controlIpAddr.addr.toList
  let udp := htons udpPortTdp ++ htons udpPortTdp ++ htons (BitVec.ofNat 16 (8 + tdp.length)) ++ [0, 0]
  let ipv4 := broadcastIpv4Hdr (BitVec.ofNat 16 (20 + (udp ++ tdp).length)) r.ipBytes
    r.broadcastAddr.addr.toList
  EthernetHdr.bytes ⟨List.replicate 6 0xff, r.macBytes, 0x0800⟩ ++ (ipv4 (internetChecksum (ipv4 0)) ++
    (udp ++ tdp))

def discoveryPorts : List (BitVec 16) :=
  [0, 3].flatMap fun i => (List.range 16).map fun j => BitVec.ofNat 16 (i * 128 + j * 4)

/-- `on_discovery_protocol_timer`: what is passed to `send_packet`. -/
def onDiscoveryProtocolTimer (r : DiscoveryRepo) : List Bytes :=
  discoveryPorts.map fun portId => htons portId ++ discoveryFrame r portId

/-! ### What is sent -/

section Sent

variable {r : StRepo} {ptr rest : Bytes} {hdr : EthernetHdr}

theorem EthernetHdr.read_bytes (hdst : hdr.dst.length = 6) (hsrc : hdr.src.length = 6) :
    EthernetHdr.read (hdr.bytes ++ rest) = hdr := by
  have hbytes : hdr.bytes ++ rest = hdr.dst ++ (hdr.src ++ (htons hdr.type ++ rest)) := by
    simp only [EthernetHdr.bytes, List.append_assoc]
  have hfieldDst : field (hdr.bytes ++ rest) 0 6 = hdr.dst := by
    rw [hbytes, field_start hdst]
  have hfieldSrc : field (hdr.bytes ++ rest) 6 6 = hdr.src := by
    rw [hbytes, field_after hdst.le, hdst, Nat.sub_self, field_start hsrc]
  have hfieldType : field (hdr.bytes ++ rest) 12 2 = htons hdr.type := by
    rw [hbytes, field_after (by rw [hdst]; decide), hdst, field_after (by rw [hsrc]), hsrc]
    exact field_start (length_htons _)
  rw [EthernetHdr.read, hfieldDst, hfieldSrc, hfieldType, ntohs_htons]

theorem EthernetHdr.length_bytes (hdst : hdr.dst.length = 6) (hsrc : hdr.src.length = 6) :
    hdr.bytes.length = 14 := by
  simp [EthernetHdr.bytes, hdst, hsrc]

theorem exists_discoveryFrame (r : DiscoveryRepo) (portId : BitVec 16) : ∃ ipv4 udp : Bytes,
    ipv4.length = 20 ∧ udp.length = 8 ∧ field udp 2 2 = htons udpPortTdp ∧
    ∃ checksum, ipv4 = broadcastIpv4Hdr 34 r.ipBytes r.broadcastAddr.addr.toList checksum ∧
      internetChecksum ipv4 = 0 ∧ udp = htons udpPortTdp ++ htons udpPortTdp ++ htons 14 ++ [0, 0] ∧
      discoveryFrame r portId = EthernetHdr.bytes ⟨List.replicate 6 0xff, r.macBytes, 0x0800⟩ ++ (ipv4 ++ (udp ++
        tdpHdr portId r.controlIpAddr.addr.toList)) := by
  have hctrl : (tdpHdr portId r.controlIpAddr.addr.toList).length = 6 := by
    rw [tdpHdr, List.length_append, length_htons, Vector.length_toList]
  have hverifies := (internetChecksum_verifies
    ([0x45, 0] ++ htons 34 ++ bytesOf 0x1234 ++ bytesOf 0 ++ [16, 0x11]) (r.ipBytes ++ r.broadcastAddr.addr.toList)
    (by simp) (by simp [length_ipBytes])).1
  refine ⟨broadcastIpv4Hdr 34 r.ipBytes r.broadcastAddr.addr.toList (internetChecksum (broadcastIpv4Hdr 34
    r.ipBytes r.broadcastAddr.addr.toList 0)), htons udpPortTdp ++ htons udpPortTdp ++ htons 14 ++ [0, 0], ?_, rfl,
    rfl, _, rfl, ?_, rfl, ?_⟩
  · simp [broadcastIpv4Hdr, length_ipBytes]
  · simpa only [broadcastIpv4Hdr, List.append_assoc] using hverifies
  · rw [discoveryFrame]
    simp only [hctrl, List.length_append, length_htons, List.length_cons, List.length_nil, List.append_assoc]
    rfl

theorem noRoce_discoveryFrame (r : DiscoveryRepo) (portId : BitVec 16) :
    NoRoce (discoveryFrame r portId) ∧ EthernetHdr.read (discoveryFrame r portId) =
      ⟨List.replicate 6 0xff, r.macBytes, 0x0800⟩ := by
  obtain ⟨ipv4, udp, hipv4, hudp, hport, -, -, -, -, hframe⟩ := exists_discoveryFrame r portId
  have hethernet : (EthernetHdr.bytes ⟨List.replicate 6 0xff, r.macBytes, 0x0800⟩).length = 14 :=
    EthernetHdr.length_bytes List.length_replicate (length_macBytes r.toStRepo)
  rw [hframe]
  refine ⟨⟨by rw [List.length_append]; omega, Or.inr ⟨by simp only [List.length_append]; omega,
    Or.inr ⟨by simp only [List.length_append]; omega, ?_⟩⟩⟩,
    EthernetHdr.read_bytes List.length_replicate (length_macBytes r.toStRepo)⟩
  rw [field_after (by omega), hethernet, field_after (by omega), hipv4]
  have hfield : ∀ after : Bytes, field (udp ++ after) 2 2 = field udp 2 2 := fun after => by
    rw [field, field, List.drop_append_of_le_length (by omega),
      List.take_append_of_le_length (by rw [List.length_drop]; omega)]
  rw [hfield, hport, ntohs_htons]
  decide

structure Answers (r : StRepo) (ptr frame : Bytes) : Prop where
  noRoce : NoRoce frame
  dst_eq : (EthernetHdr.read frame).dst = (EthernetHdr.read ptr).src
  src_eq : (EthernetHdr.read frame).src = r.macBytes

theorem answers_of_hdr {type : BitVec 16} (hlength : 14 ≤ ptr.length)
    (hplain : type ≠ 0x0800 ∨ 20 ≤ rest.length ∧ field rest 9 1 ≠ [0x11]) :
    Answers r ptr (EthernetHdr.bytes ⟨(EthernetHdr.read ptr).src, r.macBytes, type⟩ ++ rest) := by
  have hdst : (EthernetHdr.read ptr).src.length = 6 := length_field (by omega)
  have hread : EthernetHdr.read (EthernetHdr.bytes ⟨(EthernetHdr.read ptr).src, r.macBytes, type⟩ ++ rest) =
      ⟨(EthernetHdr.read ptr).src, r.macBytes, type⟩ :=
    EthernetHdr.read_bytes hdst (length_macBytes r)
  have hbytes : (EthernetHdr.bytes ⟨(EthernetHdr.read ptr).src, r.macBytes, type⟩).length = 14 :=
    EthernetHdr.length_bytes hdst (length_macBytes r)
  refine ⟨⟨by rw [List.length_append]; omega, ?_⟩, by rw [hread], by rw [hread]⟩
  rw [hread]
  refine hplain.imp_right fun ⟨hrest, hprotocol⟩ => ⟨by rw [List.length_append]; omega, Or.inl ?_⟩
  rwa [field_after (by omega), hbytes]

theorem exists_echoReply (hlength : 14 ≤ ptr.length) {srcAddr : Bytes} (hsrcAddr : srcAddr.length = 4)
    (id seq data : Bytes) : ∃ frame,
      echoReply r (EthernetHdr.read ptr) srcAddr id seq data = useSwitchingTable ++ frame ∧
        Answers r ptr frame := by
  refine ⟨_, by rw [echoReply]; simp only [List.append_assoc]; rfl,
    answers_of_hdr hlength (Or.inr ⟨?_, ?_⟩)⟩
  · rw [List.length_append, length_ipv4Hdr _ _ hsrcAddr]
    omega
  · have hprotocol : ∀ totalLength checksum (after : Bytes),
        field (ipv4Hdr totalLength r.ipBytes srcAddr checksum ++ after) 9 1 = [1] := fun _ _ _ => rfl
    rw [hprotocol]
    decide

theorem onComFdData_eq_some {sent : Bytes} (h : onComFdData r ptr = some sent) :
    60 ≤ ptr.length ∧ NoRoce ptr ∧ ∃ frame, sent = useSwitchingTable ++ frame ∧ Answers r ptr frame := by
  rw [onComFdData] at h
  split at h
  · contradiction
  rw [parsePacket] at h
  split at h
  · contradiction
  rename_i hsize
  refine ⟨by omega, ?_⟩
  split at h
  · rename_i htype
    refine ⟨⟨by omega, Or.inl (by rw [htype]; decide)⟩, ?_⟩
    rw [parsePacketArp] at h
    split at h
    · contradiction
    · split at h
      · obtain rfl := Option.some.inj h
        refine ⟨_, by simp only [List.append_assoc]; rfl, answers_of_hdr (by omega) (Or.inl (by decide))⟩
      · contradiction
  · split at h
    · rename_i htype
      rw [parsePacketIpv4] at h
      split at h
      · contradiction
      · split at h
        · rename_i hprotocol
          rw [parsePacketIpv4Icmp] at h
          split at h
          · contradiction
          · split at h
            · obtain rfl := Option.some.inj h
              rw [field_drop] at hprotocol
              exact ⟨⟨by omega, Or.inr ⟨by omega, Or.inl (by rw [hprotocol]; decide)⟩⟩,
                exists_echoReply (by omega) (length_field (by rw [List.length_drop]; omega)) _ _ _⟩
            · contradiction
        · contradiction
    · contradiction

end Sent

end PacketProcessor

namespace NodeDaemon

open PacketProcessor

/-- An address as the node daemon compares it. -/
def addrOf (bytes : Bytes) : IPv4Addr := (Codec.bits 32).read (bitsOf bytes)

/-- `on_tdp_fd` on a datagram. -/
def onTdpFd (buf : Bytes) (nd : NodeDaemon) : Except String NodeDaemon :=
  if buf.length ≠ 6 then .ok nd
  else onTdp (addrOf (field buf 2 4)) (ntohs (field buf 0 2)).toNat nd

end NodeDaemon

end Mpitofino
