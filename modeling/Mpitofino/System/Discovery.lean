import Mpitofino.Control.NodeDaemon
import Mpitofino.System.WholeSwitch

/-!
# Discovery

The packet processor tells every node the address of the switch and the port that the node is at, each in a
datagram of its own. Here the node daemon reads what leaves at its port, in any run of the switch.
-/

namespace Mpitofino

open AsicDriver PacketProcessor

/-- The data of a UDP datagram in a frame, behind headers without options. -/
def udpData (frame : Bytes) : Bytes := field frame 42 ((ntohs (field frame 38 2)).toNat - 8)

section Datagrams

variable {r : DiscoveryRepo}

theorem field_tdpHdr (portId : BitVec 16) {ctrlIp : Bytes} (hctrlIp : ctrlIp.length = 4) :
    (tdpHdr portId ctrlIp).length = 6 ∧ field (tdpHdr portId ctrlIp) 0 2 = htons portId ∧
      field (tdpHdr portId ctrlIp) 2 4 = ctrlIp := by
  refine ⟨?_, field_start (length_htons portId), ?_⟩
  · rw [tdpHdr, List.length_append, length_htons, hctrlIp]
  · rw [tdpHdr, field_after (length_htons portId).le, length_htons, Nat.sub_self, field,
      List.drop_zero, List.take_of_length_le hctrlIp.le]

theorem udpData_discoveryFrame (r : DiscoveryRepo) (portId : BitVec 16) :
    udpData (discoveryFrame r portId) = tdpHdr portId r.controlIpAddr.addr.toList := by
  obtain ⟨ipv4, udp, hipv4, -, -, -, -, -, hudp, hframe⟩ := exists_discoveryFrame r portId
  have hethernet : (EthernetHdr.bytes ⟨List.replicate 6 0xff, r.macBytes, 0x0800⟩).length = 14 :=
    EthernetHdr.length_bytes List.length_replicate (length_macBytes r.toStRepo)
  have hctrlIp : r.controlIpAddr.addr.toList.length = 4 := Vector.length_toList
  have htdp := (field_tdpHdr portId hctrlIp).1
  have hafter : ∀ offset size, field (discoveryFrame r portId) (34 + offset) size =
      field (udp ++ tdpHdr portId r.controlIpAddr.addr.toList) offset size := fun offset size => by
    rw [hframe, field_after (by omega), hethernet, field_after (by omega), hipv4]
    congr 1
    omega
  have hlength : field (discoveryFrame r portId) 38 2 = htons 14 := by
    rw [hafter 4 2, hudp]
    rfl
  have hudpLength : udp.length = 8 := by
    rw [hudp]
    rfl
  rw [udpData, hlength, ntohs_htons, hafter 8, field_after hudpLength.le, hudpLength, Nat.sub_self]
  change (tdpHdr portId r.controlIpAddr.addr.toList).take 6 = _
  exact List.take_of_length_le htdp.le

end Datagrams

namespace NodeDaemon

theorem onTdpFd_tdpHdr (portId : BitVec 16) {ctrlIp : Bytes} (hctrlIp : ctrlIp.length = 4) (nd : NodeDaemon) :
    onTdpFd (tdpHdr portId ctrlIp) nd = onTdp (addrOf ctrlIp) portId.toNat nd := by
  obtain ⟨hlength, hport, haddr⟩ := field_tdpHdr portId hctrlIp
  have hsize : ¬(tdpHdr portId ctrlIp).length ≠ 6 := fun hne => hne hlength
  rw [onTdpFd, if_neg hsize, hport, haddr, ntohs_htons]

def knowing (ctrlIp : IPv4Addr) (port : Nat) (nd : NodeDaemon) : NodeDaemon :=
  { nd with switchPort := port, nearestSwitchIp := ctrlIp }

theorem foldlM_onTdpFd_known {portId : BitVec 16} {ctrlIp : Bytes} (hctrlIp : ctrlIp.length = 4)
    {nd : NodeDaemon} (hnd : nd.nearestSwitchIp = addrOf ctrlIp) {bufs : List Bytes}
    (hbufs : ∀ buf ∈ bufs, buf = tdpHdr portId ctrlIp) :
    bufs.foldlM (fun nd buf => onTdpFd buf nd) nd = .ok nd := by
  induction bufs with
  | nil => rfl
  | cons buf bufs ih =>
      rw [List.forall_mem_cons] at hbufs
      rw [List.foldlM_cons, hbufs.1, onTdpFd_tdpHdr portId hctrlIp, onTdp, if_pos hnd]
      exact ih hbufs.2

/-- A switch that keeps telling the same is learned once, if it has an address. -/
theorem foldlM_onTdpFd {portId : BitVec 16} {ctrlIp : Bytes} (hctrlIp : ctrlIp.length = 4)
    {nd : NodeDaemon} (hnd : nd.nearestSwitchIp = 0) {bufs : List Bytes}
    (hbufs : ∀ buf ∈ bufs, buf = tdpHdr portId ctrlIp) :
    bufs.foldlM (fun nd buf => onTdpFd buf nd) nd =
      .ok (if bufs = [] ∨ addrOf ctrlIp = 0 then nd else nd.knowing (addrOf ctrlIp) portId.toNat) := by
  by_cases hzero : addrOf ctrlIp = 0
  · rw [if_pos (Or.inr hzero)]
    exact foldlM_onTdpFd_known hctrlIp (hnd.trans hzero.symm) hbufs
  · cases bufs with
    | nil => rfl
    | cons buf bufs =>
        rw [List.forall_mem_cons] at hbufs
        have hfirst : nd.nearestSwitchIp ≠ addrOf ctrlIp := fun heq => hzero (heq.symm.trans hnd)
        have hunknown : ¬nd.nearestSwitchIp ≠ 0 := fun h => h hnd
        have hlearns : ¬(buf :: bufs = [] ∨ addrOf ctrlIp = 0) := by
          rintro (h | h)
          · exact List.cons_ne_nil _ _ h
          · exact hzero h
        rw [if_neg hlearns, List.foldlM_cons, hbufs.1, onTdpFd_tdpHdr portId hctrlIp, onTdp, if_neg hfirst,
          if_neg hunknown]
        have hknown : (nd.knowing (addrOf ctrlIp) portId.toNat).nearestSwitchIp = addrOf ctrlIp := rfl
        exact foldlM_onTdpFd_known hctrlIp hknown hbufs.2

end NodeDaemon

namespace WholeSwitch

/-- The datagrams of the packet processor's discovery packets that leave at a port. Stations could forge such
datagrams, which is not considered. -/
def datagrams (m : Matcher) (home : PortId) (w : WholeSwitch) : Event → List Bytes
  | .fromCpu =>
      if w.sent.head?.map (List.take 2) = some useSwitchingTable then []
      else ((w.leaves m .fromCpu).filter fun c => c.1 = home).map fun c => udpData (packBytes c.2)
  | _ => []

variable {m : Matcher} {r : DiscoveryRepo} {w : WholeSwitch} {home : PortId}

theorem Speaks.datagrams (hw : Speaks r w) (e : Event) :
    ∀ buf ∈ w.datagrams m home e, buf = tdpHdr (home.setWidth 16) r.controlIpAddr.addr.toList := by
  intro buf hbuf
  cases e with
  | fromCpu =>
      rw [WholeSwitch.datagrams] at hbuf
      by_cases hout : w.sent.head?.map (List.take 2) = some useSwitchingTable
      · rw [if_pos hout] at hbuf
        exact absurd hbuf List.not_mem_nil
      rw [if_neg hout] at hbuf
      obtain ⟨c, hc, rfl⟩ := List.mem_map.1 hbuf
      obtain ⟨hc, hhome⟩ := List.mem_filter.1 hc
      obtain ⟨portId, frame, sent, hsent, hsends, hbits, hport⟩ := hw.genuine (fun _ => True) c hc
      have hne : portId ≠ 65535 := by
        rintro rfl
        rw [hsent, List.head?_cons, Option.map_some, (take_htons 65535 frame).1] at hout
        exact hout rfl
      obtain ⟨hmem, rfl⟩ := hsends.port_eq.resolve_left hne
      have hwidth : (portId.setWidth 9).setWidth 16 = portId := by
        have hlt := toNat_discoveryPort_lt hmem
        refine BitVec.eq_of_toNat_eq ?_
        rw [BitVec.toNat_setWidth, BitVec.toNat_setWidth]
        omega
      rw [← of_decide_eq_true hhome, hport hne, hwidth, hbits, packBytes_bitsOf,
        udpData_discoveryFrame]
  | packet | looped | comFdData | discoveryProtocolTimer | learn | idle | notify => exact absurd hbuf List.not_mem_nil

/-- **Nodes learn where they are.** In every run of the switch, the daemon of a node that reads the discovery
datagrams leaving at its port never fails on them, and knows the switch and that very port from the first one
on, if the switch has an address. -/
theorem run_discovers (m : Matcher) {r : DiscoveryRepo} (home : PortId) {nd : NodeDaemon}
    (hnd : nd.nearestSwitchIp = 0) {run : List (Event × WholeSwitch)}
    (hrun : Along (fun w e w' => Steps m r w e w' ∧ e.Proper) (start r) run) :
    (contributionsOf (datagrams m home) (start r) run).foldlM (fun nd buf => NodeDaemon.onTdpFd buf nd) nd =
      .ok (if contributionsOf (datagrams m home) (start r) run = [] ∨
          NodeDaemon.addrOf r.controlIpAddr.addr.toList = 0 then nd
        else nd.knowing (NodeDaemon.addrOf r.controlIpAddr.addr.toList) home.toNat) := by
  have hport : (home.setWidth 16).toNat = home.toNat := by
    rw [BitVec.toNat_setWidth, Nat.mod_eq_of_lt (by omega)]
  have hall : Along (fun w e _ => ∀ buf ∈ w.datagrams m home e,
      buf = tdpHdr (home.setWidth 16) r.controlIpAddr.addr.toList) (start r) run :=
    hrun.imp (I := Speaks r) (fun _ _ _ hw hstep => hw.step hstep.1 hstep.2)
      (fun _ e _ hw _ => hw.datagrams e) (speaks_start r)
  rw [← hport]
  exact NodeDaemon.foldlM_onTdpFd (Vector.length_toList) hnd (forall_mem_contributionsOf hall)

namespace Session

/-- The node at the first port. -/
theorem session_discovered :
    (contributionsOf (datagrams Matcher.first 0) (start repo) session).foldlM
        (fun nd buf => NodeDaemon.onTdpFd buf nd) (NodeDaemon.initial 0x0a0a0080 station) =
      .ok ((NodeDaemon.initial 0x0a0a0080 station).knowing
        (NodeDaemon.addrOf repo.controlIpAddr.addr.toList) (0 : PortId).toNat) := by
  have hlearns : ¬(contributionsOf (datagrams Matcher.first 0) (start repo) session = [] ∨
      NodeDaemon.addrOf repo.controlIpAddr.addr.toList = 0) := by
    decide +kernel
  have hunknown : (NodeDaemon.initial 0x0a0a0080 station).nearestSwitchIp = 0 := rfl
  have hdiscovers := run_discovers Matcher.first 0 hunknown
    (session_steps.mono fun _ _ _ h => ⟨h.1, h.2.1.proper⟩)
  rwa [if_neg hlearns] at hdiscovers

end Session

end WholeSwitch

end Mpitofino
