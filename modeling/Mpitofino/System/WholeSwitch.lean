import Mpitofino.Control.SpecialEntries
import Mpitofino.Library.Conservation
import Mpitofino.System.LoopedTraffic
import Mpitofino.System.WireNetwork

/-!
# The whole switch

The switch with the packets that are under way inside it, the packets that wait at the interface to its CPU
in both directions, and the packet processor. Packets come in at the front panel only, as octets.

Packets with a unit go round inside, what is for the module is answered by the CPU, and its discovery packets
leave through the pipes as well. All of this takes turns in any order.
-/

namespace Mpitofino

open AsicDriver PacketProcessor

/-- The switch as its stations see it, the packets inside it by the ports they come in at, those that the
packet processor has not read, and those that it has sent. -/
structure WholeSwitch where
  plain : PlainSwitch
  looped : List (PortId × List Bool)
  comFd : List Bytes
  sent : List Bytes

theorem EthSwitch.inner_known {collectivesMac : MacAddr} {port : PortId}
    (hport : port ∈ (64 : PortId) :: loopPorts) (addr : MacAddr) :
    (initialSetup collectivesMac).Known addr port := by
  refine ⟨⟨⟨.any, .exact port⟩, none⟩, (FinTable.mem_entries_iff _).2 ?_, Ternary.matches_any addr,
    Ternary.matches_exact.2 rfl⟩
  have hignored : (⟨.any, .exact port⟩, none) ∈ ignored collectivesMac :=
    List.mem_append_left _ (List.mem_map.2 ⟨port, hport, rfl⟩)
  have hlast : FinTable.lastWrite (⟨.any, .exact port⟩ : SwitchingSrcKey) (ignored collectivesMac) =
      some (none : EntryTtl) := by
    refine FinTable.lastWrite_eq_some hignored fun ttl hmem => ?_
    rw [ignored, List.mem_append] at hmem
    rcases hmem with hmem | hmem
    · obtain ⟨p, -, heq⟩ := List.mem_map.1 hmem
      exact (Prod.mk.inj heq).2.symm
    · simp only [List.mem_cons, List.not_mem_nil, or_false, Prod.mk.injEq] at hmem
      rcases hmem with hmem | hmem | hmem <;> exact hmem.2
  rw [initialSetup, FinTable.lookup_putAll, hlast]
  rfl

namespace WholeSwitch

/-- A packet comes in, one inside takes its turn, the packet processor reads one or its timer fires, one that
it has sent takes its turn, or the driver learns, forgets or is notified. -/
inductive Event where
  | packet (port : PortId) (ptr : Bytes)
  | looped (port : PortId) (pkt : List Bool)
  | comFdData
  | discoveryProtocolTimer
  | fromCpu
  | learn (learnData : List EthSwitchDigest)
  | idle (key : SwitchingSrcKey)
  | notify (channels : List CollectiveChannel)

section Steps

variable (m : Matcher) (r : DiscoveryRepo) (w : WholeSwitch)

/-- A packet goes through the pipes. -/
def pass (port : PortId) (pkt : List Bool) : WholeSwitch :=
  { w with
    plain := w.plain.afterPacket m port pkt
    looped := w.looped ++ (w.plain.outputs m port pkt).filter fun c => comesBack c.1
    comFd := w.comFd ++ ((w.plain.outputs m port pkt).filter fun c => c.1 = 64).map fun c => packBytes c.2 }

def leaving (port : PortId) (pkt : List Bool) : List (PortId × List Bool) :=
  (w.plain.outputs m port pkt).filter fun c => c.1 ∈ frontPanelPorts

def handle : Event → Except String WholeSwitch
  | .packet port ptr => .ok (w.pass m port (bitsOf ptr))
  | .looped port pkt => .ok ({ w with looped := w.looped.erase (port, pkt) }.pass m port pkt)
  | .comFdData =>
      match w.comFd with
      | ptr :: comFd => .ok { w with comFd := comFd, sent := w.sent ++ (onComFdData r.toStRepo ptr).toList }
      | [] => .ok w
  | .discoveryProtocolTimer => .ok { w with sent := w.sent ++ onDiscoveryProtocolTimer r }
  | .fromCpu =>
      match w.sent with
      | ptr :: sent => .ok ({ w with sent := sent }.pass m 64 (bitsOf (sendPacket ptr)))
      | [] => .ok w
  | .learn learnData => do
      let plain ← w.plain.handle m (.learn learnData)
      return { w with plain := plain }
  | .idle key => do
      let plain ← w.plain.handle m (.idle key)
      return { w with plain := plain }
  | .notify channels => do
      let plain ← w.plain.handle m (.notify channels)
      return { w with plain := plain }

def leaves : Event → List (PortId × List Bool)
  | .packet port ptr => w.leaving m port (bitsOf ptr)
  | .looped port pkt => w.leaving m port pkt
  | .fromCpu => (w.sent.head?.map fun ptr => w.leaving m 64 (bitsOf (sendPacket ptr))).getD []
  | _ => []

/-- Packets come in at the front panel, and those inside are there. -/
def Possible : Event → Prop
  | .packet port _ => port ∈ frontPanelPorts
  | .looped port pkt => (port, pkt) ∈ w.looped
  | .learn learnData => w.plain.Possible (.learn learnData)
  | .idle key => w.plain.Possible (.idle key)
  | _ => True

def Steps (e : Event) (w' : WholeSwitch) : Prop := w.Possible e ∧ w.handle m r e = .ok w'

end Steps

def mac (r : DiscoveryRepo) : MacAddr := macOf r.macBytes

def start (r : DiscoveryRepo) : WholeSwitch := ⟨PlainSwitch.start (mac r), [], [], []⟩

/-- No packet has the broadcast address as its source, packets from stations are regular, and the known
channels have participants at the front panel and other units than the packets without one. -/
def Regular (m : Matcher) (r : DiscoveryRepo) (ihl : BitVec 4 → Prop) (w : WholeSwitch) : Event → Prop
  | .packet port ptr => ∀ x, Wire.IngressParser.start port (bitsOf ptr) = some x →
      x.hdr.ethernet.srcAddr ≠ EthSwitch.broadcastMac ∧ PlainSwitch.Regular m (mac r) ihl w.plain port x
  | .notify channels => ∀ rc ∈ knownChannels channels, rc.aggUnit ≠ 255 ∧
      ∀ p ∈ rc.members, p.switchPort ∈ frontPanelPorts
  | _ => True

/-- What the packet processor sends: answers, which are switched, and discovery packets, each out of its port. -/
structure Sends (r : DiscoveryRepo) (portId : BitVec 16) (frame : Bytes) : Prop where
  noRoce : NoRoce frame
  src_eq : (EthernetHdr.read frame).src = r.macBytes
  port_eq : portId = 65535 ∨ portId ∈ discoveryPorts ∧ frame = discoveryFrame r portId

def Sent (r : DiscoveryRepo) (ptr : Bytes) : Prop :=
  ∃ portId frame, ptr = htons portId ++ frame ∧ Sends r portId frame

/-- No known channel has the unit of the packets without one. -/
def Event.Proper : Event → Prop
  | .notify channels => ∀ rc ∈ knownChannels channels, rc.aggUnit ≠ 255
  | _ => True

/-- The packet processor speaks to the stations: its packets meet no entries of a unit. -/
structure Speaks (r : DiscoveryRepo) (w : WholeSwitch) : Prop where
  free : ∀ pipe, pipe = 0 ∨ pipe = 3 → w.plain.asic.SentinelFree pipe
  sent : ∀ ptr ∈ w.sent, Sent r ptr

structure Housed (r : DiscoveryRepo) (ihl : BitVec 4 → Prop) (w : WholeSwitch) : Prop extends Speaks r w where
  inward : Inward w.plain.asic
  guarded : EthSwitch.Guarded (mac r) ⟨w.plain.ethSwitch, w.plain.digests⟩
  digests : ∀ d ∈ w.plain.digests, d.srcMac ≠ EthSwitch.broadcastMac ∧ d.ingressPort ∈ frontPanelPorts
  entries : ∀ addr action, w.plain.asic.switchingTable.lookup addr = some action →
    (∃ port ∈ frontPanelPorts, action = .send port) ∨ addr = mac r ∧ action = .collective ∨
      addr = EthSwitch.broadcastMac ∧ action = .bcast
  floods : PlainSwitch.Spreads w.plain.asic mcastFlood frontPanelPorts PlainSwitch.floodNode
  bcasts : PlainSwitch.Spreads w.plain.asic mcastBcast bcastPorts PlainSwitch.bcastNode
  looped : ∀ c ∈ w.looped, Inside (mac r) ihl c

variable {m : Matcher} {r : DiscoveryRepo} {ihl : BitVec 4 → Prop} {w w' : WholeSwitch} {e : Event}

theorem Regular.anyIhl (h : Regular m r ihl w e) : Regular m r (fun _ => True) w e := by
  cases e with
  | packet port ptr => exact fun x hx => ⟨(h x hx).1, fun _ => trivial, (h x hx).2.addressed⟩
  | notify channels => exact h
  | looped | comFdData | discoveryProtocolTimer | fromCpu | learn | idle => trivial

theorem Regular.proper (h : Regular m r ihl w e) : e.Proper := by
  cases e with
  | notify channels => exact fun rc hrc => (h rc hrc).1
  | packet | looped | comFdData | discoveryProtocolTimer | fromCpu | learn | idle => trivial

theorem speaks_start (r : DiscoveryRepo) : Speaks r (start r) where
  free _ _ := ⟨fun _ _ => rfl, fun _ he => by contradiction⟩
  sent _ hptr := by contradiction

theorem housed_start (hne : mac r ≠ EthSwitch.broadcastMac) : Housed r ihl (start r) where
  toSpeaks := speaks_start r
  inward := inward_initialSetup _
  guarded := EthSwitch.Guarded.initialSetup hne
  digests _ hd := by contradiction
  entries addr action haction := by
    change (FinTable.empty.putAll [(EthSwitch.broadcastMac, .bcast), (mac r, .collective)]).lookup addr =
      some action at haction
    rw [FinTable.putAll_cons, FinTable.putAll_cons, FinTable.putAll_nil, FinTable.lookup_put,
      FinTable.lookup_put] at haction
    split at haction
    · rename_i heq
      exact Or.inr (Or.inl ⟨heq, (Option.some.inj haction).symm⟩)
    · split at haction
      · rename_i heq
        exact Or.inr (Or.inr ⟨heq, (Option.some.inj haction).symm⟩)
      · contradiction
  floods := (PlainSwitch.spreads_initialSetup _).1
  bcasts := (PlainSwitch.spreads_initialSetup _).2
  looped _ hc := by contradiction

theorem Housed.closed (hw : Housed r ihl w) : PlainSwitch.Closed (mac r) w.plain :=
  ⟨hw.inward, hw.free, hw.guarded.special.collective⟩

theorem exists_afterPacket (t : PlainSwitch) (port : PortId) (pkt : List Bool) : ∃ regs digests,
    t.afterPacket m port pkt =
      { t with asic := { t.asic with regs := regs }, digests := t.digests ++ digests } ∧
    ∀ d ∈ digests, ∃ x, Wire.IngressParser.start port pkt = some x ∧ d ∈ t.digestOf port x := by
  rw [PlainSwitch.afterPacket]
  cases hx : Wire.IngressParser.start port pkt with
  | none => exact ⟨t.asic.regs, [], by rw [List.append_nil], fun d hd => by contradiction⟩
  | some x => exact ⟨_, _, rfl, fun d hd => ⟨x, rfl, hd⟩⟩

theorem Speaks.pass (hw : Speaks r w) (port : PortId) (pkt : List Bool) : Speaks r (w.pass m port pkt) := by
  obtain ⟨regs, digests, hplain, -⟩ := exists_afterPacket (m := m) w.plain port pkt
  rw [WholeSwitch.pass, hplain]
  exact ⟨fun pipe hpipe => ⟨(hw.free pipe hpipe).chooseAction, (hw.free pipe hpipe).checkComplete⟩, hw.sent⟩

/-- A packet leaves the tables alone. -/
theorem Housed.pass (hw : Housed r ihl w) {port : PortId} {pkt : List Bool}
    (hdigests : ∀ x, Wire.IngressParser.start port pkt = some x → ∀ d ∈ w.plain.digestOf port x,
      d.srcMac ≠ EthSwitch.broadcastMac ∧ port ∈ frontPanelPorts)
    (houtputs : ∀ c ∈ w.plain.outputs m port pkt, comesBack c.1 = true → Inside (mac r) ihl c) :
    Housed r ihl (w.pass m port pkt) := by
  obtain ⟨regs, digests, hplain, hnew⟩ := exists_afterPacket (m := m) w.plain port pkt
  have hspeaks := hw.toSpeaks.pass (m := m) port pkt
  have hlooped : ∀ c ∈ (w.pass m port pkt).looped, Inside (mac r) ihl c := by
    intro c hc
    rcases List.mem_append.1 hc with hc | hc
    · exact hw.looped c hc
    · obtain ⟨hc, hback⟩ := List.mem_filter.1 hc
      exact houtputs c hc hback
  rw [WholeSwitch.pass, hplain] at hspeaks hlooped ⊢
  refine ⟨hspeaks, ⟨hw.inward.units, hw.inward.actions, hw.inward.members, hw.inward.nodes⟩,
    { hw.guarded with digests := fun d hd => ?_ }, fun d hd => ?_, hw.entries,
    ⟨hw.floods.group, hw.floods.nodes⟩, ⟨hw.bcasts.group, hw.bcasts.nodes⟩, hlooped⟩
  · rcases List.mem_append.1 hd with hd | hd
    · exact hw.guarded.digests d hd
    · obtain ⟨x, -, hd⟩ := hnew d hd
      obtain ⟨rfl, -, hunknown⟩ := PlainSwitch.eq_of_mem_digestOf hd
      intro heq
      refine hunknown (EthSwitch.known_of_static hw.guarded.static ?_)
      rw [show x.hdr.ethernet.srcAddr = mac r from heq]
      exact EthSwitch.collectivesMac_known port
  · rcases List.mem_append.1 hd with hd | hd
    · exact hw.digests d hd
    · obtain ⟨x, hx, hd⟩ := hnew d hd
      obtain ⟨hbroadcast, hport⟩ := hdigests x hx d hd
      obtain ⟨rfl, -⟩ := PlainSwitch.eq_of_mem_digestOf hd
      exact ⟨hbroadcast, hport⟩

theorem Housed.digestOf_eq_nil (hw : Housed r ihl w) {port : PortId} (hport : port ∈ (64 : PortId) :: loopPorts)
    (x : Wire.Parsed) : ∀ d ∈ w.plain.digestOf port x, False := by
  intro d hd
  obtain ⟨-, -, hunknown⟩ := PlainSwitch.eq_of_mem_digestOf hd
  exact hunknown (EthSwitch.known_of_static hw.guarded.static (EthSwitch.inner_known hport _))

/-- Where the Ethernet switch sends packets: to the front panel or to the CPU. -/
theorem Housed.targets (hw : Housed r ihl w) {port : PortId} {addr : MacAddr} :
    ∀ p ∈ w.plain.targets port addr, p ∈ frontPanelPorts ∨
      p = 64 ∧ (addr = mac r ∨ addr = EthSwitch.broadcastMac) := by
  intro p hp
  have hspread : ∀ {mgid ports nodeId}, PlainSwitch.Spreads w.plain.asic mgid ports nodeId →
      p ∈ (w.plain.asic.replicas mgid port.toNat).map Prod.fst → p ∈ ports := by
    intro mgid ports nodeId hspreads hp
    rw [hspreads.replicas, List.map_map] at hp
    obtain ⟨q, hq, rfl⟩ := List.mem_map.1 hp
    exact (List.mem_filter.1 hq).1
  rw [PlainSwitch.targets] at hp
  cases hlookup : w.plain.asic.switchingTable.lookup addr with
  | none =>
      rw [hlookup] at hp
      exact Or.inl (hspread hw.floods hp)
  | some action =>
      rw [hlookup] at hp
      rcases hw.entries addr action hlookup with ⟨port', hport', rfl⟩ | ⟨haddr, rfl⟩ | ⟨haddr, rfl⟩
      · exact Or.inl (List.mem_singleton.1 hp ▸ hport')
      · exact Or.inr ⟨List.mem_singleton.1 hp, Or.inl haddr⟩
      · rcases List.mem_append.1 (hspread hw.bcasts hp) with hp | hp
        · exact Or.inl hp
        · exact Or.inr ⟨List.mem_singleton.1 hp, Or.inr haddr⟩

theorem comesBack_of_inside {mac : MacAddr} {c : PortId × List Bool} (h : Inside mac ihl c) :
    comesBack c.1 = true := by
  cases h with
  | collective hport _ =>
      have hports : ∀ port ∈ loopPorts, comesBack port = true := by
        decide
      exact hports _ hport
  | result hport icrc _ =>
      obtain ⟨port', -, hadapt⟩ := PlainSwitch.adapt_of_fansOut hport
      rw [comesBack, hadapt, Option.isSome_some, Bool.or_true]

theorem not_comesBack {port : PortId} (hport : port ∈ frontPanelPorts ∨ port = 64) :
    ¬ comesBack port = true := by
  have hports : ∀ port ∈ bcastPorts, ¬ comesBack port = true := by
    decide
  refine hports port (List.mem_append.2 (hport.imp_right fun heq => ?_))
  rw [heq]
  exact List.mem_singleton_self _

theorem Housed.packet (hw : Housed r ihl w) {port : PortId} {ptr : Bytes} (hport : port ∈ frontPanelPorts)
    (hregular : Regular m r ihl w (.packet port ptr)) : Housed r ihl (w.pass m port (bitsOf ptr)) := by
  refine hw.pass (fun x hx d hd => ?_) fun c hc hback => ?_
  · obtain ⟨rfl, -⟩ := PlainSwitch.eq_of_mem_digestOf hd
    exact ⟨(hregular x hx).1, hport⟩
  · cases hx : Wire.IngressParser.start port (bitsOf ptr) with
    | none =>
        rw [PlainSwitch.outputs_eq_nil hx] at hc
        contradiction
    | some x =>
        rcases PlainSwitch.outputs_of_station hw.closed hport hx (hregular x hx).2 c hc with
          ⟨htarget, -⟩ | ⟨hsame, -⟩ | hinside
        · exact absurd hback (not_comesBack ((hw.targets c.1 htarget).imp_right And.left))
        · exact absurd hback (not_comesBack (Or.inl (hsame ▸ hport)))
        · exact hinside

theorem Housed.digestOf_inside (hw : Housed r ihl w) {port : PortId} {pkt : List Bool}
    (hinside : Inside (mac r) ihl (port, pkt)) {x : Wire.Parsed}
    (hx : Wire.IngressParser.start port pkt = some x) : ∀ d ∈ w.plain.digestOf port x, False := by
  intro d hd
  cases hinside with
  | collective hport _ => exact hw.digestOf_eq_nil (List.mem_cons_of_mem _ hport) x d hd
  | result hport icrc _ =>
      obtain ⟨port', -, hadapt⟩ := PlainSwitch.adapt_of_fansOut hport
      obtain ⟨-, hextracted, -⟩ := PlainSwitch.eq_of_mem_digestOf hd
      rw [(Wire.IngressParser.start_eq_some hx).1] at hextracted
      exact hextracted (Ingress.start_of_fanOut hadapt x.hdr).2

theorem Housed.inner (hw : Housed r ihl w) {port : PortId} {pkt : List Bool}
    (hinside : Inside (mac r) ihl (port, pkt)) : Housed r ihl (w.pass m port pkt) := by
  refine hw.pass (fun x hx d hd => (hw.digestOf_inside hinside hx d hd).elim) fun c hc hback => ?_
  rcases PlainSwitch.outputs_of_inside hw.closed hinside c hc with hinside | ⟨hport, -⟩
  · exact hinside
  · exact absurd hback (not_comesBack (Or.inl hport))

theorem toNat_discoveryPort_lt {portId : BitVec 16} (h : portId ∈ discoveryPorts) : portId.toNat < 512 := by
  obtain ⟨i, hi, h⟩ := List.mem_flatMap.1 h
  obtain ⟨j, hj, rfl⟩ := List.mem_map.1 h
  simp only [List.mem_cons, List.not_mem_nil, or_false] at hi
  have hlt : j < 16 := List.mem_range.1 hj
  rw [BitVec.toNat_ofNat]
  omega

theorem front_of_mem_discoveryPorts {portId : BitVec 16} (h : portId ∈ discoveryPorts) : portId ≠ 65535 ∧
    portId.setWidth 9 ∈ frontPanelPorts := by
  constructor
  · rintro rfl
    exact absurd (toNat_discoveryPort_lt h) (by decide)
  · obtain ⟨i, hi, h⟩ := List.mem_flatMap.1 h
    obtain ⟨j, hj, rfl⟩ := List.mem_map.1 h
    refine List.mem_flatMap.2 ⟨i, hi, List.mem_map.2 ⟨j, hj, ?_⟩⟩
    refine BitVec.eq_of_toNat_eq ?_
    rw [BitVec.toNat_setWidth, BitVec.toNat_ofNat, BitVec.toNat_ofNat]
    omega

theorem Speaks.outputs_sent (hw : Speaks r w) {portId : BitVec 16} {frame : Bytes}
    (hsends : Sends r portId frame) : w.plain.outputs m 64 (bitsOf (sendPacket (htons portId ++ frame))) =
      (if portId ≠ 65535 then [portId.setWidth 9]
        else w.plain.targets 64 (ethernetOf frame).dstAddr).map fun p => (p, bitsOf frame) :=
  (PlainSwitch.outputs_sendPacket (hw.free 0 (Or.inl rfl)) hsends.noRoce portId).2

theorem Housed.ports_sent (hw : Housed r ihl w) {portId : BitVec 16} {frame : Bytes}
    (hsends : Sends r portId frame) :
    ∀ c ∈ w.plain.outputs m 64 (bitsOf (sendPacket (htons portId ++ frame))),
      (c.1 ∈ frontPanelPorts ∨ c.1 = 64) ∧ c.2 = bitsOf frame := by
  intro c hc
  rw [hw.toSpeaks.outputs_sent hsends] at hc
  obtain ⟨p, hp, rfl⟩ := List.mem_map.1 hc
  refine ⟨?_, rfl⟩
  split at hp
  · rename_i hne
    obtain ⟨hport, -⟩ := hsends.port_eq.resolve_left hne
    rw [List.mem_singleton.1 hp]
    exact Or.inl (front_of_mem_discoveryPorts hport).2
  · exact (hw.targets p hp).imp_right And.left

theorem Housed.fromCpu (hw : Housed r ihl w) {ptr : Bytes} (hptr : Sent r ptr) :
    Housed r ihl (w.pass m 64 (bitsOf (sendPacket ptr))) := by
  obtain ⟨portId, frame, rfl, hsends⟩ := hptr
  refine hw.pass (fun x hx d hd => (hw.digestOf_eq_nil List.mem_cons_self x d hd).elim) fun c hc hback => ?_
  exact absurd hback (not_comesBack (hw.ports_sent hsends c hc).1)

theorem sent_of_answer {ptr sent : Bytes} (h : onComFdData r.toStRepo ptr = some sent) : Sent r sent := by
  obtain ⟨-, -, frame, rfl, hanswers⟩ := onComFdData_eq_some h
  exact ⟨65535, frame, rfl, hanswers.noRoce, hanswers.src_eq, Or.inl rfl⟩

theorem sent_of_discovery {ptr : Bytes} (h : ptr ∈ onDiscoveryProtocolTimer r) : Sent r ptr := by
  obtain ⟨portId, hport, rfl⟩ := List.mem_map.1 h
  obtain ⟨hroce, hread⟩ := noRoce_discoveryFrame r portId
  exact ⟨portId, _, rfl, hroce, by rw [hread], Or.inr ⟨hport, rfl⟩⟩

theorem Speaks.switching (hw : Speaks r w) (hchoose : w'.plain.asic.chooseAction = w.plain.asic.chooseAction)
    (hpipes : w'.plain.asic.pipes = w.plain.asic.pipes) (hsent : w'.sent = w.sent) : Speaks r w' where
  free pipe hpipe := by
    obtain ⟨hchooseFree, hcheckFree⟩ := hw.free pipe hpipe
    rw [← hchoose] at hchooseFree
    rw [← hpipes] at hcheckFree
    exact ⟨hchooseFree, hcheckFree⟩
  sent := hsent ▸ hw.sent

theorem Speaks.notify (hw : Speaks r w) {channels : List CollectiveChannel} {asic : Asic}
    (hasic : onStRepoChannels channels w.plain.asic = .ok asic)
    (hproper : (Event.notify channels).Proper) :
    Speaks r { w with plain := { w.plain with asic := asic } } where
  free _ hpipe := PlainSwitch.sentinelFree_of_notified (onStRepoChannels_ok hasic) hproper hpipe
  sent := hw.sent

theorem Speaks.answered (hw : Speaks r w) (ptr : Bytes) :
    ∀ sent ∈ w.sent ++ (onComFdData r.toStRepo ptr).toList, Sent r sent := by
  intro sent hsent
  rcases List.mem_append.1 hsent with hsent | hsent
  · exact hw.sent sent hsent
  · exact sent_of_answer (Option.mem_toList.1 hsent)

theorem Speaks.announced (hw : Speaks r w) : ∀ sent ∈ w.sent ++ onDiscoveryProtocolTimer r, Sent r sent := by
  intro sent hsent
  rcases List.mem_append.1 hsent with hsent | hsent
  · exact hw.sent sent hsent
  · exact sent_of_discovery hsent

theorem Speaks.head (hw : Speaks r w) {ptr : Bytes} {sent : List Bytes} (hsent : w.sent = ptr :: sent) :
    Sent r ptr ∧ ∀ sent' ∈ sent, Sent r sent' := by
  have hall := hw.sent
  rwa [hsent, List.forall_mem_cons] at hall

theorem Housed.learn (hw : Housed r ihl w) {learnData : List EthSwitchDigest}
    (hpossible : learnData.Subperm w.plain.digests) :
    Housed r ihl { w with plain := { w.plain.withEthSwitch (EthSwitch.ethSwitchLearnCb learnData w.plain.ethSwitch)
      with digests := w.plain.digests.diff learnData } } := by
  have hguarded := hw.guarded.learnCb (fun d hd => (hw.digests d (hpossible.subset hd)).1)
    fun d hd => hw.guarded.digests d (hpossible.subset hd)
  refine ⟨hw.toSpeaks.switching rfl rfl rfl,
    ⟨hw.inward.units, hw.inward.actions, hw.inward.members, hw.inward.nodes⟩,
    { hguarded with digests := fun d hd => hw.guarded.digests d (List.diff_subset _ _ hd) },
    fun d hd => hw.digests d (List.diff_subset _ _ hd), fun addr => ?_,
    ⟨hw.floods.group, hw.floods.nodes⟩, ⟨hw.bcasts.group, hw.bcasts.nodes⟩, hw.looped⟩
  exact PlainSwitch.lookup_learned (hw.entries addr) fun d hd _ =>
    Or.inl ⟨_, (hw.digests d (hpossible.subset hd)).2, rfl⟩

theorem Housed.idle (hw : Housed r ihl w) {key : SwitchingSrcKey} {s : EthSwitch}
    (hpossible : ∃ ttl, w.plain.switchingTableSrc.lookup key = some (some ttl))
    (hs : EthSwitch.ethSwitchIdleCb key w.plain.ethSwitch = .ok s) :
    Housed r ihl { w with plain := w.plain.withEthSwitch s } := by
  obtain ⟨ttl, hkey⟩ := hpossible
  have hguarded := hw.guarded.idleCb hkey hs
  exact ⟨hw.toSpeaks.switching rfl rfl rfl,
    ⟨hw.inward.units, hw.inward.actions, hw.inward.members, hw.inward.nodes⟩, hguarded, hw.digests,
    fun addr action haction => hw.entries addr action (PlainSwitch.lookup_forgotten hs haction),
    ⟨hw.floods.group, hw.floods.nodes⟩, ⟨hw.bcasts.group, hw.bcasts.nodes⟩, hw.looped⟩

theorem Housed.notify (hw : Housed r ihl w) {channels : List CollectiveChannel} {asic : Asic}
    (hasic : onStRepoChannels channels w.plain.asic = .ok asic)
    (hregular : Regular m r ihl w (.notify channels)) :
    Housed r ihl { w with plain := { w.plain with asic := asic } } := by
  have hreconciled := onStRepoChannels_ok hasic
  have hswitching : asic.switchingTable = w.plain.asic.switchingTable := hreconciled.switchingTable
  have hguarded : EthSwitch.Guarded (mac r) ⟨⟨asic.switchingTable, w.plain.switchingTableSrc⟩, w.plain.digests⟩ := by
    rw [hswitching]
    exact hw.guarded
  exact ⟨hw.toSpeaks.notify hasic hregular.proper,
    hw.inward.notified hreconciled fun rc hrc => (hregular rc hrc).2,
    hguarded, hw.digests, fun addr action haction => hw.entries addr action (hswitching ▸ haction),
    hw.floods.notified (by decide) (fun p _ => PlainSwitch.floodNode_lt p) hreconciled,
    hw.bcasts.notified (by decide) (fun p _ => PlainSwitch.bcastNode_lt p) hreconciled, hw.looped⟩

theorem Housed.next (hw : Housed r ihl w) {ptr : Bytes} {sent : List Bytes} (hsent : w.sent = ptr :: sent) :
    Sent r ptr ∧ Housed r ihl { w with sent := sent } := by
  obtain ⟨hptr, hrest⟩ := hw.toSpeaks.head hsent
  exact ⟨hptr, { hw with sent := hrest }⟩

theorem Speaks.step (hw : Speaks r w) (hstep : Steps m r w e w') (hproper : e.Proper) : Speaks r w' := by
  obtain ⟨-, hok⟩ := hstep
  cases e with
  | packet port ptr =>
      obtain rfl := Except.ok.inj hok
      exact hw.pass port _
  | looped port pkt =>
      obtain rfl := Except.ok.inj hok
      exact Speaks.pass (w := { w with looped := w.looped.erase (port, pkt) }) ⟨hw.free, hw.sent⟩ port pkt
  | comFdData =>
      rw [handle] at hok
      cases hcomFd : w.comFd with
      | nil =>
          rw [hcomFd] at hok
          obtain rfl := Except.ok.inj hok
          exact hw
      | cons ptr comFd =>
          rw [hcomFd] at hok
          obtain rfl := Except.ok.inj hok
          exact ⟨hw.free, hw.answered ptr⟩
  | discoveryProtocolTimer =>
      obtain rfl := Except.ok.inj hok
      exact ⟨hw.free, hw.announced⟩
  | fromCpu =>
      rw [handle] at hok
      cases hsent : w.sent with
      | nil =>
          rw [hsent] at hok
          obtain rfl := Except.ok.inj hok
          exact hw
      | cons ptr sent =>
          rw [hsent] at hok
          obtain rfl := Except.ok.inj hok
          exact Speaks.pass (w := { w with sent := sent }) ⟨hw.free, (hw.head hsent).2⟩ 64 _
  | learn learnData =>
      obtain rfl := Except.ok.inj hok
      exact hw.switching rfl rfl rfl
  | idle key =>
      obtain ⟨plain, hplain, hok⟩ := Fallible.bind_eq_ok.1 hok
      obtain ⟨s, -, hplain⟩ := Fallible.bind_eq_ok.1 hplain
      obtain rfl := Except.ok.inj hplain
      obtain rfl := Except.ok.inj hok
      exact hw.switching rfl rfl rfl
  | notify channels =>
      obtain ⟨plain, hplain, hok⟩ := Fallible.bind_eq_ok.1 hok
      obtain ⟨asic, hasic, hplain⟩ := Fallible.bind_eq_ok.1 hplain
      obtain rfl := Except.ok.inj hplain
      obtain rfl := Except.ok.inj hok
      exact hw.notify hasic hproper

/-- What holds is kept by every event. -/
theorem Housed.step (hw : Housed r ihl w) (hstep : Steps m r w e w') (hregular : Regular m r ihl w e) :
    Housed r ihl w' := by
  obtain ⟨hpossible, hok⟩ := hstep
  cases e with
  | packet port ptr =>
      obtain rfl := Except.ok.inj hok
      exact hw.packet hpossible hregular
  | looped port pkt =>
      obtain rfl := Except.ok.inj hok
      have hinside := hw.looped _ hpossible
      have hrest : Housed r ihl { w with looped := w.looped.erase (port, pkt) } :=
        { hw with looped := fun c hc => hw.looped c (List.mem_of_mem_erase hc) }
      exact hrest.inner hinside
  | comFdData =>
      rw [handle] at hok
      cases hcomFd : w.comFd with
      | nil =>
          rw [hcomFd] at hok
          obtain rfl := Except.ok.inj hok
          exact hw
      | cons ptr comFd =>
          rw [hcomFd] at hok
          obtain rfl := Except.ok.inj hok
          exact { hw with sent := hw.answered ptr }
  | discoveryProtocolTimer =>
      obtain rfl := Except.ok.inj hok
      exact { hw with sent := hw.announced }
  | fromCpu =>
      rw [handle] at hok
      cases hsent : w.sent with
      | nil =>
          rw [hsent] at hok
          obtain rfl := Except.ok.inj hok
          exact hw
      | cons ptr sent =>
          rw [hsent] at hok
          obtain rfl := Except.ok.inj hok
          obtain ⟨hptr, hrest⟩ := hw.next hsent
          exact hrest.fromCpu hptr
  | learn learnData =>
      obtain rfl := Except.ok.inj hok
      exact hw.learn hpossible
  | idle key =>
      obtain ⟨plain, hplain, hok⟩ := Fallible.bind_eq_ok.1 hok
      obtain ⟨s, hs, hplain⟩ := Fallible.bind_eq_ok.1 hplain
      obtain rfl := Except.ok.inj hplain
      obtain rfl := Except.ok.inj hok
      exact hw.idle hpossible hs
  | notify channels =>
      obtain ⟨plain, hplain, hok⟩ := Fallible.bind_eq_ok.1 hok
      obtain ⟨asic, hasic, hplain⟩ := Fallible.bind_eq_ok.1 hplain
      obtain rfl := Except.ok.inj hplain
      obtain rfl := Except.ok.inj hok
      exact hw.notify hasic hregular

/-! ### What leaves -/

/-- A packet that came in, a RoCE packet back where one came in (a reflected acknowledgement), a RoCE packet
that was inside (a copy of a result), or what the packet processor has sent, out of its port if it has one. -/
def Genuine (r : DiscoveryRepo) (ihl : BitVec 4 → Prop) (w : WholeSwitch) (c : PortId × List Bool) :
    Event → Prop
  | .packet port ptr => c.2 = bitsOf ptr ∨ c.1 = port ∧ RoceBits ihl c.2
  | .looped _ _ => RoceBits ihl c.2
  | .fromCpu => ∃ portId frame sent, w.sent = (htons portId ++ frame) :: sent ∧ Sends r portId frame ∧
      c.2 = bitsOf frame ∧ (portId ≠ 65535 → c.1 = portId.setWidth 9)
  | _ => False

theorem Speaks.genuine (hw : Speaks r w) (ihl : BitVec 4 → Prop) :
    ∀ c ∈ w.leaves m .fromCpu, Genuine r ihl w c .fromCpu := by
  intro c hc
  rw [leaves] at hc
  cases hsent : w.sent with
  | nil =>
      rw [hsent] at hc
      contradiction
  | cons ptr sent =>
      rw [hsent] at hc
      obtain ⟨⟨portId, frame, rfl, hsends⟩, -⟩ := hw.head hsent
      obtain ⟨hc, -⟩ := List.mem_filter.1 hc
      rw [hw.outputs_sent hsends] at hc
      obtain ⟨p, hp, rfl⟩ := List.mem_map.1 hc
      refine ⟨portId, frame, sent, hsent, hsends, rfl, fun hne => ?_⟩
      rw [if_pos hne] at hp
      exact List.mem_singleton.1 hp

theorem Housed.genuine (hw : Housed r ihl w) (hpossible : w.Possible e) (hregular : Regular m r ihl w e) :
    ∀ c ∈ w.leaves m e, Genuine r ihl w c e := by
  intro c hc
  cases e with
  | packet port ptr =>
      obtain ⟨hc, hport⟩ := List.mem_filter.1 hc
      cases hx : Wire.IngressParser.start port (bitsOf ptr) with
      | none =>
          rw [PlainSwitch.outputs_eq_nil hx] at hc
          contradiction
      | some x =>
          rcases PlainSwitch.outputs_of_station hw.closed hpossible hx (hregular x hx).2 c hc with
            ⟨-, hbits⟩ | hreflected | hinside
          · exact Or.inl hbits
          · exact Or.inr hreflected
          · exact absurd (comesBack_of_inside hinside) (not_comesBack (Or.inl (of_decide_eq_true hport)))
  | looped port pkt =>
      obtain ⟨hc, hport⟩ := List.mem_filter.1 hc
      rcases PlainSwitch.outputs_of_inside hw.closed (hw.looped _ hpossible) c hc with hinside | ⟨-, hbits⟩
      · exact absurd (comesBack_of_inside hinside) (not_comesBack (Or.inl (of_decide_eq_true hport)))
      · exact hbits
  | fromCpu => exact hw.toSpeaks.genuine ihl c hc
  | comFdData | discoveryProtocolTimer | learn | idle | notify => exact absurd hc List.not_mem_nil

/-- **Nothing else leaves.** In every run of the switch with its driver and its packet processor, what leaves
at the front panel is a packet as it came in, a RoCE packet that goes back where one came in, a RoCE packet out
of a pass inside, or what the packet processor has sent, and a discovery packet leaves at the port it names. -/
theorem run_genuine (m : Matcher) {r : DiscoveryRepo} (hne : mac r ≠ EthSwitch.broadcastMac)
    (ihl : BitVec 4 → Prop) {run : List (Event × WholeSwitch)}
    (hrun : Along (fun w e w' => Steps m r w e w' ∧ Regular m r ihl w e) (start r) run) :
    Along (fun w e _ => ∀ c ∈ w.leaves m e, Genuine r ihl w c e) (start r) run :=
  hrun.imp (I := Housed r ihl) (fun _ _ _ hw hstep => hw.step hstep.1 hstep.2)
    (fun _ _ _ hw hstep => hw.genuine hstep.1.1 hstep.2) (housed_start hne)

/-! ### Answers -/

def answerTo (r : DiscoveryRepo) (addr : MacAddr) (ptr : Bytes) : List (List Bool) :=
  if (ethernetOf ptr).srcAddr = addr then
    ((onComFdData r.toStRepo ptr).map fun sent => bitsOf (sent.drop 2)).toList
  else []

/-- What is sent to a station through the Ethernet switch. -/
def switchedTo (addr : MacAddr) (ptr : Bytes) : List (List Bool) :=
  if ptr.take 2 = useSwitchingTable ∧ (ethernetOf (ptr.drop 2)).dstAddr = addr then [bitsOf (ptr.drop 2)]
  else []

/-- The answers that a station is owed. -/
def owed (r : DiscoveryRepo) (addr : MacAddr) (w : WholeSwitch) : List (List Bool) :=
  w.sent.flatMap (switchedTo addr) ++ w.comFd.flatMap (answerTo r addr)

/-- The answers that it asks for: by packets to the collectives module or to everyone. -/
def asked (r : DiscoveryRepo) (addr : MacAddr) : Event → List (List Bool)
  | .packet _ ptr =>
      if (ethernetOf ptr).dstAddr = mac r ∨ (ethernetOf ptr).dstAddr = EthSwitch.broadcastMac then
        answerTo r addr ptr
      else []
  | _ => []

/-- Those that it gets: what the packet processor has sent to it and leaves at its port. -/
def answered (m : Matcher) (addr : MacAddr) (home : PortId) (w : WholeSwitch) : Event → List (List Bool)
  | .fromCpu => ((w.leaves m .fromCpu).filter fun c =>
      c.1 = home ∧ (ethernetOf (packBytes c.2)).dstAddr = addr).map Prod.snd
  | _ => []

/-- A station sends from its port only. -/
def Event.At (addr : MacAddr) (home : PortId) : Event → Prop
  | .packet port ptr => ∀ x, Wire.IngressParser.start port (bitsOf ptr) = some x →
      x.hdr.ethernet.srcAddr = addr → port = home
  | _ => True

variable {addr : MacAddr} {home : PortId}

theorem knows_step (hw : Housed r ihl w) (ht : PlainSwitch.Knows addr home w.plain) (hstep : Steps m r w e w')
    (hregular : Regular m r ihl w e) (hat : e.At addr home) : PlainSwitch.Knows addr home w'.plain := by
  obtain ⟨hpossible, hok⟩ := hstep
  cases e with
  | packet port ptr =>
      obtain rfl := Except.ok.inj hok
      refine ht.packet fun x hx d hd hsrc => ?_
      obtain ⟨rfl, -⟩ := PlainSwitch.eq_of_mem_digestOf hd
      exact hat x hx hsrc
  | looped port pkt =>
      obtain rfl := Except.ok.inj hok
      exact ht.packet fun x hx d hd => (hw.digestOf_inside (hw.looped _ hpossible) hx d hd).elim
  | comFdData =>
      rw [handle] at hok
      split at hok <;> obtain rfl := Except.ok.inj hok <;> exact ht
  | discoveryProtocolTimer =>
      obtain rfl := Except.ok.inj hok
      exact ht
  | fromCpu =>
      rw [handle] at hok
      split at hok
      · obtain rfl := Except.ok.inj hok
        exact ht.packet fun x _ d hd => (hw.digestOf_eq_nil List.mem_cons_self x d hd).elim
      · obtain rfl := Except.ok.inj hok
        exact ht
  | learn learnData =>
      obtain rfl := Except.ok.inj hok
      exact ht.step (m := m) (e := .learn learnData) ⟨hpossible, rfl⟩ trivial trivial
  | idle key =>
      obtain ⟨plain, hplain, hok⟩ := Fallible.bind_eq_ok.1 hok
      obtain rfl := Except.ok.inj hok
      exact ht.step (m := m) (e := .idle key) ⟨hpossible, hplain⟩ trivial trivial
  | notify channels =>
      obtain ⟨plain, hplain, hok⟩ := Fallible.bind_eq_ok.1 hok
      obtain rfl := Except.ok.inj hok
      exact ht.step (m := m) (e := .notify channels) ⟨trivial, hplain⟩ trivial
        fun rc hrc => (hregular rc hrc).1

/-- The CPU gets one copy of what is for the module or for everyone, and nothing else. -/
theorem Housed.targets_cpu (hw : Housed r ihl w) {port : PortId} (hport : port ∈ frontPanelPorts)
    (dst : MacAddr) : (w.plain.targets port dst).filter (fun p => p = 64) =
      if dst = mac r ∨ dst = EthSwitch.broadcastMac then [64] else [] := by
  split
  · rename_i hdst
    rw [PlainSwitch.targets]
    rcases hdst with rfl | rfl
    · have hlookup : w.plain.asic.switchingTable.lookup (mac r) = some .collective := hw.guarded.special.collective
      rw [hlookup]
      rfl
    · have hlookup : w.plain.asic.switchingTable.lookup EthSwitch.broadcastMac = some .bcast :=
        hw.guarded.special.broadcast
      have hne : (64 : PortId).toNat ≠ port.toNat := fun heq =>
        absurd (BitVec.eq_of_toNat_eq heq ▸ hport) (by decide)
      have hports : (bcastPorts.filter fun p => p.toNat ≠ port.toNat).filter (fun p => p = 64) =
          bcastPorts.filter fun p => p = 64 := by
        rw [List.filter_filter]
        refine List.filter_congr fun p _ => ?_
        by_cases hp : p = 64
        · rw [hp, decide_eq_true hne, Bool.and_true]
        · rw [decide_eq_false hp, Bool.false_and]
      have hcpu : bcastPorts.filter (fun p => p = 64) = [64] := by
        decide
      have htargets : (w.plain.asic.replicas mcastBcast port.toNat).map Prod.fst =
          bcastPorts.filter fun p => p.toNat ≠ port.toNat := by
        rw [hw.bcasts.replicas, List.map_map]
        exact List.map_id _
      rw [hlookup]
      change ((w.plain.asic.replicas mcastBcast port.toNat).map Prod.fst).filter (fun p => p = 64) = _
      rw [htargets, hports, hcpu]
  · rename_i hdst
    refine List.filter_eq_nil_iff.2 fun p hp heq => ?_
    rcases hw.targets p hp with hfront | ⟨-, haddr⟩
    · rw [of_decide_eq_true heq] at hfront
      exact absurd hfront (by decide)
    · exact hdst haddr

def forCpu (m : Matcher) (w : WholeSwitch) (port : PortId) (pkt : List Bool) : List Bytes :=
  ((w.plain.outputs m port pkt).filter fun c => c.1 = 64).map fun c => packBytes c.2

theorem owed_pass (port : PortId) (pkt : List Bool) : owed r addr (w.pass m port pkt) =
    owed r addr w ++ (forCpu m w port pkt).flatMap (answerTo r addr) := by
  rw [owed, owed, pass, List.flatMap_append, List.append_assoc]
  rfl

/-- A packet from a station is given to the CPU once if it asks for something. -/
theorem Housed.asked_packet (hw : Housed r ihl w) {port : PortId} {ptr : Bytes} (hport : port ∈ frontPanelPorts)
    (hregular : Regular m r ihl w (.packet port ptr)) :
    (forCpu m w port (bitsOf ptr)).flatMap (answerTo r addr) = asked r addr (.packet port ptr) := by
  rw [asked]
  cases hanswer : onComFdData r.toStRepo ptr with
  | none =>
      have hnone : answerTo r addr ptr = [] := by
        rw [answerTo, hanswer]
        exact ite_self []
      rw [hnone, ite_self, List.flatMap_eq_nil_iff]
      intro ptr' hptr'
      obtain ⟨c, hc, rfl⟩ := List.mem_map.1 hptr'
      obtain ⟨hc, h64⟩ := List.mem_filter.1 hc
      have h64 : c.1 = 64 := of_decide_eq_true h64
      cases hx : Wire.IngressParser.start port (bitsOf ptr) with
      | none =>
          rw [PlainSwitch.outputs_eq_nil hx] at hc
          contradiction
      | some x =>
          rcases PlainSwitch.outputs_of_station hw.closed hport hx (hregular x hx).2 c hc with
            ⟨-, hbits⟩ | ⟨hsame, -⟩ | hinside
          · rw [hbits, packBytes_bitsOf, hnone]
          · rw [h64] at hsame
            exact absurd (hsame ▸ hport) (by decide)
          · exact absurd (comesBack_of_inside hinside) (not_comesBack (Or.inr h64))
  | some sent =>
      obtain ⟨-, hroce, -⟩ := onComFdData_eq_some hanswer
      have hfree := hw.free _ (frontPanel_ports port hport).2.2.2.2
      have hcpu : forCpu m w port (bitsOf ptr) =
          ((w.plain.targets port (ethernetOf ptr).dstAddr).filter fun p => p = 64).map fun _ => ptr := by
        rw [forCpu, (PlainSwitch.outputs_of_noRoce hfree hroce hport).2, List.filter_map, List.map_map]
        refine List.map_congr_left fun p _ => ?_
        exact packBytes_bitsOf ptr
      rw [hcpu, hw.targets_cpu hport]
      split
      · rw [List.map_singleton, List.flatMap_singleton]
      · rfl

theorem Housed.forCpu_inside (hw : Housed r ihl w) {port : PortId} {pkt : List Bool}
    (hinside : Inside (mac r) ihl (port, pkt)) : forCpu m w port pkt = [] := by
  rw [forCpu, List.map_eq_nil_iff, List.filter_eq_nil_iff]
  intro c hc h64
  have h64 : c.1 = 64 := of_decide_eq_true h64
  rcases PlainSwitch.outputs_of_inside hw.closed hinside c hc with hinside | ⟨hfront, -⟩
  · exact not_comesBack (Or.inr h64) (comesBack_of_inside hinside)
  · rw [h64] at hfront
    exact absurd hfront (by decide)

theorem Housed.owed_fromCpu (hw : Housed r ihl w) (haddr : addr ≠ mac r) {portId : BitVec 16} {frame : Bytes}
    (hsends : Sends r portId frame) : owed r addr (w.pass m 64 (bitsOf (sendPacket (htons portId ++ frame)))) =
      owed r addr w := by
  have hnone : (forCpu m w 64 (bitsOf (sendPacket (htons portId ++ frame)))).flatMap (answerTo r addr) = [] := by
    rw [List.flatMap_eq_nil_iff]
    intro ptr hptr
    obtain ⟨c, hc, rfl⟩ := List.mem_map.1 hptr
    rw [(hw.ports_sent hsends c (List.mem_filter.1 hc).1).2, packBytes_bitsOf, answerTo, if_neg]
    intro heq
    have hsrc : (ethernetOf frame).srcAddr = mac r := congrArg macOf hsends.src_eq
    exact haddr (heq.symm.trans hsrc)
  rw [owed_pass, hnone, List.append_nil]

theorem take_htons (portId : BitVec 16) (frame : Bytes) :
    (htons portId ++ frame).take 2 = htons portId ∧ (htons portId ++ frame).drop 2 = frame :=
  ⟨List.take_left' rfl, List.drop_left' rfl⟩

theorem switchedTo_eq (portId : BitVec 16) (frame : Bytes) : switchedTo addr (htons portId ++ frame) =
    if portId = 65535 ∧ (ethernetOf frame).dstAddr = addr then [bitsOf frame] else [] := by
  have hport : htons portId = useSwitchingTable ↔ portId = 65535 := by
    refine ⟨fun heq => ?_, fun heq => by rw [heq]; rfl⟩
    have hntohs := congrArg ntohs heq
    rwa [useSwitchingTable, ntohs_htons, ntohs_htons] at hntohs
  rw [switchedTo, (take_htons portId frame).1, (take_htons portId frame).2]
  simp only [hport]

theorem switchedTo_answer (ptr : Bytes) :
    (onComFdData r.toStRepo ptr).toList.flatMap (switchedTo addr) = answerTo r addr ptr := by
  rw [answerTo]
  cases hanswer : onComFdData r.toStRepo ptr with
  | none => exact (ite_self _).symm
  | some sent =>
      obtain ⟨-, -, frame, rfl, hanswers⟩ := onComFdData_eq_some hanswer
      have hdst : (ethernetOf frame).dstAddr = (ethernetOf ptr).srcAddr := congrArg macOf hanswers.dst_eq
      have hsent : switchedTo addr (htons 65535 ++ frame) = _ := switchedTo_eq 65535 frame
      rw [Option.toList_some, List.flatMap_singleton]
      refine hsent.trans ?_
      rw [hdst]
      simp only [true_and, Option.map_some, Option.toList_some]
      rfl

theorem dstAddr_discoveryFrame (r : DiscoveryRepo) (portId : BitVec 16) :
    (ethernetOf (discoveryFrame r portId)).dstAddr = EthSwitch.broadcastMac := by
  have hdst : (ethernetOf (discoveryFrame r portId)).dstAddr = macOf (List.replicate 6 0xff) := by
    rw [ethernetOf, (noRoce_discoveryFrame r portId).2]
  rw [hdst]
  decide +kernel

/-- One copy of an answer leaves at the port of its station. -/
theorem Housed.answered_sent (hw : Housed r ihl w) (ht : PlainSwitch.Knows addr home w.plain)
    (hhome : home ∈ frontPanelPorts) (haddr : addr ≠ EthSwitch.broadcastMac) {portId : BitVec 16} {frame : Bytes}
    (hsends : Sends r portId frame) :
    ((w.leaving m 64 (bitsOf (sendPacket (htons portId ++ frame)))).filter fun c =>
      c.1 = home ∧ (ethernetOf (packBytes c.2)).dstAddr = addr).map Prod.snd =
      switchedTo addr (htons portId ++ frame) := by
  rw [leaving, hw.toSpeaks.outputs_sent hsends, switchedTo_eq, List.filter_filter, List.filter_map, List.map_map]
  by_cases hdst : (ethernetOf frame).dstAddr = addr
  swap
  · have hnot : ¬(portId = 65535 ∧ (ethernetOf frame).dstAddr = addr) := fun h => hdst h.2
    rw [if_neg hnot, List.map_eq_nil_iff, List.filter_eq_nil_iff]
    intro p _ hp
    rw [Function.comp_apply, packBytes_bitsOf, decide_eq_false fun h => hdst h.2, Bool.false_and] at hp
    exact Bool.false_ne_true hp
  have hport : portId = 65535 := by
    refine hsends.port_eq.resolve_right fun ⟨_, hframe⟩ => ?_
    rw [hframe, dstAddr_discoveryFrame] at hdst
    exact haddr hdst.symm
  have hports : (w.plain.targets 64 addr).filter (fun p => p = home) = [home] := by
    have hone : ∀ ports : List PortId, ports.Nodup → home ∈ ports →
        ports.filter (fun p => p = home) = [home] := fun ports hnodup hmem => by
      rw [List.filter_eq, List.count_eq_one_of_mem hnodup hmem]
      rfl
    rw [PlainSwitch.targets]
    cases hlookup : w.plain.asic.switchingTable.lookup addr with
    | none =>
        have hflood : (w.plain.asic.replicas mcastFlood (64 : PortId).toNat).map Prod.fst = frontPanelPorts := by
          rw [hw.floods.replicas, List.map_map]
          decide +kernel
        change ((w.plain.asic.replicas mcastFlood (64 : PortId).toNat).map Prod.fst).filter _ = _
        rw [hflood]
        exact hone _ (by decide) hhome
    | some action =>
        rw [ht.sends action hlookup]
        exact hone [home] (List.nodup_singleton home) (List.mem_singleton_self home)
  have hswitched : portId = 65535 ∧ (ethernetOf frame).dstAddr = addr := ⟨hport, hdst⟩
  have hout : ¬portId ≠ 65535 := fun hne => hne hport
  rw [if_pos hswitched, if_neg hout, hdst]
  have hfilter : (w.plain.targets 64 addr).filter ((fun c : PortId × List Bool =>
      decide (c.1 = home ∧ (ethernetOf (packBytes c.2)).dstAddr = addr) && decide (c.1 ∈ frontPanelPorts)) ∘
        fun p => (p, bitsOf frame)) = (w.plain.targets 64 addr).filter fun p => p = home := by
    refine List.filter_congr fun p _ => ?_
    rw [Function.comp_apply, packBytes_bitsOf]
    by_cases hp : p = home
    · rw [decide_eq_true ⟨hp, hdst⟩, decide_eq_true (hp ▸ hhome), decide_eq_true hp, Bool.and_true]
    · rw [decide_eq_false fun h => hp h.1, decide_eq_false hp, Bool.false_and]
  rw [hfilter, hports]
  rfl

/-- No event loses an answer, adds one, or has it overtake another. -/
theorem Housed.conserves (hw : Housed r ihl w) (ht : PlainSwitch.Knows addr home w.plain)
    (hhome : home ∈ frontPanelPorts) (hbroadcast : addr ≠ EthSwitch.broadcastMac) (haddr : addr ≠ mac r)
    (hstep : Steps m r w e w') (hregular : Regular m r ihl w e) :
    answered m addr home w e ++ owed r addr w' = owed r addr w ++ asked r addr e := by
  obtain ⟨hpossible, hok⟩ := hstep
  cases e with
  | packet port ptr =>
      obtain rfl := Except.ok.inj hok
      rw [owed_pass, hw.asked_packet hpossible hregular]
      rfl
  | looped port pkt =>
      obtain rfl := Except.ok.inj hok
      have hcpu : forCpu m { w with looped := w.looped.erase (port, pkt) } port pkt = [] :=
        hw.forCpu_inside (hw.looped _ hpossible)
      rw [owed_pass, hcpu]
      rfl
  | comFdData =>
      rw [handle] at hok
      change owed r addr w' = owed r addr w ++ []
      rw [List.append_nil, owed, owed]
      cases hcomFd : w.comFd with
      | nil =>
          rw [hcomFd] at hok
          obtain rfl := Except.ok.inj hok
          rw [hcomFd]
      | cons ptr comFd =>
          rw [hcomFd] at hok
          obtain rfl := Except.ok.inj hok
          rw [List.flatMap_append, switchedTo_answer, List.flatMap_cons, List.append_assoc]
  | discoveryProtocolTimer =>
      obtain rfl := Except.ok.inj hok
      have hnone : (onDiscoveryProtocolTimer r).flatMap (switchedTo addr) = [] := by
        rw [List.flatMap_eq_nil_iff]
        intro ptr hptr
        obtain ⟨portId, hport, rfl⟩ := List.mem_map.1 hptr
        rw [switchedTo_eq, if_neg fun h => (front_of_mem_discoveryPorts hport).1 h.1]
      change owed r addr { w with sent := w.sent ++ onDiscoveryProtocolTimer r } = owed r addr w ++ []
      rw [List.append_nil, owed, owed, List.flatMap_append, hnone, List.append_nil]
  | fromCpu =>
      rw [handle] at hok
      change (((w.sent.head?.map fun ptr => w.leaving m 64 (bitsOf (sendPacket ptr))).getD []).filter fun c =>
        c.1 = home ∧ (ethernetOf (packBytes c.2)).dstAddr = addr).map Prod.snd ++ owed r addr w' =
          owed r addr w ++ []
      rw [List.append_nil]
      cases hsent : w.sent with
      | nil =>
          rw [hsent] at hok
          obtain rfl := Except.ok.inj hok
          rfl
      | cons ptr sent =>
          rw [hsent] at hok
          obtain rfl := Except.ok.inj hok
          obtain ⟨⟨portId, frame, rfl, hsends⟩, hrest⟩ := hw.next hsent
          rw [hrest.owed_fromCpu haddr hsends]
          have hanswered := hw.answered_sent (m := m) ht hhome hbroadcast hsends
          rw [List.head?_cons, Option.map_some, Option.getD_some, hanswered, owed, owed, hsent, List.flatMap_cons,
            List.append_assoc]
  | learn learnData =>
      obtain rfl := Except.ok.inj hok
      exact (List.append_nil _).symm
  | idle key =>
      obtain ⟨plain, -, hok⟩ := Fallible.bind_eq_ok.1 hok
      obtain rfl := Except.ok.inj hok
      exact (List.append_nil _).symm
  | notify channels =>
      obtain ⟨plain, -, hok⟩ := Fallible.bind_eq_ok.1 hok
      obtain rfl := Except.ok.inj hok
      exact (List.append_nil _).symm

/-- **Every request is answered.** In every run of the switch in which a station sends from one port only, the
answers that leave at its port, and behind them those that it is still owed, are the answers to what it asked
the collectives module and everyone, in order and each once. -/
theorem run_answers (m : Matcher) {r : DiscoveryRepo} {addr : MacAddr} {home : PortId}
    (hne : mac r ≠ EthSwitch.broadcastMac) (haddr : EthSwitch.Station (mac r) addr)
    (hhome : home ∈ frontPanelPorts) {run : List (Event × WholeSwitch)}
    (hrun : Along (fun w e w' => Steps m r w e w' ∧ Regular m r (fun _ => True) w e ∧ e.At addr home) (start r) run) :
    contributionsOf (answered m addr home) (start r) run ++ owed r addr (finalState (start r) run) =
      contributionsOf (fun _ => asked r addr) (start r) run := by
  have hbroadcast : addr ≠ EthSwitch.broadcastMac := by
    rintro rfl
    exact absurd haddr.1 (by decide)
  exact hrun.conserves (I := fun w => Housed r (fun _ => True) w ∧ PlainSwitch.Knows addr home w.plain)
    (fun w e w' hw hstep => ⟨hw.1.step hstep.1 hstep.2.1, knows_step hw.1 hw.2 hstep.1 hstep.2.1 hstep.2.2⟩)
    (fun w e w' hw hstep => hw.1.conserves hw.2 hhome hbroadcast haddr.2 hstep.1 hstep.2.1)
    ⟨housed_start hne, PlainSwitch.knows_start haddr⟩

/-! ### A session -/

namespace Session

def repo : DiscoveryRepo := ⟨Pings.stRepo, ⟨#v[10, 10, 0, 255]⟩, ⟨#v[10, 10, 0, 254]⟩⟩

def channel : CollectiveChannel where
  tag := 5
  fabricIp := 1
  fabricQpCommon := 1
  fabricMac := mac repo
  aggUnit := 0
  participants := OrderedMap.empty.insert 1 ⟨1, 10, 5, 256, 6, 0⟩

/-- The participant acknowledges a result. -/
def acknowledgement : Bytes :=
  packBytes (Wire.roceHeaders.emit (⟨mac repo, 6, EtherType.ipv4⟩,
    ⟨4, 5, 0, 48, 0, 2, 0, 64, Ipv4Protocol.udp, 0, 10, 1⟩, ⟨49152, 4791, 28, 0⟩,
    ⟨17, 0, 0, 0, 0, 0xffff, 0, 256, 0, 0, 0⟩) ++ RoceAckH.codec.emit ⟨0x1f, 1, 0⟩)

def station : MacAddr := 0x020000000001

def request (data : BitVec 8) : Bytes :=
  (Pings.request (List.replicate 18 data) (by rw [List.length_replicate]; decide)).frame []

/-- The station asks twice, while the participant acknowledges. Both requests are answered before the first
discovery packet. -/
def events : List Event :=
  [.notify [channel], .packet 4 (request 1), .learn [⟨station, 4⟩], .packet 4 (request 2), .comFdData, .fromCpu,
    .packet 0 acknowledgement, .comFdData, .discoveryProtocolTimer, .fromCpu, .fromCpu]

def after (w : WholeSwitch) (e : Event) : WholeSwitch := ((handle Matcher.first repo w e).toOption).getD w

def session : List (Event × WholeSwitch) := runOf after (start repo) events

instance (w : WholeSwitch) : ∀ e, Decidable (Possible w e)
  | .packet port _ => inferInstanceAs (Decidable (port ∈ frontPanelPorts))
  | .looped port pkt => inferInstanceAs (Decidable ((port, pkt) ∈ w.looped))
  | .learn learnData => inferInstanceAs (Decidable (PlainSwitch.Possible w.plain (.learn learnData)))
  | .idle key => inferInstanceAs (Decidable (PlainSwitch.Possible w.plain (.idle key)))
  | .comFdData | .discoveryProtocolTimer | .fromCpu | .notify _ => isTrue trivial

instance (ihl : BitVec 4 → Prop) [DecidablePred ihl] (t : PlainSwitch) (port : PortId) (x : Wire.Parsed) :
    Decidable (PlainSwitch.Regular Matcher.first (mac repo) ihl t port x) :=
  decidable_of_iff (_ ∧ _) ⟨fun h => ⟨h.1, h.2⟩, fun h => ⟨h.ihl, h.addressed⟩⟩

instance (ihl : BitVec 4 → Prop) [DecidablePred ihl] (w : WholeSwitch) :
    ∀ e, Decidable (Regular Matcher.first repo ihl w e)
  | .packet port ptr => inferInstanceAs (Decidable (∀ x ∈ Wire.IngressParser.start port (bitsOf ptr), _ ∧ _))
  | .notify channels => inferInstanceAs (Decidable (∀ rc ∈ knownChannels channels, _ ∧ ∀ p ∈ rc.members, _))
  | .looped .. | .comFdData | .discoveryProtocolTimer | .fromCpu | .learn _ | .idle _ => isTrue trivial

instance (addr : MacAddr) (home : PortId) : ∀ e : Event, Decidable (e.At addr home)
  | .packet port ptr => inferInstanceAs (Decidable (∀ x ∈ Wire.IngressParser.start port (bitsOf ptr), _ → _))
  | .looped .. | .comFdData | .discoveryProtocolTimer | .fromCpu | .learn _ | .idle _ | .notify _ => isTrue trivial

theorem steps_after {w : WholeSwitch} {e : Event}
    (h : Possible w e ∧ (handle Matcher.first repo w e).isOk = true) : Steps Matcher.first repo w e (after w e) := by
  obtain ⟨hpossible, hok⟩ := h
  refine ⟨hpossible, ?_⟩
  cases hhandle : handle Matcher.first repo w e with
  | error message =>
      rw [hhandle] at hok
      contradiction
  | ok w' => rw [after, hhandle, Except.toOption, Option.getD_some]

theorem session_steps : Along (fun w e w' => Steps Matcher.first repo w e w' ∧
    Regular Matcher.first repo (· = 5) w e ∧ e.At station 4) (start repo) session := by
  have hready : Along (fun w e _ => (Possible w e ∧ (handle Matcher.first repo w e).isOk = true) ∧
      Regular Matcher.first repo (· = 5) w e ∧ e.At station 4) (start repo) session := by
    decide +kernel
  exact hready.of_runOf fun _ _ h => ⟨steps_after h.1, h.2⟩

/-- An answer, the acknowledgement, the other answer and a discovery packet leave. -/
theorem session_genuine :
    contributionsOf (fun w e => (w.leaves Matcher.first e).map Prod.fst) (start repo) session = [4, 0, 4, 0] ∧
      Along (fun w e _ => ∀ c ∈ w.leaves Matcher.first e, Genuine repo (· = 5) w c e) (start repo) session :=
  ⟨by decide +kernel, run_genuine Matcher.first (by decide) (· = 5)
    (session_steps.mono fun _ _ _ h => ⟨h.1, h.2.1⟩)⟩

/-- Both requests have been answered. -/
theorem session_answered :
    (contributionsOf (answered Matcher.first station 4) (start repo) session).length = 2 ∧
      contributionsOf (answered Matcher.first station 4) (start repo) session ++
          owed repo station (finalState (start repo) session) =
        contributionsOf (fun _ => asked repo station) (start repo) session :=
  ⟨by decide +kernel, run_answers Matcher.first (by decide) (by decide) (by decide)
    (session_steps.mono fun _ _ _ h => ⟨h.1, h.2.1.anyIhl, h.2.2⟩)⟩

end Session

end WholeSwitch

end Mpitofino
