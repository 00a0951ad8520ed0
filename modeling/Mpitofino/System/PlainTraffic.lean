import Mpitofino.Control.EthSwitch
import Mpitofino.Control.ForeignTraffic
import Mpitofino.System.Switch
import Mpitofino.System.TrafficManager

/-!
# The traffic of the Ethernet switch

The switch with its driver, as a station sees it that has nothing to do with the collectives: packets come
in as bits at any port, the driver learns addresses and forgets them, and the repository notifies it of
channels, in any order. Whatever it has learned so far, a packet to a station comes out where the station is,
once and with the bits it had.
-/

namespace Mpitofino

open AsicDriver

/-- The tables and registers, the table of the known pairs, and the digests that are not learned yet. -/
structure PlainSwitch where
  asic : Asic
  switchingTableSrc : FinTable SwitchingSrcKey EntryTtl
  digests : List EthSwitchDigest

namespace PlainSwitch

/-- A packet comes in, the driver learns some digests, is notified about a learned pair, or is notified of
the channels. -/
inductive Event where
  | packet (port : PortId) (pkt : List Bool)
  | learn (learnData : List EthSwitchDigest)
  | idle (key : SwitchingSrcKey)
  | notify (channels : List CollectiveChannel)

def ethSwitch (t : PlainSwitch) : EthSwitch := ⟨t.asic.switchingTable, t.switchingTableSrc⟩

def withEthSwitch (t : PlainSwitch) (s : EthSwitch) : PlainSwitch :=
  { t with
    asic := { t.asic with switchingTable := s.switchingTable }
    switchingTableSrc := s.switchingTableSrc }

/-- The digest of a packet: of one that goes through the Ethernet switch and whose pair is not known. -/
def digestOf (t : PlainSwitch) (port : PortId) (x : Wire.Parsed) : List EthSwitchDigest :=
  if x.extracted = .recircFanout ∨ Ingress.FromCpu port x.hdr ∨
      t.ethSwitch.Known x.hdr.ethernet.srcAddr port then []
  else [⟨x.hdr.ethernet.srcAddr, port⟩]

section Steps

variable (m : Matcher)

/-- What leaves the switch of a packet; one with a parser error is dropped. -/
def outputs (t : PlainSwitch) (port : PortId) (pkt : List Bool) : List (PortId × List Bool) :=
  match Wire.ingress m t.asic (pipeOf port) port pkt with
  | some (s, out) => Wire.copies t.asic port.toNat s out
  | none => []

def afterPacket (t : PlainSwitch) (port : PortId) (pkt : List Bool) : PlainSwitch :=
  match Wire.IngressParser.start port pkt with
  | some x =>
      { t with
        asic := { t.asic with
          regs := Function.update t.asic.regs (pipeOf port)
            (Ingress.apply m t.asic (pipeOf port) port x.hdr).regs }
        digests := t.digests ++ t.digestOf port x }
  | none => t

def handle (t : PlainSwitch) : Event → Except String PlainSwitch
  | .packet port pkt => .ok (t.afterPacket m port pkt)
  | .learn learnData =>
      .ok { t.withEthSwitch (EthSwitch.ethSwitchLearnCb learnData t.ethSwitch) with
        digests := t.digests.diff learnData }
  | .idle key => do
      let s ← EthSwitch.ethSwitchIdleCb key t.ethSwitch
      return t.withEthSwitch s
  | .notify channels => do
      let asic ← onStRepoChannels channels t.asic
      return { t with asic := asic }

/-- Digests are learned once, and notifications are about learned pairs. -/
def Possible (t : PlainSwitch) : Event → Prop
  | .packet _ _ => True
  | .learn learnData => learnData.Subperm t.digests
  | .idle key => ∃ ttl, t.switchingTableSrc.lookup key = some (some ttl)
  | .notify _ => True

def Steps (t : PlainSwitch) (e : Event) (t' : PlainSwitch) : Prop :=
  Possible t e ∧ handle m t e = .ok t'

end Steps

def start (collectivesMac : MacAddr) : PlainSwitch :=
  ⟨AsicDriver.initialSetup collectivesMac, (EthSwitch.initialSetup collectivesMac).switchingTableSrc, []⟩

/-- A station sends from its port only. -/
def Event.At (addr : MacAddr) (home : PortId) : Event → Prop
  | .packet port pkt => ∀ x ∈ Wire.IngressParser.start port pkt,
      x.hdr.ethernet.srcAddr = addr → port = home
  | _ => True

/-- No known channel has the unit of the packets without one. -/
def Event.Proper : Event → Prop
  | .notify channels => ∀ rc ∈ knownChannels channels, rc.aggUnit ≠ 255
  | _ => True

/-- A packet to a station, from another front-panel port and without a unit, leaves the registers alone, and
the switch once at the port of the station, only on other ports than it came in at, and with its bits. -/
def Delivers (m : Matcher) (addr : MacAddr) (home : PortId) (t : PlainSwitch) : Event → Prop
  | .packet port pkt => ∀ x, Wire.IngressParser.start port pkt = some x → port ∈ frontPanelPorts →
      port ≠ home → x.hdr.ethernet.dstAddr = addr →
      (Ingress.apply m t.asic (pipeOf port) port x.hdr).md.aggHaveUnit = false →
        (t.afterPacket m port pkt).asic.regs = t.asic.regs ∧
        ((t.outputs m port pkt).filter fun c => c.1 = home) = [(home, pkt)] ∧
        ∀ c ∈ t.outputs m port pkt, c.1 ≠ port ∧ c.2 = pkt
  | _ => True

/-! ### The basic groups -/

/-- A group of some ports with a node for each, pruned where the packet comes from. -/
structure Spreads (asic : Asic) (mgid : BitVec 16) (ports : List PortId) (nodeId : PortId → Nat) : Prop where
  group : asic.preMgid.lookup mgid = some (ports.map fun p => ⟨nodeId p, true, p.toNat⟩)
  nodes : ∀ p ∈ ports, asic.preNode.lookup (nodeId p) = some ⟨1, [p]⟩

def floodNode (p : PortId) : Nat := p.toNat

def bcastNode (p : PortId) : Nat := p.toNat ||| 0x200

set_option maxRecDepth 4000 in
theorem spreads_initialSetup (mac : MacAddr) :
    Spreads (AsicDriver.initialSetup mac) mcastFlood frontPanelPorts floodNode ∧
      Spreads (AsicDriver.initialSetup mac) mcastBcast bcastPorts bcastNode := by
  refine ⟨⟨?_, ?_⟩, ?_, ?_⟩
  · change basicGroups.lookup mcastFlood = _
    decide +kernel
  · change ∀ p ∈ frontPanelPorts, basicNodes.lookup (floodNode p) = some ⟨1, [p]⟩
    decide +kernel
  · change basicGroups.lookup mcastBcast = _
    decide +kernel
  · change ∀ p ∈ bcastPorts, basicNodes.lookup (bcastNode p) = some ⟨1, [p]⟩
    decide +kernel

section Spreading

variable {asic asic' : Asic} {mgid : BitVec 16} {ports : List PortId} {nodeId : PortId → Nat}

theorem Spreads.replicas (h : Spreads asic mgid ports nodeId) (xid : Nat) :
    asic.replicas mgid xid = (ports.filter fun p => p.toNat ≠ xid).map fun p => (p, 1) := by
  rw [Asic.replicas, h.group, Option.getD_some, List.flatMap_map]
  have hnodes := h.nodes
  clear h
  induction ports with
  | nil => rfl
  | cons p ports ih =>
      rw [List.flatMap_cons, ih fun q hq => hnodes q (List.mem_cons_of_mem _ hq), List.filter_cons]
      by_cases hp : p.toNat = xid
      · simp [hp]
      · simp [hp, hnodes p List.mem_cons_self]

/-- A notification leaves such a group alone where no channel has it. -/
theorem Spreads.notified {channels : List CollectiveChannel} (h : Spreads asic mgid ports nodeId)
    (hmgid : mgid.toNat < 16) (hnodeId : ∀ p ∈ ports, nodeId p < 0x1000)
    (hnotified : Reconciled channels asic asic') : Spreads asic' mgid ports nodeId := by
  have hgroup : asic'.preMgid.lookup mgid = some (ports.map fun p => ⟨nodeId p, true, p.toNat⟩) := by
    have hnone : FinTable.lastWrite mgid (preMgidTable channels) = none := by
      refine FinTable.lastWrite_eq_none_iff.2 fun hmem => ?_
      obtain ⟨x, hx, heq⟩ := List.mem_map.1 hmem
      obtain ⟨rc, hrc, hx⟩ := List.mem_flatMap.1 hx
      rw [List.mem_singleton.1 hx] at heq
      have hnat := congrArg BitVec.toNat heq
      change (mcastGroup rc.aggUnit).toNat = mgid.toNat at hnat
      rw [mcastGroup_toNat (hnotified.fits rc hrc)] at hnat
      omega
    rw [hnotified.preMgid, hnone, Option.none_or, h.group, Option.filter_some_pos]
    rw [Bool.or_eq_true, decide_eq_true_eq]
    exact Or.inl (BitVec.lt_def.2 hmgid)
  refine ⟨hgroup, fun p hp => ?_⟩
  have hnone : FinTable.lastWrite (nodeId p) (preNodeTable channels) = none := by
    refine FinTable.lastWrite_eq_none_iff.2 fun hmem => ?_
    obtain ⟨x, hx, heq⟩ := List.mem_map.1 hmem
    obtain ⟨rc, -, hx⟩ := List.mem_flatMap.1 hx
    obtain ⟨g, hg, rfl⟩ := List.mem_map.1 hx
    have hle := le_of_mem_groupPorts hg
    have hlt := hnodeId p hp
    change g.1 = nodeId p at heq
    omega
  rw [hnotified.preNode, hnone, Option.none_or, h.nodes p hp, Option.filter_some_pos]
  refine decide_eq_true (List.mem_flatMap.2 ⟨_, asic'.preMgid.mem_entries_iff.2 hgroup, ?_⟩)
  rw [List.map_map]
  exact List.mem_map_of_mem hp

theorem floodNode_lt (p : PortId) : floodNode p < 0x1000 := p.isLt.trans (by decide)

theorem bcastNode_lt (p : PortId) : bcastNode p < 0x1000 :=
  (Nat.or_lt_two_pow (n := 10) (p.isLt.trans (by decide)) (by decide)).trans (by decide)

end Spreading

theorem sentinelFree_of_notified {asic asic' : Asic} {channels : List CollectiveChannel}
    (hnotified : Reconciled channels asic asic') (hunits : ∀ rc ∈ knownChannels channels, rc.aggUnit ≠ 255)
    {pipe : PipeId} (hpipe : pipe = 0 ∨ pipe = 3) : asic'.SentinelFree pipe := by
  have hunused : aggUnitInUse channels (255 : BitVec 8) = false := by
    rw [← Bool.not_eq_true, aggUnitInUse_iff]
    rintro ⟨rc, hrc, heq⟩
    exact hunits rc hrc (BitVec.eq_of_toNat_eq heq)
  have houter : isOuter pipe = true := by
    rcases hpipe with rfl | rfl <;> rfl
  constructor
  · intro j isClear
    rw [hnotified.chooseAction, Option.filter_eq_none_iff]
    intro action _ hinUse
    rw [hunused] at hinUse
    contradiction
  · rintro ⟨k, action⟩ he heq
    rw [FinTable.mem_entries_iff, hnotified.checkComplete] at he
    obtain ⟨-, hinUse⟩ := Option.filter_eq_some_iff.1 he
    dsimp only at heq
    rw [houter, heq, hunused] at hinUse
    contradiction

/-! ### What holds between two events -/

/-- What the switch knows of a station is its port, packets without a unit meet no entries, and the group
for floods is as it was. -/
structure Knows (addr : MacAddr) (home : PortId) (t : PlainSwitch) : Prop where
  sends : ∀ action, t.asic.switchingTable.lookup addr = some action → action = .send home
  digests : ∀ d ∈ t.digests, d.srcMac = addr → d.ingressPort = home
  floods : Spreads t.asic mcastFlood frontPanelPorts floodNode
  free : ∀ pipe, pipe = 0 ∨ pipe = 3 → t.asic.SentinelFree pipe

variable {m : Matcher} {collectivesMac addr : MacAddr} {home : PortId} {t t' : PlainSwitch} {e : Event}

theorem knows_start (haddr : EthSwitch.Station collectivesMac addr) :
    Knows addr home (start collectivesMac) where
  sends action haction := by
    obtain ⟨hgroup, hmac⟩ := haddr
    have hbcast : addr ≠ (0xffffffffffff : MacAddr) := by
      rintro rfl
      contradiction
    change (FinTable.empty.putAll [(0xffffffffffff, .bcast), (collectivesMac, .collective)]).lookup addr =
      some action at haction
    rw [FinTable.putAll_cons, FinTable.putAll_cons, FinTable.putAll_nil, FinTable.lookup_put,
      if_neg hmac, FinTable.lookup_put, if_neg hbcast] at haction
    contradiction
  digests _ hd := by contradiction
  floods := (spreads_initialSetup collectivesMac).1
  free _ _ := ⟨fun _ _ => rfl, fun _ he => by contradiction⟩

theorem lookup_learned {s : EthSwitch} {learnData : List EthSwitchDigest} {P : SwitchingAction → Prop}
    (hs : ∀ action, s.switchingTable.lookup addr = some action → P action)
    (hdigests : ∀ d ∈ learnData, d.srcMac = addr → P (.send d.ingressPort)) :
    ∀ action, (EthSwitch.ethSwitchLearnCb learnData s).switchingTable.lookup addr = some action →
      P action := by
  induction learnData generalizing s with
  | nil => exact hs
  | cons d learnData ih =>
      refine ih (s := s.learn d) (fun action haction => ?_) fun d' hd' =>
        hdigests d' (List.mem_cons_of_mem _ hd')
      change (s.switchingTable.put d.srcMac (.send d.ingressPort)).lookup addr = some action at haction
      rw [FinTable.lookup_put] at haction
      split at haction
      · rename_i heq
        rw [← Option.some.inj haction]
        exact hdigests d List.mem_cons_self heq.symm
      · exact hs action haction

theorem lookup_forgotten {s s' : EthSwitch} {key : SwitchingSrcKey}
    (hs : EthSwitch.ethSwitchIdleCb key s = .ok s') {action : SwitchingAction}
    (haction : s'.switchingTable.lookup addr = some action) : s.switchingTable.lookup addr = some action := by
  rw [(EthSwitch.ethSwitchIdleCb_ok hs).2] at haction
  split at haction
  · contradiction
  · exact haction

theorem Knows.packet (ht : Knows addr home t) {port : PortId} {pkt : List Bool}
    (hat : ∀ x, Wire.IngressParser.start port pkt = some x →
      ∀ d ∈ t.digestOf port x, d.srcMac = addr → d.ingressPort = home) :
    Knows addr home (t.afterPacket m port pkt) := by
  rw [afterPacket]
  cases hx : Wire.IngressParser.start port pkt with
  | none => exact ht
  | some x =>
      refine ⟨ht.sends, fun d hd hsrc => ?_, ⟨ht.floods.group, ht.floods.nodes⟩,
        fun pipe hpipe => ⟨(ht.free pipe hpipe).chooseAction, (ht.free pipe hpipe).checkComplete⟩⟩
      rcases List.mem_append.1 hd with hd | hd
      · exact ht.digests d hd hsrc
      · exact hat x hx d hd hsrc

theorem eq_of_mem_digestOf {port : PortId} {x : Wire.Parsed} {d : EthSwitchDigest}
    (hd : d ∈ t.digestOf port x) : d = ⟨x.hdr.ethernet.srcAddr, port⟩ ∧ x.extracted ≠ .recircFanout ∧
      ¬ t.ethSwitch.Known x.hdr.ethernet.srcAddr port := by
  rw [digestOf] at hd
  split at hd
  · contradiction
  · rename_i hnot
    rw [not_or, not_or] at hnot
    exact ⟨List.mem_singleton.1 hd, hnot.1, hnot.2.2⟩

theorem Knows.step (ht : Knows addr home t) (hstep : Steps m t e t') (hat : e.At addr home)
    (hproper : e.Proper) : Knows addr home t' := by
  obtain ⟨hpossible, hok⟩ := hstep
  cases e with
  | packet port pkt =>
      obtain rfl := Except.ok.inj hok
      refine ht.packet fun x hx d hd hsrc => ?_
      obtain ⟨rfl, -⟩ := eq_of_mem_digestOf hd
      exact hat x hx hsrc
  | learn learnData =>
      obtain rfl := Except.ok.inj hok
      refine ⟨lookup_learned ht.sends fun d hd hsrc => ?_, fun d hd => ?_,
        ⟨ht.floods.group, ht.floods.nodes⟩,
        fun pipe hpipe => ⟨(ht.free pipe hpipe).chooseAction, (ht.free pipe hpipe).checkComplete⟩⟩
      · rw [ht.digests d (hpossible.subset hd) hsrc]
      · exact ht.digests d ((List.diff_subset _ _) hd)
  | idle key =>
      obtain ⟨s, hs, hok⟩ := Fallible.bind_eq_ok.1 hok
      obtain rfl := Except.ok.inj hok
      exact ⟨fun action haction => ht.sends action (lookup_forgotten hs haction), ht.digests,
        ⟨ht.floods.group, ht.floods.nodes⟩,
        fun pipe hpipe => ⟨(ht.free pipe hpipe).chooseAction, (ht.free pipe hpipe).checkComplete⟩⟩
  | notify channels =>
      obtain ⟨asic, hasic, hok⟩ := Fallible.bind_eq_ok.1 hok
      obtain rfl := Except.ok.inj hok
      have hreconciled := onStRepoChannels_ok hasic
      refine ⟨fun action haction => ?_, ht.digests, ht.floods.notified (by decide) (fun p _ => floodNode_lt p) hreconciled,
        fun pipe hpipe => sentinelFree_of_notified hreconciled hproper hpipe⟩
      rw [show asic.switchingTable = t.asic.switchingTable from hreconciled.switchingTable] at haction
      exact ht.sends action haction

/-! ### A packet to the station -/

/-- Neither the collectives nor the CPU have to do with the packet: the Ethernet switch decides. -/
theorem apply_of_plain {asic : Asic} {pipe : PipeId} {port : PortId} {f : Frame}
    (hfree : asic.SentinelFree pipe) (hstart : IngressParser.start port f ≠ .recircFanout)
    (hcpu : ¬ Ingress.FromCpu port f) (hunit : (Ingress.apply m asic pipe port f).md.aggHaveUnit = false)
    (hcoll : (Ingress.switchingTable asic (Ingress.initial asic pipe port f)).md.isColl = false) :
    Ingress.apply m asic pipe port f =
      Ingress.switchingTable asic (Ingress.initial asic pipe port f) := by
  have hextracted : (Ingress.switchingTable asic (Ingress.initial asic pipe port f)).extracted =
      IngressParser.start port f := Ingress.switchingTable_extracted ..
  have hhave : (Ingress.switchingTable asic (Ingress.initial asic pipe port f)).md.aggHaveUnit = false :=
    Ingress.switchingTable_aggHaveUnit ..
  rw [Ingress.forward_eq m asic pipe hcpu, if_neg hstart, Ingress.collect_of_no_unit hfree hstart hunit]
  unfold Ingress.afterSwitching
  rw [hextracted, hhave, hcoll]
  by_cases haggregate : IngressParser.start port f = .aggregate
  · rw [if_pos haggregate, if_neg Bool.false_ne_true]
  · rw [if_neg haggregate, if_neg (by simp), if_neg Bool.false_ne_true]

theorem copies_of_transparent {asic : Asic} {xid : Nat} {s : IngressState} {out pkt : List Bool}
    (hbypass : s.bypassEgress = false)
    (htransparent : ∀ tables egressRid, Wire.egress tables egressRid out = some pkt) :
    Wire.copies asic xid s out = (if s.dropCtl then []
      else (s.ucastEgressPort.map fun port => (port, (0 : BitVec 16))).toList ++
        ((s.mcastGrpA.map fun mgid => asic.replicas mgid xid).getD [])).map fun x => (x.1, pkt) := by
  rw [Wire.copies, hbypass]
  split
  · rfl
  · simp only [Bool.false_eq_true, if_false, htransparent, Option.map_some]
    exact List.filterMap_eq_map ▸ rfl

theorem filter_ports {ports : List PortId} (hnodup : ports.Nodup) (hhome : home ∈ ports) (pkt : List Bool) :
    ((ports.map fun p => (p, pkt)).filter fun c => c.1 = home) = [(home, pkt)] := by
  have hcount : (ports.filter fun p => p = home) = [home] := by
    rw [List.filter_eq, List.count_eq_one_of_mem hnodup hhome]
    rfl
  rw [List.filter_map]
  exact congrArg (List.map fun p => (p, pkt)) hcount

/-- A packet to the station is sent to its port or flooded. -/
theorem Knows.switchingTable_eq (ht : Knows addr home t) (s : IngressState)
    (hdst : s.hdr.ethernet.dstAddr = addr) :
    Ingress.switchingTable t.asic s = { s with ucastEgressPort := some home } ∨
      Ingress.switchingTable t.asic s = { s with mcastGrpA := some mcastFlood } := by
  rw [Ingress.switchingTable, hdst]
  cases hlookup : t.asic.switchingTable.lookup addr with
  | none => exact Or.inr rfl
  | some action =>
      rw [ht.sends action hlookup]
      exact Or.inl rfl

theorem Knows.delivers (ht : Knows addr home t) (hhome : home ∈ frontPanelPorts) (e : Event) :
    Delivers m addr home t e := by
  cases e with
  | packet port pkt =>
      intro x hx hport hne hdst hunit
      obtain ⟨h64, -, -, -, hpipe⟩ := frontPanel_ports port hport
      have hfree := ht.free _ hpipe
      have hstart : IngressParser.start port x.hdr ≠ .recircFanout := by
        have hports : ∀ port ∈ frontPanelPorts, ¬ port &&& 0x180 = 128 ∧ ¬ port &&& 0x180 = 256 := by
          decide
        rw [IngressParser.start, if_neg h64, if_neg (hports port hport).1, if_neg (hports port hport).2,
          IngressParser.parseEthernet, IngressParser.parseIpv4, IngressParser.parseUdp,
          IngressParser.parseRoce]
        split_ifs <;> decide
      have hingress : Wire.ingress m t.asic (pipeOf port) port pkt =
          some (Ingress.apply m t.asic (pipeOf port) port x.hdr,
            Wire.ingressDeparser (Ingress.apply m t.asic (pipeOf port) port x.hdr) x.payload) := by
        rw [Wire.ingress, hx]
        rfl
      have hswitching := ht.switchingTable_eq (Ingress.initial t.asic (pipeOf port) port x.hdr) hdst
      have hcoll : (Ingress.switchingTable t.asic
          (Ingress.initial t.asic (pipeOf port) port x.hdr)).md.isColl = false := by
        rcases hswitching with heq | heq <;> rw [heq] <;> rfl
      have hcpu : ¬ Ingress.FromCpu port x.hdr := fun hcpu => h64 hcpu.1
      have happly := apply_of_plain hfree hstart hcpu hunit hcoll
      have hextracted : (Ingress.apply m t.asic (pipeOf port) port x.hdr).extracted ≠ .recircFanout := by
        rwa [Ingress.apply_extracted]
      have hack : (Ingress.apply m t.asic (pipeOf port) port x.hdr).md.bridgeHeader.isRoceAck = false := by
        rw [happly, Ingress.switchingTable_bridgeHeader]
        rfl
      obtain ⟨hregs, htransparent⟩ := Wire.transparent_of_no_unit hfree hingress hextracted hunit hack
      have hoffload : pkt.drop (Wire.IngressParser.offload port) = pkt := by
        rw [Wire.IngressParser.offload, if_neg h64, List.drop_zero]
      rw [hoffload] at htransparent
      have hbypass : (Ingress.apply m t.asic (pipeOf port) port x.hdr).bypassEgress = false := by
        rw [happly]
        rcases hswitching with heq | heq <;> rw [heq] <;> rfl
      have hdrop : (Ingress.apply m t.asic (pipeOf port) port x.hdr).dropCtl = false := by
        rw [happly]
        rcases hswitching with heq | heq <;> rw [heq] <;> rfl
      have houtputs : t.outputs m port pkt = [(home, pkt)] ∨
          t.outputs m port pkt = (frontPanelPorts.filter fun p => p ≠ port).map fun p => (p, pkt) := by
        rw [outputs, hingress]
        dsimp only
        rw [copies_of_transparent hbypass htransparent, hdrop, if_neg Bool.false_ne_true, happly]
        rcases hswitching with heq | heq
        · rw [heq]
          exact Or.inl rfl
        · right
          rw [heq]
          change ((t.asic.replicas mcastFlood port.toNat).map fun x => (x.1, pkt)) = _
          rw [ht.floods.replicas, List.map_map]
          simp only [ne_eq, BitVec.toNat_inj]
          rfl
      refine ⟨?_, ?_⟩
      · rw [afterPacket, hx]
        dsimp only
        rw [hregs, Function.update_eq_self]
      · have hnodup : frontPanelPorts.Nodup := by decide
        rcases houtputs with heq | heq
        · rw [heq]
          refine ⟨filter_ports (List.nodup_singleton home) (List.mem_singleton_self home) pkt, fun c hc => ?_⟩
          rw [List.mem_singleton.1 hc]
          exact ⟨hne.symm, rfl⟩
        · rw [heq]
          refine ⟨filter_ports (hnodup.filter _) (List.mem_filter.2 ⟨hhome, by simpa using hne.symm⟩) pkt,
            fun c hc => ?_⟩
          obtain ⟨p, hp, rfl⟩ := List.mem_map.1 hc
          exact ⟨by simpa using (List.mem_filter.1 hp).2, rfl⟩
  | learn | idle | notify => trivial

/-- **Plain traffic.** In every run of the switch in which a station sends from one port only, every packet to
it from another front-panel port that is given no unit is delivered: whatever the driver has learned, forgotten
and programmed by then, it comes out at the port of the station, once and with the bits it had. -/
theorem run_delivers (m : Matcher) (haddr : EthSwitch.Station collectivesMac addr)
    (hhome : home ∈ frontPanelPorts) {run : List (Event × PlainSwitch)}
    (hrun : Along (fun t e t' => Steps m t e t' ∧ e.At addr home ∧ e.Proper) (start collectivesMac) run) :
    Along (fun t e _ => Delivers m addr home t e) (start collectivesMac) run :=
  hrun.imp (I := Knows addr home) (fun _ _ _ ht hstep => ht.step hstep.1 hstep.2.1 hstep.2.2)
    (fun _ e _ ht _ => ht.delivers hhome e) (knows_start haddr)

/-! ### Two stations -/

namespace TwoStations

def station : MacAddr := 0x020000000001
def other : MacAddr := 0x020000000002

/-- A packet of a protocol that the parser does not know. -/
def pkt (dstAddr srcAddr : MacAddr) : List Bool :=
  EthernetH.codec.emit ⟨dstAddr, srcAddr, 0x88b5⟩ ++ [true, false]

/-- The station is flooded to, answers, is learned and forgotten. -/
def talks : List Event :=
  [.packet 0 (pkt station other), .packet 4 (pkt other station), .learn [⟨station, 4⟩, ⟨other, 0⟩],
    .notify [], .packet 0 (pkt station other), .idle (EthSwitch.learnedKey station 4),
    .packet 0 (pkt station other)]

def after (t : PlainSwitch) (e : Event) : PlainSwitch := ((handle Matcher.first t e).toOption).getD t

instance (t : PlainSwitch) : ∀ e, Decidable (Possible t e)
  | .packet _ _ => isTrue trivial
  | .learn learnData => inferInstanceAs (Decidable (learnData.Subperm _))
  | .idle key => decidable_of_iff ((t.switchingTableSrc.lookup key).join.isSome = true) (by
      rw [Option.isSome_iff_exists]
      exact exists_congr fun ttl => Option.join_eq_some_iff)
  | .notify _ => isTrue trivial

instance (addr : MacAddr) (home : PortId) : ∀ e : Event, Decidable (e.At addr home)
  | .packet port pkt => inferInstanceAs (Decidable (∀ x ∈ Wire.IngressParser.start port pkt, _ → _))
  | .learn _ | .idle _ | .notify _ => isTrue trivial

instance : ∀ e : Event, Decidable e.Proper
  | .packet _ _ | .learn _ | .idle _ => isTrue trivial
  | .notify channels => inferInstanceAs (Decidable (∀ rc ∈ knownChannels channels, _))

theorem steps_after {t : PlainSwitch} {e : Event}
    (h : Possible t e ∧ (handle Matcher.first t e).isOk = true) : Steps Matcher.first t e (after t e) := by
  obtain ⟨hpossible, hok⟩ := h
  refine ⟨hpossible, ?_⟩
  cases hhandle : handle Matcher.first t e with
  | error message =>
      rw [hhandle] at hok
      contradiction
  | ok t' => rw [after, hhandle, Except.toOption, Option.getD_some]

theorem talks_delivered :
    Along (fun t e _ => Delivers Matcher.first station 4 t e) (start 0x400) (runOf after (start 0x400) talks) := by
  have hpossible : Along (fun t e _ => (Possible t e ∧ (handle Matcher.first t e).isOk = true) ∧
      e.At station 4 ∧ e.Proper) (start 0x400) (runOf after (start 0x400) talks) := by
    decide +kernel
  exact run_delivers Matcher.first (by decide) (by decide)
    (hpossible.of_runOf fun _ _ h => ⟨steps_after h.1, h.2⟩)

end TwoStations

end PlainSwitch

end Mpitofino
