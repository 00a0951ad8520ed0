import Mpitofino.System.CpuPort

/-!
# Traffic behind the front panel

Packets with a unit go to ports that loop back into the switch, and nowhere else: they come in again at a
recirculation port, or as copies with their ICRC in front of them at a fan-out port, from where they leave.
So whatever else the tables of the collectives hold, what comes out at a front-panel port or at that of the
CPU went through the Ethernet switch, was reflected, or is a copy of a result.
-/

namespace Mpitofino

open AsicDriver

/-! ### Where the collectives send packets -/

/-- The recirculation ports, and the port to pipe 3. -/
def loopPorts : List PortId := [68, 448, 452]

def CheckCompleteAction.Inner : CheckCompleteAction → Prop
  | .checkCompleteTrue port => port ∈ loopPorts
  | .checkCompleteNextPipe port => port ∈ loopPorts
  | .checkCompleteDistribute mcastGrp => 0x10 ≤ mcastGrp.toNat

/-- The port is looped back to a front-panel port. -/
def FansOut (port : PortId) : Prop := ∃ q ∈ frontPanelPorts, fanoutPort q = some port

/-- The tables keep packets with a unit inside. -/
structure Inward (asic : Asic) : Prop where
  units : ∀ pipe, ∀ e ∈ (asic.pipes pipe).unitSelector.entries, e.2.aggUnit ≠ 65535
  actions : ∀ pipe, ∀ e ∈ (asic.pipes pipe).checkComplete.entries, e.2.Inner
  members : ∀ g members, asic.preMgid.lookup g = some members → 0x10 ≤ g.toNat →
    ∀ member ∈ members, 0x1000 ≤ member.nodeId
  nodes : ∀ n node, asic.preNode.lookup n = some node → 0x1000 ≤ n → ∀ port ∈ node.devPort, FansOut port

section Tables

variable {asic asic' : Asic} {channels : List CollectiveChannel}

theorem lt_of_lookup_basicNodes {n : Nat} {node : PreNode} (h : basicNodes.lookup n = some node) :
    n < 0x1000 := by
  rw [basicNodes, FinTable.lookup_putAll, FinTable.lookup_empty, Option.or_none] at h
  rcases List.mem_append.1 (FinTable.mem_of_lastWrite h) with hmem | hmem
  · obtain ⟨p, -, heq⟩ := List.mem_map.1 hmem
    obtain rfl : p.toNat = n := congrArg Prod.fst heq
    exact PlainSwitch.floodNode_lt p
  · obtain ⟨p, -, heq⟩ := List.mem_map.1 hmem
    obtain rfl : p.toNat ||| 0x200 = n := congrArg Prod.fst heq
    exact PlainSwitch.bcastNode_lt p

theorem lt_of_lookup_preNode {mac : MacAddr} {n : Nat} {node : PreNode}
    (h : (AsicDriver.initialSetup mac).preNode.lookup n = some node) : n < 0x1000 := by
  have hnodes : (AsicDriver.initialSetup mac).preNode = basicNodes := by rw [AsicDriver.initialSetup]
  rw [hnodes] at h
  exact lt_of_lookup_basicNodes h

theorem inward_initialSetup (mac : MacAddr) : Inward (AsicDriver.initialSetup mac) where
  units _ _ he := by contradiction
  actions _ _ he := by contradiction
  members g members h hle := by
    have hlt := BitVec.lt_def.1 (lt_of_lookup_basicGroups h)
    change g.toNat < 16 at hlt
    omega
  nodes _ _ h hle := absurd hle (Nat.not_le.2 (lt_of_lookup_preNode h))

theorem inner_of_mem_completeWrites {rc : CollectiveChannel} (hfits : Fits rc) {pipe : PipeId}
    {e : CheckCompleteKey × CheckCompleteAction} (h : e ∈ completeWrites rc pipe) : e.2.Inner := by
  rw [completeWrites] at h
  split at h
  · contradiction
  · rename_i hcount
    have hpipe : pipe = 0 ∨ pipe = 3 := by
      by_contra hne
      rw [not_or] at hne
      exact hcount (count_eq_zero_of_ports hfits.ports hne.1 hne.2)
    have hgroup : (CheckCompleteAction.checkCompleteDistribute (mcastGroup rc.aggUnit)).Inner := by
      change 16 ≤ _
      rw [mcastGroup_toNat hfits]
      omega
    simp only [List.mem_cons, List.not_mem_nil, or_false] at h
    rcases h with rfl | rfl
    · rcases hpipe with rfl | rfl
      · exact (by decide : (68 : PortId) ∈ loopPorts)
      · exact (by decide : (452 : PortId) ∈ loopPorts)
    · change (clearAction rc.connected rc pipe).Inner
      rw [clearAction]
      split
      · rename_i hnext
        obtain rfl := hpipe.resolve_right hnext.2
        exact (by decide : (448 : PortId) ∈ loopPorts)
      · exact hgroup

/-- A notification about participants at front-panel ports leaves the tables so. -/
theorem Inward.notified (h : Inward asic) (hnotified : Reconciled channels asic asic')
    (hports : ∀ rc ∈ knownChannels channels, ∀ p ∈ rc.members, p.switchPort ∈ frontPanelPorts) :
    Inward asic' where
  units pipe e he := by
    obtain ⟨k, d⟩ := e
    rw [FinTable.mem_entries_iff, hnotified.unitSelector] at he
    obtain ⟨he, -⟩ := Option.filter_eq_some_iff.1 he
    rcases Option.or_eq_some_iff.1 he with hwrite | ⟨-, hold⟩
    · obtain ⟨rc, hrc, hwrite⟩ := List.mem_flatMap.1 (FinTable.mem_of_lastWrite hwrite)
      have hlt := (hnotified.fits rc hrc).aggUnit_lt
      have hunit : d.aggUnit = rc.aggUnit := aggUnit_of_mem_selectorWrites hwrite
      rintro heq
      rw [← hunit] at hlt
      change d.aggUnit = 65535 at heq
      rw [heq] at hlt
      exact absurd hlt (by decide)
    · exact h.units pipe (k, d) ((FinTable.mem_entries_iff _).2 hold)
  actions pipe e he := by
    obtain ⟨k, action⟩ := e
    rw [FinTable.mem_entries_iff, hnotified.checkComplete] at he
    obtain ⟨he, -⟩ := Option.filter_eq_some_iff.1 he
    rcases Option.or_eq_some_iff.1 he with hwrite | ⟨-, hold⟩
    · obtain ⟨rc, hrc, hwrite⟩ := List.mem_flatMap.1 (FinTable.mem_of_lastWrite hwrite)
      exact inner_of_mem_completeWrites (hnotified.fits rc hrc) hwrite
    · exact h.actions pipe (k, action) ((FinTable.mem_entries_iff _).2 hold)
  members g members hlookup hle member hmember := by
    rw [hnotified.preMgid] at hlookup
    obtain ⟨hlookup, -⟩ := Option.filter_eq_some_iff.1 hlookup
    rcases Option.or_eq_some_iff.1 hlookup with hwrite | ⟨-, hold⟩
    · obtain ⟨rc, -, hwrite⟩ := List.mem_flatMap.1 (FinTable.mem_of_lastWrite hwrite)
      obtain ⟨-, rfl⟩ := Prod.mk.inj (List.mem_singleton.1 hwrite)
      obtain ⟨x, hx, rfl⟩ := List.mem_map.1 hmember
      exact le_of_mem_groupPorts hx
    · exact h.members g members hold hle member hmember
  nodes n node hlookup hle port hport := by
    rw [hnotified.preNode] at hlookup
    obtain ⟨hlookup, -⟩ := Option.filter_eq_some_iff.1 hlookup
    rcases Option.or_eq_some_iff.1 hlookup with hwrite | ⟨-, hold⟩
    · obtain ⟨rc, hrc, hwrite⟩ := List.mem_flatMap.1 (FinTable.mem_of_lastWrite hwrite)
      obtain ⟨g, hg, heq⟩ := List.mem_map.1 hwrite
      obtain ⟨-, rfl⟩ := Prod.mk.inj heq
      obtain rfl := List.mem_singleton.1 hport
      rw [groupPorts_eq (hnotified.fits rc hrc).ports] at hg
      obtain ⟨y, hy, rfl⟩ := List.mem_map.1 hg
      have hmem : y.1 ∈ rc.members := List.fst_mem_of_mem_zipIdx hy
      obtain ⟨fanout, hfanout, -⟩ := adapt_fanoutPort _ ((hnotified.fits rc hrc).ports y.1 hmem)
      exact ⟨_, hports rc hrc y.1 hmem, by rw [hfanout]; rfl⟩
    · exact h.nodes n node hold hle port hport

theorem Inward.replicas (h : Inward asic) {g : BitVec 16} (hg : 0x10 ≤ g.toNat) (xid : Nat) :
    ∀ c ∈ asic.replicas g xid, FansOut c.1 := by
  intro c hc
  rw [Asic.replicas] at hc
  cases hgroup : asic.preMgid.lookup g with
  | none =>
      rw [hgroup] at hc
      contradiction
  | some members =>
      rw [hgroup, Option.getD_some] at hc
      obtain ⟨member, hmember, hc⟩ := List.mem_flatMap.1 hc
      split at hc
      · contradiction
      · split at hc
        · rename_i node hnode
          obtain ⟨port, hport, rfl⟩ := List.mem_map.1 hc
          exact h.nodes _ node hnode (h.members g members hgroup hg member hmember) port hport
        · contradiction

end Tables

/-! ### A pass of a packet with an aggregate header -/

namespace Ingress

variable {m : Matcher} {asic : Asic} {pipe : PipeId} {port : PortId} {f : Frame}

theorem exists_act_of_pick {s : IngressState} {d : SelectAggUnit}
    (hpick : m.unitSelector.pick (asic.pipes pipe).unitSelector
      (Collectives.unitSelectorQuery s.hdr s.md.ingressPort) = some d) :
    ∃ a regs md words, (∀ action, a = some action → ∃ k, (k, action) ∈ (asic.pipes pipe).checkComplete.entries) ∧
      Collectives.apply m asic pipe s = { Collectives.act a (Collectives.selectAggUnit d s) with
        regs := regs, md := md, hdr := { s.hdr with aggregate := words } } := by
  have hbitmaps : ∃ regs md, Collectives.tblUpdateBitmapHigh (Collectives.tblUpdateBitmapLow
      (Collectives.unitSelector m asic pipe s)) =
      { Collectives.selectAggUnit d s with regs := regs, md := md } := by
    have hframe : ∀ g : IngressState → Extracted × Frame × Bool × Option PortId × Option (BitVec 16) × Bool,
        (∀ (s : IngressState) regs bitmap,
          g { s with regs := regs, md := { s.md with nodeBitmap := bitmap } } = g s) →
        g (Collectives.tblUpdateBitmapHigh (Collectives.tblUpdateBitmapLow
          (Collectives.unitSelector m asic pipe s))) = g (Collectives.unitSelector m asic pipe s) := fun g hg => by
      rw [Collectives.tblUpdateBitmapHigh_frame _ hg, Collectives.tblUpdateBitmapLow_frame _ hg]
    have hkept := hframe (fun s => (s.extracted, s.hdr, s.dropCtl, s.ucastEgressPort, s.mcastGrpA, s.bypassEgress))
      fun _ _ _ => rfl
    generalize Collectives.tblUpdateBitmapHigh _ = s' at hkept ⊢
    rw [Collectives.unitSelector, hpick] at hkept
    obtain ⟨extracted, hdr, md, regs, dropCtl, ucastEgressPort, mcastGrpA, bypassEgress⟩ := s'
    simp only [Prod.mk.injEq] at hkept
    obtain ⟨rfl, rfl, rfl, rfl, rfl, rfl⟩ := hkept
    exact ⟨regs, md, rfl⟩
  obtain ⟨regs, md, hbitmaps⟩ := hbitmaps
  obtain ⟨a, ha⟩ : ∃ a, a = m.checkComplete.pick (asic.pipes pipe).checkComplete
      (Collectives.checkCompleteQuery md) := ⟨_, rfl⟩
  have happly : Collectives.apply m asic pipe s = Collectives.aggregationUnits asic
      { Collectives.act a (Collectives.selectAggUnit d s) with regs := regs, md := md } := by
    rw [Collectives.apply, hbitmaps, Collectives.checkComplete_eq_act, Collectives.act_with, ha]
  have hhdr : (Collectives.act a (Collectives.selectAggUnit d s)).hdr = s.hdr := Collectives.act_hdr ..
  refine ⟨a, (Collectives.apply m asic pipe s).regs, md, (Collectives.apply m asic pipe s).hdr.aggregate,
    fun action haction => ?_, ?_⟩
  · obtain ⟨k, hk, -⟩ := m.checkComplete.hit_of_pick (ha.symm.trans haction)
    exact ⟨k, hk⟩
  · rw [happly, ← hhdr]
    rfl

/-- What the collectives unit does to a packet with a unit, whatever the tables of the aggregation units
hold. -/
theorem outcome_of_unit (haggregate : IngressParser.start port f = .aggregate) (hcpu : port ≠ 64)
    (hswitch : asic.switchingTable.lookup f.ethernet.dstAddr = some .collective)
    (hunit : (apply m asic pipe port f).md.aggHaveUnit = true) :
    ∃ d a words, (∃ k, (k, d) ∈ (asic.pipes pipe).unitSelector.entries) ∧
      (∀ action, a = some action → ∃ k, (k, action) ∈ (asic.pipes pipe).checkComplete.entries) ∧
      (apply m asic pipe port f).outcome = outcomeOf a d.aggUnit { f with aggregate := words } := by
  rw [apply_of_aggregate m asic pipe haggregate] at hunit ⊢
  have hextracted := Collectives.apply_extracted m asic pipe (initial asic pipe port f)
  have hoffload := Collectives.apply_cpoffload m asic pipe (initial asic pipe port f)
  have hbridge := Collectives.apply_bridgeHeader m asic pipe (initial asic pipe port f)
  have hhave := Collectives.apply_aggHaveUnit m asic pipe (initial asic pipe port f)
  rw [(forward_kept asic pipe _).2.2, hhave] at hunit
  rw [Collectives.unitSelector] at hunit hbridge hhave
  cases hpick : m.unitSelector.pick (asic.pipes pipe).unitSelector (Collectives.unitSelectorQuery
      (initial asic pipe port f).hdr (initial asic pipe port f).md.ingressPort) with
  | none =>
      rw [hpick] at hunit
      contradiction
  | some d =>
      rw [hpick] at hbridge hhave
      obtain ⟨k, hk, -⟩ := m.unitSelector.hit_of_pick hpick
      obtain ⟨a, regs, md, words, ha, happly⟩ := exists_act_of_pick hpick
      have hdst : (Collectives.apply m asic pipe (initial asic pipe port f)).hdr.ethernet.dstAddr =
          f.ethernet.dstAddr := by
        rw [happly]
        rfl
      refine ⟨d, a, words, ⟨k, hk⟩, ha, ?_⟩
      rw [forward_outcome asic pipe (d := d) (hoffload.trans (if_neg hcpu)) (hextracted.trans haggregate)
        (hhave.trans rfl) hbridge (by rw [hdst, hswitch]), happly]
      rcases a with _ | (_ | _ | _) <;> rfl

theorem start_of_unit (hunit : (apply m asic pipe port f).md.aggHaveUnit = true) :
    IngressParser.start port f = .aggregate := by
  rw [apply_eq_forward, (forward_kept asic pipe _).2.2, collect] at hunit
  by_contra haggregate
  have hextracted : (initial asic pipe port f).extracted ≠ .aggregate := haggregate
  rw [if_neg hextracted] at hunit
  split at hunit
  · exact Bool.false_ne_true hunit
  · exact Bool.false_ne_true hunit

end Ingress

/-! ### The bits of RoCE packets -/

/-- The headers of a RoCE packet whose IPv4 header has a length of some kind. -/
structure RoceHeaders (ihl : BitVec 4 → Prop) (ethernet : EthernetH) (ipv4 : Ipv4H) (udp : UdpH) : Prop where
  etherType : ethernet.etherType = EtherType.ipv4
  protocol : ipv4.protocol = Ipv4Protocol.udp
  dstPort : udp.dstPort = 4791
  ihl : ihl ipv4.ihl

/-- The bits of such a packet. -/
def RoceBits (ihl : BitVec 4 → Prop) (pkt : List Bool) : Prop :=
  ∃ ethernet ipv4 udp rest, RoceHeaders ihl ethernet ipv4 udp ∧ pkt = EthernetH.codec.emit ethernet ++
    (Ipv4H.codec.emit ipv4 ++ (UdpH.codec.emit udp ++ rest))

/-- The bits of a packet for the collectives unit that is addressed to it. -/
def CollectiveBits (mac : MacAddr) (ihl : BitVec 4 → Prop) (pkt : List Bool) : Prop :=
  ∃ x, Wire.IngressParser.parseEthernet Frame.blank pkt = some x ∧ x.extracted = .aggregate ∧
    x.hdr.ethernet.dstAddr = mac ∧ ihl x.hdr.ipv4.ihl

/-- What is under way inside: packets for the collectives unit, and copies of results. -/
inductive Inside (mac : MacAddr) (ihl : BitVec 4 → Prop) : PortId × List Bool → Prop
  | collective {port : PortId} {pkt : List Bool} (hport : port ∈ loopPorts)
      (hpkt : CollectiveBits mac ihl pkt) : Inside mac ihl (port, pkt)
  | result {port : PortId} {pkt : List Bool} (hport : FansOut port) (icrc : BitVec 32)
      (hpkt : RoceBits ihl pkt) : Inside mac ihl (port, (Codec.bits 32).emit icrc ++ pkt)

section Bits

variable {ihl : BitVec 4 → Prop} {mac : MacAddr} {f : Frame} {pkt : List Bool}

theorem roceBits_of_headers {ethernet : EthernetH} {ipv4 : Ipv4H} {udp : UdpH}
    (h : RoceHeaders ihl ethernet ipv4 udp) (roce : RoceH) (rest : List Bool) :
    RoceBits ihl (Wire.roceHeaders.emit (ethernet, ipv4, udp, roce) ++ rest) := by
  refine ⟨ethernet, ipv4, udp, RoceH.codec.emit roce ++ rest, h, ?_⟩
  simp only [Wire.roceHeaders, Codec.prod, List.append_assoc]

theorem RoceHeaders.checksummed {ethernet : EthernetH} {ipv4 : Ipv4H} {udp : UdpH}
    (h : RoceHeaders ihl ethernet ipv4 udp) : RoceHeaders ihl ethernet ipv4.checksummed udp := by
  rw [Ipv4H.checksummed]
  exact ⟨h.etherType, h.protocol, h.dstPort, h.ihl⟩

theorem roceHeaders_of_parseEthernet (h : IngressParser.parseEthernet f = .roce ∨
    IngressParser.parseEthernet f = .aggregate) (hihl : ihl f.ipv4.ihl) :
    RoceHeaders ihl f.ethernet f.ipv4 f.udp := by
  have hheaders : f.ethernet.etherType = EtherType.ipv4 ∧ f.ipv4.protocol = Ipv4Protocol.udp ∧
      f.udp.dstPort = 4791 := by
    rw [IngressParser.parseEthernet, IngressParser.parseIpv4, IngressParser.parseUdp] at h
    split_ifs at h with hetherType hprotocol hdstPort
    · exact ⟨hetherType, hprotocol, hdstPort⟩
    all_goals simp at h
  exact ⟨hheaders.1, hheaders.2.1, hheaders.2.2, hihl⟩

theorem isAggregate_of_parseEthernet (h : IngressParser.parseEthernet f = .aggregate) : f.IsAggregate := by
  obtain ⟨hetherType, hprotocol, hdstPort, -⟩ := @roceHeaders_of_parseEthernet (fun _ => True) f (Or.inr h) trivial
  refine ⟨hetherType, hprotocol, hdstPort, ?_⟩
  rw [IngressParser.parseEthernet, if_pos hetherType, IngressParser.parseIpv4, if_pos hprotocol,
    IngressParser.parseUdp, if_pos hdstPort, IngressParser.parseRoce] at h
  split_ifs at h with hroce hlength
  exact hlength

theorem collectiveBits_of_headers (hf : f.IsAggregate) (hdst : f.ethernet.dstAddr = mac)
    (hihl : ihl f.ipv4.ihl) (payload : List Bool) :
    CollectiveBits mac ihl (Wire.ingressHeaders f .aggregate ++ payload) :=
  ⟨_, Wire.parseEthernet_headers hf payload, rfl, hdst, hihl⟩

end Bits

/-! ### Egress pipes -/

namespace Egress

variable {ihl : BitVec 4 → Prop} {bridge : BridgeHeader} {f : Frame}

theorem roceHeaders_apply (tables : PipeTables) (egressRid : BitVec 16)
    (hparse : EgressParser.parse bridge = .roce) (hf : RoceHeaders ihl f.ethernet f.ipv4 f.udp) :
    RoceHeaders ihl (apply tables bridge egressRid f).ethernet (apply tables bridge egressRid f).ipv4
        (apply tables bridge egressRid f).udp ∧
      ∃ icrc, (apply tables bridge egressRid f).recircFanout = some icrc := by
  rw [apply, hparse]
  dsimp only
  refine ⟨?_, _, rfl⟩
  obtain ⟨hetherType, hprotocol, hdstPort, hihl⟩ := hf
  rw [CollectivesDistributor.apply]
  cases tables.outputAddress.lookup ⟨bridge.aggUnit, egressRid⟩ with
  | none => exact ⟨hetherType, hprotocol, hdstPort, hihl⟩
  | some d => exact ⟨hetherType, hprotocol, rfl, hihl⟩

end Egress

/-- A copy of a RoCE packet with a unit leaves the egress pipe with its ICRC in front of it. -/
theorem exists_egress_of_unit {ihl : BitVec 4 → Prop} (tables : PipeTables) (egressRid : BitVec 16)
    {bridge : BridgeHeader} (hunit : bridge.aggUnit ≠ 65535) {f : Frame}
    (hf : RoceHeaders ihl f.ethernet f.ipv4 f.udp) (pad : BitVec 7) (rest : List Bool) : ∃ icrc bits,
      Wire.egress tables egressRid (BridgeHeader.codec.emit (bridge, pad) ++
        (Wire.roceHeaders.emit (f.ethernet, f.ipv4, f.udp, f.roce) ++ rest)) =
        some ((Codec.bits 32).emit icrc ++ bits) ∧ RoceBits ihl bits := by
  have hparse : EgressParser.parse bridge = .roce := by
    rw [EgressParser.parse, if_neg hunit]
  obtain ⟨hcopy, icrc, hicrc⟩ := Egress.roceHeaders_apply tables egressRid hparse hf
  have hegress := Wire.egress_of_headers tables egressRid hunit pad f rest
  generalize Egress.apply tables bridge egressRid f = g at hcopy hicrc hegress
  rw [Wire.recircFanoutBits, hicrc] at hegress
  exact ⟨icrc, _, hegress, roceBits_of_headers hcopy.checksummed g.roce rest⟩

/-! ### Passes -/

section Passes

variable {m : Matcher} {asic : Asic} {mac : MacAddr} {ihl : BitVec 4 → Prop} {port : PortId}
  {pkt : List Bool} {xid : Nat}

theorem inside_of_outcome (hinward : Inward asic) {s : IngressState} {a : Option CheckCompleteAction}
    {aggUnit : BitVec 16} (hunit : aggUnit ≠ 65535) (ha : ∀ action, a = some action → action.Inner)
    {f : Frame} (hf : f.IsAggregate) (hdst : f.ethernet.dstAddr = mac) (hihl : ihl f.ipv4.ihl)
    (hextracted : s.extracted = .aggregate) (houtcome : s.outcome = Ingress.outcomeOf a aggUnit f)
    (payload : List Bool) :
    ∀ c ∈ Wire.copies asic xid s (Wire.ingressDeparser s payload), Inside mac ihl c := by
  have hhdr : s.hdr = f := congrArg IngressState.Outcome.hdr houtcome
  have hbridge : s.md.bridgeHeader = ⟨aggUnit, ingressIcrc f.aggregate, false⟩ :=
    congrArg IngressState.Outcome.bridgeHeader houtcome
  have hdrop : s.dropCtl = a.isNone := congrArg IngressState.Outcome.dropCtl houtcome
  have hucast := congrArg IngressState.Outcome.ucastEgressPort houtcome
  have hmcast := congrArg IngressState.Outcome.mcastGrpA houtcome
  have hbypass := congrArg IngressState.Outcome.bypassEgress houtcome
  change s.ucastEgressPort = _ at hucast
  change s.mcastGrpA = _ at hmcast
  change s.bypassEgress = _ at hbypass
  have hroce : RoceHeaders ihl f.ethernet f.ipv4 f.udp := ⟨hf.etherType, hf.protocol, hf.dstPort, hihl⟩
  rw [Wire.copies, Wire.ingressDeparser, Wire.bridgeBits, hextracted, hhdr, hdrop, hucast, hmcast, hbypass,
    hbridge]
  have hlooped : ∀ port ∈ loopPorts, ∀ c ∈ [(port, Wire.ingressHeaders f .aggregate ++ payload)],
      Inside mac ihl c := fun port hport => List.forall_mem_singleton.2
    (.collective hport (collectiveBits_of_headers hf hdst hihl payload))
  rcases a with _ | (port | port | mcastGrp)
  case none => exact fun c hc => absurd hc List.not_mem_nil
  case some.checkCompleteTrue => exact hlooped port (ha _ rfl)
  case some.checkCompleteNextPipe => exact hlooped port (ha _ rfl)
  case some.checkCompleteDistribute =>
      intro c hc
      obtain ⟨x, hx, hc⟩ := List.mem_filterMap.1 hc
      obtain ⟨icrc, bits, hegress, hbits⟩ := @exists_egress_of_unit ihl (asic.pipes (pipeOf x.1)) x.2
        ⟨aggUnit, ingressIcrc f.aggregate, false⟩ hunit f hroce 0 (AggregateH.codec.emit f.aggregate ++ payload)
      have hheaders : Wire.roceHeaders.emit (f.ethernet, f.ipv4, f.udp, f.roce) ++
          (AggregateH.codec.emit f.aggregate ++ payload) = Wire.ingressHeaders f .aggregate ++ payload := by
        simp only [Wire.ingressHeaders, List.append_assoc]
      rw [hheaders] at hegress
      simp only [Ingress.outcomeOf, Bool.false_eq_true, if_false, hegress, Option.map_some,
        Option.some.injEq] at hc
      rw [← hc]
      exact .result (hinward.replicas (ha _ rfl) xid x hx) icrc hbits

end Passes

namespace PlainSwitch

variable {m : Matcher} {t : PlainSwitch} {mac : MacAddr} {ihl : BitVec 4 → Prop} {port : PortId}
  {pkt : List Bool} {x : Wire.Parsed}

theorem outputs_eq (hx : Wire.IngressParser.start port pkt = some x) : t.outputs m port pkt =
    Wire.copies t.asic port.toNat (Ingress.apply m t.asic (pipeOf port) port x.hdr)
      (Wire.ingressDeparser (Ingress.apply m t.asic (pipeOf port) port x.hdr) x.payload) := by
  rw [outputs, Wire.ingress, hx]
  rfl

theorem outputs_eq_nil (hx : Wire.IngressParser.start port pkt = none) : t.outputs m port pkt = [] := by
  rw [outputs, Wire.ingress, hx]
  rfl

theorem parseEthernet_of_ne {f : Frame} (h : IngressParser.start port f ≠ .recircFanout) :
    IngressParser.start port f = IngressParser.parseEthernet f := by
  rw [IngressParser.start] at h ⊢
  split_ifs at h ⊢ <;> first | rfl | contradiction

/-- A packet with a unit that is addressed to the module stays inside. -/
theorem inside_of_unit (hinward : Inward t.asic) (h64 : port ≠ 64)
    (hx : Wire.IngressParser.start port pkt = some x) (hextracted : x.extracted = .aggregate)
    (hswitch : t.asic.switchingTable.lookup mac = some .collective) (hdst : x.hdr.ethernet.dstAddr = mac)
    (hihl : ihl x.hdr.ipv4.ihl)
    (hunit : (Ingress.apply m t.asic (pipeOf port) port x.hdr).md.aggHaveUnit = true) :
    ∀ c ∈ t.outputs m port pkt, Inside mac ihl c := by
  have hstart : IngressParser.start port x.hdr = .aggregate :=
    (Wire.IngressParser.start_eq_some hx).1.symm.trans hextracted
  have hparse : IngressParser.parseEthernet x.hdr = .aggregate := by
    rw [← parseEthernet_of_ne (by rw [hstart]; decide), hstart]
  obtain ⟨hetherType, hprotocol, hdstPort, hlength⟩ := isAggregate_of_parseEthernet hparse
  obtain ⟨d, a, words, ⟨k, hk⟩, ha, houtcome⟩ := @Ingress.outcome_of_unit m t.asic (pipeOf port) port
    x.hdr hstart h64 (by rw [hdst, hswitch]) hunit
  rw [outputs_eq hx]
  refine inside_of_outcome hinward (hinward.units _ _ hk) (fun action haction => ?_)
    (f := { x.hdr with aggregate := words }) ⟨hetherType, hprotocol, hdstPort, hlength⟩ hdst hihl
    ((Ingress.apply_extracted ..).trans hstart) houtcome x.payload
  obtain ⟨k, hk⟩ := ha action haction
  exact hinward.actions _ _ hk

theorem roceHeaders_of_parseRecircFanout {icrc : BitVec 32} (hpkt : RoceBits ihl pkt)
    (h : Wire.IngressParser.parseRecircFanout Frame.blank ((Codec.bits 32).emit icrc ++ pkt) = some x) :
    x.extracted = .recircFanout ∧ RoceHeaders ihl x.hdr.ethernet x.hdr.ipv4 x.hdr.udp := by
  obtain ⟨⟨⟨icrc', ⟨⟨ethernet, ipv4, udp, roce⟩, aggregate⟩, icrc''⟩, payload⟩, hextract, rfl⟩ :=
    Option.map_eq_some_iff.1 h
  obtain ⟨ethernet', ipv4', udp', rest, hroce, rfl⟩ := hpkt
  have hbits := (Codec.extract_eq_some _).1 hextract
  simp only [Codec.prod, Wire.recircFanoutPayload, Wire.roceHeaders, List.append_assoc] at hbits
  obtain ⟨-, hbits⟩ := Codec.emit_append_inj _ hbits
  obtain ⟨hethernet, hbits⟩ := Codec.emit_append_inj _ hbits
  obtain ⟨hipv4, hbits⟩ := Codec.emit_append_inj _ hbits
  obtain ⟨hudp, -⟩ := Codec.emit_append_inj _ hbits
  rw [hethernet, hipv4, hudp] at hroce
  exact ⟨rfl, hroce⟩

theorem adapt_of_fansOut (hport : FansOut port) :
    ∃ port' ∈ frontPanelPorts, Ingress.adaptRecircFanoutPort port = some port' := by
  obtain ⟨port', hfront, hfanout⟩ := hport
  obtain ⟨fanout, heq, hadapt, -⟩ := adapt_fanoutPort port' (frontPanel_ports port' hfront).2.2.2.2
  rw [Option.some.inj (heq.symm.trans hfanout)] at hadapt
  exact ⟨port', hfront, hadapt⟩

/-- A copy of a result leaves at the port that it is fanned out to. -/
theorem outputs_of_result (hport : FansOut port) {icrc : BitVec 32} (hpkt : RoceBits ihl pkt) :
    ∀ c ∈ t.outputs m port ((Codec.bits 32).emit icrc ++ pkt),
      c.1 ∈ frontPanelPorts ∧ RoceBits ihl c.2 := by
  obtain ⟨port', hfront, hadapt⟩ := adapt_of_fansOut hport
  cases hx : Wire.IngressParser.start port ((Codec.bits 32).emit icrc ++ pkt) with
  | none =>
      rw [outputs_eq_nil hx]
      exact fun c hc => absurd hc List.not_mem_nil
  | some x =>
      obtain ⟨h64, hstart⟩ := Ingress.start_of_fanOut hadapt x.hdr
      have hrecirc : Wire.IngressParser.parseRecircFanout Frame.blank ((Codec.bits 32).emit icrc ++ pkt) =
          some x := by
        rw [← hx, Wire.IngressParser.start, if_neg h64]
        rw [Ingress.adaptRecircFanoutPort] at hadapt
        split_ifs at hadapt ⊢ <;> rfl
      obtain ⟨hextracted, hroce⟩ := roceHeaders_of_parseRecircFanout hpkt hrecirc
      have hucast : (Ingress.adaptRecircFanoutPort port).or none = some port' := by
        rw [hadapt]
        rfl
      rw [outputs_eq hx, Ingress.apply_of_fanOut m t.asic _ hadapt]
      simp only [Wire.copies, Ingress.recircFanout, Ingress.initial, IngressParser.metadata, hucast, hstart,
        Wire.ingressDeparser, Wire.bridgeBits, Wire.ingressHeaders, Wire.recircFanoutBits]
      intro c hc
      have hc : c = (port', Wire.recircFanoutPayload.emit
          ((x.hdr.ethernet, x.hdr.ipv4, x.hdr.udp, x.hdr.roce), x.hdr.aggregate) ++
            (Codec.bits 32).emit (x.hdr.recircFanout.getD x.hdr.icrc) ++ x.payload) := by
        simpa using hc
      rw [hc]
      refine ⟨hfront, ?_⟩
      simp only [Wire.recircFanoutPayload, Codec.prod, List.append_assoc]
      exact roceBits_of_headers hroce x.hdr.roce _

theorem roceBits_of_roceAck {tables : PipeTables} {egressRid : BitVec 16} {bridge : BridgeHeader}
    (hunit : bridge.aggUnit = 65535) (hack : bridge.isRoceAck = true) {pad : BitVec 7} {ethernet : EthernetH}
    {ipv4 : Ipv4H} {udp : UdpH} {roce : RoceH} {rest bits : List Bool}
    (hroce : RoceHeaders ihl ethernet ipv4 udp)
    (h : Wire.egress tables egressRid (BridgeHeader.codec.emit (bridge, pad) ++
      (Wire.roceHeaders.emit (ethernet, ipv4, udp, roce) ++ rest)) = some bits) : RoceBits ihl bits := by
  have hparse : EgressParser.parse bridge = .roceAck := by
    rw [EgressParser.parse, if_pos hunit, if_pos hack]
  obtain ⟨ack, rest', hrest⟩ : ∃ ack rest', rest = RoceAckH.codec.emit ack ++ rest' := by
    rw [Wire.egress, Codec.extract_emit_append, Option.bind_some] at h
    dsimp only at h
    rw [Wire.EgressParser.start, hparse] at h
    obtain ⟨y, hy, -⟩ := Option.map_eq_some_iff.1 h
    obtain ⟨⟨⟨headers, ack⟩, rest'⟩, hextract, -⟩ := Option.map_eq_some_iff.1 hy
    have hbits := (Codec.extract_eq_some _).1 hextract
    simp only [Codec.prod, List.append_assoc] at hbits
    exact ⟨ack, rest', (Codec.emit_append_inj Wire.roceHeaders hbits).2⟩
  rw [hrest, Wire.egress_of_roceAck tables egressRid hunit hack] at h
  rw [← Option.some.inj h]
  exact roceBits_of_headers hroce.checksummed roce _

theorem copies_of_roceAck {asic : Asic} {xid : Nat} {s : IngressState} (hdrop : s.dropCtl = false)
    (hucast : s.ucastEgressPort = some port) (hmcast : s.mcastGrpA = none) (hbypass : s.bypassEgress = false)
    (hextracted : s.extracted = .roce) (hunit : s.md.bridgeHeader.aggUnit = 65535)
    (hack : s.md.bridgeHeader.isRoceAck = true) (hroce : RoceHeaders ihl s.hdr.ethernet s.hdr.ipv4 s.hdr.udp)
    (payload : List Bool) :
    ∀ c ∈ Wire.copies asic xid s (Wire.ingressDeparser s payload), c.1 = port ∧ RoceBits ihl c.2 := by
  rw [Wire.copies, hdrop, hucast, hmcast, hbypass, Wire.ingressDeparser, Wire.bridgeBits, hbypass, hextracted]
  intro c hc
  obtain ⟨y, hy, hc⟩ := List.mem_filterMap.1 hc
  obtain rfl : y = (port, 0) := List.mem_singleton.1 hy
  obtain ⟨bits, hbits, rfl⟩ := Option.map_eq_some_iff.1 hc
  exact ⟨rfl, roceBits_of_roceAck hunit hack hroce hbits⟩

/-- An acknowledgement that is reflected leaves where it came in. -/
theorem outputs_of_reflected (hx : Wire.IngressParser.start port pkt = some x) (hihl : ihl x.hdr.ipv4.ihl)
    (hack : (Ingress.apply m t.asic (pipeOf port) port x.hdr).md.bridgeHeader.isRoceAck = true) :
    ∀ c ∈ t.outputs m port pkt, c.1 = port ∧ RoceBits ihl c.2 := by
  obtain ⟨hstart, -, hswitch, dstQp, -, happly⟩ := Ingress.apply_of_reflected hack
  have hroce : RoceHeaders ihl x.hdr.ethernet x.hdr.ipv4 x.hdr.udp := by
    refine roceHeaders_of_parseEthernet (Or.inl ?_) hihl
    rw [← parseEthernet_of_ne (by rw [hstart]; decide), hstart]
  have hswitching : Ingress.switchingTable t.asic (Ingress.initial t.asic (pipeOf port) port x.hdr) =
      { Ingress.initial t.asic (pipeOf port) port x.hdr with
        md := { (Ingress.initial t.asic (pipeOf port) port x.hdr).md with isColl := true } } := by
    have hlookup : t.asic.switchingTable.lookup
        (Ingress.initial t.asic (pipeOf port) port x.hdr).hdr.ethernet.dstAddr = some .collective := hswitch
    rw [Ingress.switchingTable, hlookup]
    rfl
  rw [outputs_eq hx, happly, hswitching]
  exact copies_of_roceAck rfl rfl rfl rfl hstart rfl rfl
    ⟨hroce.etherType, hroce.protocol, hroce.dstPort, hroce.ihl⟩ x.payload

theorem switched_of_not_reflected {asic : Asic} {pipe : PipeId} {s : IngressState}
    (hunit : s.md.aggHaveUnit = false)
    (hack : (Ingress.afterSwitching asic pipe s).md.bridgeHeader.isRoceAck = false) :
    Ingress.afterSwitching asic pipe s = s ∨ s.md.isColl = true ∧ s.extracted ≠ .aggregate ∧
      Ingress.afterSwitching asic pipe s = { s with ucastEgressPort := some 64 } := by
  unfold Ingress.afterSwitching at hack ⊢
  by_cases haggregate : s.extracted = .aggregate
  · rw [if_pos haggregate, hunit]
    exact Or.inl rfl
  rw [if_neg haggregate] at hack ⊢
  by_cases hreflects : (s.md.isColl && s.extracted = .roce && s.hdr.roce.opcode = 17) = true
  · rw [if_pos hreflects] at hack ⊢
    rw [Ingress.roceAckReflector] at hack ⊢
    cases hlookup : (asic.pipes pipe).roceAckReflector.lookup ⟨s.hdr.ipv4.srcAddr, s.hdr.roce.dstQp⟩ with
    | none => exact Or.inl rfl
    | some dstQp =>
        rw [hlookup] at hack
        contradiction
  · rw [if_neg hreflects]
    split
    · rename_i hcoll
      exact Or.inr ⟨hcoll, haggregate, rfl⟩
    · exact Or.inl rfl

theorem outputs_of_transparent (hfree : t.asic.SentinelFree (pipeOf port)) (h64 : port ≠ 64)
    (hx : Wire.IngressParser.start port pkt = some x) (hextracted : x.extracted ≠ .recircFanout)
    (hunit : (Ingress.apply m t.asic (pipeOf port) port x.hdr).md.aggHaveUnit = false)
    (hack : (Ingress.apply m t.asic (pipeOf port) port x.hdr).md.bridgeHeader.isRoceAck = false) :
    ∀ c ∈ t.outputs m port pkt, c.1 ∈ t.targets port x.hdr.ethernet.dstAddr ∧ c.2 = pkt ∧
      (x.extracted = .aggregate →
        t.asic.switchingTable.lookup x.hdr.ethernet.dstAddr ≠ some .collective) := by
  have hstart : x.extracted = IngressParser.start port x.hdr := (Wire.IngressParser.start_eq_some hx).1
  rw [hstart] at hextracted
  have hcpu : ¬ Ingress.FromCpu port x.hdr := fun hcpu => h64 hcpu.1
  have hingress : Wire.ingress m t.asic (pipeOf port) port pkt =
      some (Ingress.apply m t.asic (pipeOf port) port x.hdr,
        Wire.ingressDeparser (Ingress.apply m t.asic (pipeOf port) port x.hdr) x.payload) := by
    rw [Wire.ingress, hx]
    rfl
  obtain ⟨-, htransparent⟩ := Wire.transparent_of_no_unit hfree hingress
    (by rwa [Ingress.apply_extracted]) hunit hack
  have hoffload : pkt.drop (Wire.IngressParser.offload port) = pkt := by
    rw [Wire.IngressParser.offload, if_neg h64, List.drop_zero]
  rw [hoffload] at htransparent
  have hbypass : (Ingress.apply m t.asic (pipeOf port) port x.hdr).bypassEgress = false := by
    rw [Ingress.apply_eq_forward, Ingress.collect_of_no_unit hfree hextracted hunit]
    exact (Ingress.forward_kept ..).2.1
  have hinitial : (Ingress.switchingTable t.asic (Ingress.initial t.asic (pipeOf port) port x.hdr)).extracted =
      IngressParser.start port x.hdr := Ingress.switchingTable_extracted ..
  have hhave : (Ingress.switchingTable t.asic
      (Ingress.initial t.asic (pipeOf port) port x.hdr)).md.aggHaveUnit = false :=
    Ingress.switchingTable_aggHaveUnit ..
  have happly : Ingress.apply m t.asic (pipeOf port) port x.hdr = Ingress.afterSwitching t.asic (pipeOf port)
      (Ingress.switchingTable t.asic (Ingress.initial t.asic (pipeOf port) port x.hdr)) := by
    rw [Ingress.forward_eq m t.asic (pipeOf port) hcpu, if_neg hextracted,
      Ingress.collect_of_no_unit hfree hextracted hunit]
  have hswitched := switched_of_not_reflected hhave (happly ▸ hack)
  rw [← happly, hinitial] at hswitched
  rw [outputs_eq hx, copies_of_transparent hbypass htransparent, hstart]
  intro c hc
  obtain ⟨y, hy, rfl⟩ := List.mem_map.1 hc
  suffices hports : y.1 ∈ t.targets port x.hdr.ethernet.dstAddr ∧ (IngressParser.start port x.hdr = .aggregate →
      t.asic.switchingTable.lookup x.hdr.ethernet.dstAddr ≠ some .collective) from
    ⟨hports.1, rfl, hports.2⟩
  have hdst : (Ingress.initial t.asic (pipeOf port) port x.hdr).hdr.ethernet.dstAddr = x.hdr.ethernet.dstAddr := rfl
  rcases hswitched with heq | ⟨hcoll, haggregate, heq⟩
  · rw [heq, Ingress.switchingTable, hdst] at hy
    rw [targets]
    cases hlookup : t.asic.switchingTable.lookup x.hdr.ethernet.dstAddr with
    | none =>
        rw [hlookup] at hy
        exact ⟨List.mem_map_of_mem (f := Prod.fst) hy, fun _ => by simp⟩
    | some action =>
        rw [hlookup] at hy
        cases action with
        | send | flood | bcast => exact ⟨List.mem_map_of_mem (f := Prod.fst) hy, fun _ => by simp⟩
        | drop | collective => exact absurd hy List.not_mem_nil
  · have hlookup := Ingress.lookup_of_isColl rfl hcoll
    rw [hdst] at hlookup
    have hlookup' : t.asic.switchingTable.lookup
        (Ingress.initial t.asic (pipeOf port) port x.hdr).hdr.ethernet.dstAddr = some .collective := hlookup
    rw [heq, Ingress.switchingTable, hlookup'] at hy
    rw [targets, hlookup]
    exact ⟨List.mem_map_of_mem (f := Prod.fst) hy, fun h => absurd h (hinitial ▸ haggregate)⟩

structure Closed (mac : MacAddr) (t : PlainSwitch) : Prop where
  inward : Inward t.asic
  free : ∀ pipe, pipe = 0 ∨ pipe = 3 → t.asic.SentinelFree pipe
  collective : t.asic.switchingTable.lookup mac = some .collective

/-- A packet from a station: if it is a RoCE packet its IPv4 header has a length of the kind, and if it is
given a unit it is addressed to the module. -/
structure Regular (m : Matcher) (mac : MacAddr) (ihl : BitVec 4 → Prop) (t : PlainSwitch) (port : PortId)
    (x : Wire.Parsed) : Prop where
  ihl : x.extracted = .roce ∨ x.extracted = .aggregate → ihl x.hdr.ipv4.ihl
  addressed : (Ingress.apply m t.asic (pipeOf port) port x.hdr).md.aggHaveUnit = true →
    x.hdr.ethernet.dstAddr = mac

/-- What becomes of a packet from a station. -/
theorem outputs_of_station (ht : Closed mac t) (hport : port ∈ frontPanelPorts)
    (hx : Wire.IngressParser.start port pkt = some x) (hregular : Regular m mac ihl t port x) :
    ∀ c ∈ t.outputs m port pkt, c.1 ∈ t.targets port x.hdr.ethernet.dstAddr ∧ c.2 = pkt ∨
      c.1 = port ∧ RoceBits ihl c.2 ∨ Inside mac ihl c := by
  obtain ⟨h64, -, -, -, hpipe⟩ := frontPanel_ports port hport
  have hstart : x.extracted = IngressParser.start port x.hdr := (Wire.IngressParser.start_eq_some hx).1
  have hfront : IngressParser.start port x.hdr ≠ .recircFanout := by
    have hports : ∀ port ∈ frontPanelPorts, ¬ port &&& 0x180 = 128 ∧ ¬ port &&& 0x180 = 256 := by
      decide
    rw [IngressParser.start, if_neg h64, if_neg (hports port hport).1, if_neg (hports port hport).2,
      IngressParser.parseEthernet, IngressParser.parseIpv4, IngressParser.parseUdp, IngressParser.parseRoce]
    split_ifs <;> decide
  intro c hc
  by_cases hunit : (Ingress.apply m t.asic (pipeOf port) port x.hdr).md.aggHaveUnit = true
  · have hextracted : x.extracted = .aggregate := hstart.trans (Ingress.start_of_unit hunit)
    exact Or.inr (Or.inr (inside_of_unit ht.inward h64 hx hextracted ht.collective (hregular.addressed hunit)
      (hregular.ihl (Or.inr hextracted)) hunit c hc))
  rw [Bool.not_eq_true] at hunit
  by_cases hack : (Ingress.apply m t.asic (pipeOf port) port x.hdr).md.bridgeHeader.isRoceAck = true
  · have hextracted : x.extracted = .roce := hstart.trans (Ingress.apply_of_reflected hack).1
    exact Or.inr (Or.inl (outputs_of_reflected hx (hregular.ihl (Or.inl hextracted)) hack c hc))
  · rw [Bool.not_eq_true] at hack
    obtain ⟨htarget, hbits, -⟩ := outputs_of_transparent (ht.free _ hpipe) h64 hx (hstart ▸ hfront) hunit hack c hc
    exact Or.inl ⟨htarget, hbits⟩

/-- What is under way inside stays there or leaves as a result. -/
theorem outputs_of_inside (ht : Closed mac t) (hinside : Inside mac ihl (port, pkt)) :
    ∀ c ∈ t.outputs m port pkt, Inside mac ihl c ∨ c.1 ∈ frontPanelPorts ∧ RoceBits ihl c.2 := by
  cases hinside with
  | result hport icrc hpkt => exact fun c hc => Or.inr (outputs_of_result hport hpkt c hc)
  | collective hport hpkt =>
      obtain ⟨x, hparse, hextracted, hdst, hihl⟩ := hpkt
      have hports : ∀ port ∈ loopPorts, port ≠ 64 ∧ ¬ port &&& 0x180 = 128 ∧ ¬ port &&& 0x180 = 256 ∧
          (pipeOf port = 0 ∨ pipeOf port = 3) := by
        decide
      obtain ⟨h64, h128, h256, hpipe⟩ := hports port hport
      have hx : Wire.IngressParser.start port pkt = some x := by
        rw [Wire.IngressParser.start, if_neg h64, if_neg h128, if_neg h256, hparse]
      intro c hc
      by_cases hunit : (Ingress.apply m t.asic (pipeOf port) port x.hdr).md.aggHaveUnit = true
      · exact Or.inl (inside_of_unit ht.inward h64 hx hextracted ht.collective hdst hihl hunit c hc)
      · rw [Bool.not_eq_true] at hunit
        have hack : (Ingress.apply m t.asic (pipeOf port) port x.hdr).md.bridgeHeader.isRoceAck = false := by
          rw [← Bool.not_eq_true]
          intro hack
          have hroce := (Ingress.apply_of_reflected hack).1
          rw [← (Wire.IngressParser.start_eq_some hx).1, hextracted] at hroce
          exact Extracted.noConfusion hroce
        obtain ⟨-, -, hcollective⟩ := outputs_of_transparent (ht.free _ hpipe) h64 hx
          (by rw [hextracted]; decide) hunit hack c hc
        exact absurd (hdst ▸ ht.collective) (hcollective hextracted)

end PlainSwitch

end Mpitofino
