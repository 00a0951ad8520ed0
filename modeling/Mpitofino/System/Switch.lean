import Mpitofino.Control.Isolation
import Mpitofino.Dataplane.Contributions

/-!
# The switch with the packets inside it

A packet that arrives at a port goes through the ingress pipe of that port; the traffic manager then
drops it, lets it come in again at a recirculation or inter-pipe port, or hands it to the replication
engine. The packets of one programmed channel meet its cells only, and what happens to them is what the
three lemmas at the end say: a participant's packet and one from the other pipe are added, a
recirculated one empties the cell and passes the sum on.

The number `seq` of a packet is not part of it: it is the number of the participants' packets that the
packet stems from, of which the packet carries 24 bits.
-/

namespace Mpitofino

open AsicDriver

structure Packet where
  port : PortId
  frame : Frame
  seq : Nat

/-- A packet that was handed to the replication engine. -/
structure Result where
  seq : Nat
  hdr : Frame
  bridgeHeader : BridgeHeader
  mcastGrp : BitVec 16

structure Switch where
  regs : PipeId → Registers
  inside : List Packet
  results : List Result

/-- The ports whose packets come in again: the recirculation ports and the one from other pipes. -/
def reenters (port : PortId) : Bool := IngressParser.isRecirculationPort port || port = 448

namespace IngressState.Outcome

variable (o : IngressState.Outcome) (seq : Nat)

def reentering : List Packet :=
  match o.dropCtl, o.ucastEgressPort with
  | false, some port => if reenters port then [⟨port, o.hdr, seq⟩] else []
  | _, _ => []

def distributed : List Result :=
  match o.dropCtl, o.mcastGrpA with
  | false, some mcastGrp => [⟨seq, o.hdr, o.bridgeHeader, mcastGrp⟩]
  | _, _ => []

end IngressState.Outcome

namespace Switch

def initial : Switch := ⟨fun _ => Registers.zero, [], []⟩

/-- The ingress pass of a packet, with what the traffic manager does then. -/
def process (m : Matcher) (asic : Asic) (pkt : Packet) (sw : Switch) : Switch :=
  let s := Ingress.apply m { asic with regs := sw.regs } (pipeOf pkt.port) pkt.port pkt.frame
  { regs := Function.update sw.regs (pipeOf pkt.port) s.regs
    inside := sw.inside ++ s.outcome.reentering pkt.seq
    results := sw.results ++ s.outcome.distributed pkt.seq }

end Switch

theorem Switch.process_eq {m : Matcher} {asic : Asic} {pipe : PipeId} {port : PortId} {f : Frame}
    {seq : Nat} {sw : Switch} {regs : Registers} {o : IngressState.Outcome}
    (hpipe : pipeOf port = pipe)
    (hpass : (Ingress.apply m { asic with regs := sw.regs } pipe port f).regs = regs ∧
      (Ingress.apply m { asic with regs := sw.regs } pipe port f).outcome = o) :
    sw.process m asic ⟨port, f, seq⟩ =
      ⟨Function.update sw.regs pipe regs, sw.inside ++ o.reentering seq,
        sw.results ++ o.distributed seq⟩ := by
  obtain ⟨rfl, rfl⟩ := hpass
  subst hpipe
  rfl

/-- A packet of a participant, with a sequence number. -/
structure SentBy (rc : CollectiveChannel) (p : Participant) (seq : Nat) (f : Frame) : Prop where
  isAggregate : f.IsAggregate
  dstMac : f.ethernet.dstAddr = rc.fabricMac
  srcIp : f.ipv4.srcAddr = p.ip
  dstIp : f.ipv4.dstAddr = rc.fabricIp
  dstQp : f.roce.dstQp = p.fabricQp
  psn : f.roce.psn = BitVec.ofNat 24 seq

theorem SentBy.withAggregate {rc : CollectiveChannel} {p : Participant} {seq : Nat} {f : Frame}
    (h : SentBy rc p seq f) (agg : AggregateH) : SentBy rc p seq { f with aggregate := agg } :=
  ⟨⟨h.isAggregate.etherType, h.isAggregate.protocol, h.isAggregate.dstPort, h.isAggregate.length⟩,
    h.dstMac, h.srcIp, h.dstIp, h.dstQp, h.psn⟩

/-- The tables hold what a notification with the channel programs, and its participants have addresses
of their own on front panel ports. -/
structure Serving (channels : List CollectiveChannel) (asic : Asic) (rc : CollectiveChannel) :
    Prop where
  programmed : Programmed channels asic
  separate : Separate channels
  known : rc ∈ knownChannels channels
  nonempty : rc.members ≠ []
  collective : asic.switchingTable.lookup rc.fabricMac = some .collective
  frontPanel : ∀ p ∈ rc.members, p.switchPort ∈ frontPanelPorts
  addresses : (rc.members.map fun p => (p.ip, p.fabricQp)).Nodup

def slotIndex (rc : CollectiveChannel) (seq : Nat) : BitVec 14 :=
  Collectives.cellIndex rc.aggUnit (BitVec.ofNat 24 seq)

theorem slotIndex_eq_iff {rc : CollectiveChannel} {seq seq' : Nat} :
    slotIndex rc seq = slotIndex rc seq' ↔ seq % 256 = seq' % 256 := by
  rw [slotIndex, slotIndex, cellIndex_eq_iff, BitVec.toNat_ofNat, BitVec.toNat_ofNat]
  omega

theorem frontPanel_ports : ∀ port ∈ frontPanelPorts, port ≠ 64 ∧ port ≠ 448 ∧ port ≠ 452 ∧
    IngressParser.isRecirculationPort port = false ∧ (pipeOf port = 0 ∨ pipeOf port = 3) := by
  decide

theorem recircPort_ports : ∀ pipe : PipeId, pipe = 0 ∨ pipe = 3 → recircPort pipe ≠ 64 ∧
    IngressParser.isRecirculationPort (recircPort pipe) = true ∧ pipeOf (recircPort pipe) = pipe := by
  decide

/-- Whether a pipe hands its sum to the other one. -/
def chains (rc : CollectiveChannel) (pipe : PipeId) : Prop := rc.connected = true ∧ pipe ≠ 3

instance (rc : CollectiveChannel) (pipe : PipeId) : Decidable (chains rc pipe) :=
  inferInstanceAs (Decidable (_ ∧ _))

def resultOf (rc : CollectiveChannel) (seq : Nat) (f : Frame) : Result :=
  ⟨seq, f, ⟨rc.aggUnit, ingressIcrc f.aggregate, false⟩, mcastGroup rc.aggUnit⟩

namespace Serving

variable {channels : List CollectiveChannel} {asic : Asic} {rc : CollectiveChannel}
  (h : Serving channels asic rc) (m : Matcher)

include h

/-! ### What the selector answers -/

theorem eq_of_address {p p' : Participant} (hp : p ∈ rc.members) (hp' : p' ∈ rc.members)
    (hip : p'.ip = p.ip) (hqp : p'.fabricQp = p.fabricQp) : p' = p :=
  List.inj_on_of_nodup_map h.addresses hp' hp (by rw [hip, hqp])

theorem nodup_members : rc.members.Nodup := List.Nodup.of_map _ h.addresses

theorem commonOf_dstQp {p : Participant} {seq : Nat} {f : Frame} (hp : p ∈ rc.members)
    (hf : SentBy rc p seq f) : StateRepository.commonOf f.roce.dstQp = rc.fabricQpCommon := by
  rw [hf.dstQp]
  exact h.separate.fabricQps rc h.known p hp

theorem pick_participant {p : Participant} {seq i : Nat} {f : Frame} {pipe : PipeId} {port : PortId}
    (hp : (rc.onPipe pipe)[i]? = some p) (hf : SentBy rc p seq f) (h448 : port ≠ 448)
    (h452 : port ≠ 452) :
    m.unitSelector.pick (asic.pipes pipe).unitSelector (Ingress.query port f) =
      some (selectData rc (NodeBitmap.nodeAt i)) := by
  have hmem : p ∈ rc.members := List.mem_of_mem_filter (List.mem_of_getElem? hp)
  have hwrite : (participantKey rc p, selectData rc (NodeBitmap.nodeAt i)) ∈ selectorWrites rc pipe :=
    List.mem_append_left _ (List.mem_map.2 ⟨(p, i), List.mk_mem_zipIdx_iff_getElem?.2 hp, rfl⟩)
  obtain ⟨d, hd⟩ := exists_pick_unitSelector h.programmed m h.known hwrite
    (q := Ingress.query port f) (hits_participantKey.2 ⟨hf.srcIp, hf.dstIp.symm, hf.dstQp⟩)
  rw [hd]
  obtain ⟨k, hk, hhits⟩ := pick_unitSelector h.programmed h.separate m h.known
    (q := Ingress.query port f) (h.commonOf_dstQp hmem hf) hd
  rcases mem_selectorWrites_cases hk with ⟨i', p', hp', rfl, rfl⟩ | ⟨-, -, ⟨rfl, -⟩ | ⟨rfl, -⟩⟩
  · obtain ⟨hip, -, hqp⟩ := hits_participantKey.1 hhits
    have heq : p' = p := h.eq_of_address hmem
      (List.mem_of_mem_filter (List.mem_of_getElem? hp')) (hip.symm.trans hf.srcIp)
      (hqp.symm.trans hf.dstQp)
    subst heq
    have hnodup : (rc.onPipe pipe).Nodup := h.nodup_members.filter _
    rw [(List.getElem?_inj (List.getElem?_eq_some_iff.1 hp').1 hnodup).1 (hp'.trans hp.symm)]
  · exact absurd (hits_interPipeKey.1 hhits).2.2 h448
  · exact absurd (hits_interPipeKey.1 hhits).2.2 h452

theorem pick_crossing {p : Participant} {seq : Nat} {f : Frame} (hp : p ∈ rc.onPipe 0)
    (hf : SentBy rc p seq f) (hconnected : rc.connected = true) :
    m.unitSelector.pick (asic.pipes 3).unitSelector (Ingress.query 448 f) =
      some (selectData rc (NodeBitmap.nodeAt (rc.count 3))) := by
  have hmem : p ∈ rc.members := List.mem_of_mem_filter hp
  have hcommon := h.commonOf_dstQp hmem hf
  have hwrite : (interPipeKey rc 448, selectData rc (NodeBitmap.nodeAt (rc.count 3))) ∈
      selectorWrites rc 3 := by
    refine List.mem_append_right _ ?_
    rw [if_pos rfl, interPipeSelectorWrites, if_pos hconnected]
    exact List.mem_cons_self
  obtain ⟨d, hd⟩ := exists_pick_unitSelector h.programmed m h.known hwrite
    (q := Ingress.query 448 f) (hits_interPipeKey.2 ⟨hf.dstIp.symm, hcommon, rfl⟩)
  rw [hd]
  obtain ⟨k, hk, hhits⟩ := pick_unitSelector h.programmed h.separate m h.known
    (q := Ingress.query 448 f) hcommon hd
  rcases mem_selectorWrites_cases hk with ⟨i', p', hp', rfl, rfl⟩ | ⟨-, -, ⟨rfl, rfl⟩ | ⟨rfl, -⟩⟩
  · -- no participant of the other pipe has an address of this one
    obtain ⟨hip, -, hqp⟩ := hits_participantKey.1 hhits
    have heq : p' = p := h.eq_of_address hmem
      (List.mem_of_mem_filter (List.mem_of_getElem? hp')) (hip.symm.trans hf.srcIp)
      (hqp.symm.trans hf.dstQp)
    subst heq
    have h0 := List.of_mem_filter hp
    have h3 := List.of_mem_filter (List.mem_of_getElem? hp')
    simp only [decide_eq_true_eq] at h0 h3
    rw [h0] at h3
    contradiction
  · rfl
  · have hport : (448 : PortId) = 452 := (hits_interPipeKey.1 hhits).2.2
    exact absurd hport (by decide)

theorem exists_pick_recirculated {p : Participant} {seq : Nat} {f : Frame} {pipe : PipeId}
    (hp : p ∈ rc.onPipe pipe ∨ pipe = 3 ∧ rc.connected = true ∧ p ∈ rc.members)
    (hf : SentBy rc p seq f) : ∃ d, d.aggUnit = rc.aggUnit ∧
      m.unitSelector.pick (asic.pipes pipe).unitSelector (Ingress.query (recircPort pipe) f) =
        some d := by
  have hmem : p ∈ rc.members := by
    rcases hp with hp | ⟨-, -, hp⟩
    · exact List.mem_of_mem_filter hp
    · exact hp
  have hcommon := h.commonOf_dstQp hmem hf
  obtain ⟨k, d, hwrite, hhits⟩ : ∃ k d, (k, d) ∈ selectorWrites rc pipe ∧
      k.Hits (Ingress.query (recircPort pipe) f) := by
    rcases hp with hp | ⟨rfl, hconnected, -⟩
    · obtain ⟨i, hi⟩ := List.mem_iff_getElem?.1 hp
      exact ⟨participantKey rc p, _,
        List.mem_append_left _ (List.mem_map.2 ⟨(p, i), List.mk_mem_zipIdx_iff_getElem?.2 hi, rfl⟩),
        hits_participantKey.2 ⟨hf.srcIp, hf.dstIp.symm, hf.dstQp⟩⟩
    · refine ⟨interPipeKey rc 452, selectData rc (NodeBitmap.nodeAt (rc.count 3 + 1)),
        List.mem_append_right _ ?_, hits_interPipeKey.2 ⟨hf.dstIp.symm, hcommon, rfl⟩⟩
      rw [if_pos rfl, interPipeSelectorWrites, if_pos hconnected]
      exact List.mem_cons_of_mem _ List.mem_cons_self
  obtain ⟨d', hd'⟩ := exists_pick_unitSelector h.programmed m h.known hwrite hhits
  obtain ⟨k', hk', -⟩ := pick_unitSelector h.programmed h.separate m h.known
    (q := Ingress.query (recircPort pipe) f) hcommon hd'
  exact ⟨d', aggUnit_of_mem_selectorWrites hk', hd'⟩

/-! ### What happens to a packet -/

theorem lookup_switching {p : Participant} {seq : Nat} {f : Frame} (hf : SentBy rc p seq f) :
    asic.switchingTable.lookup f.ethernet.dstAddr = some .collective := by
  rw [hf.dstMac]
  exact h.collective

/-- A packet that is added to a cell goes round if it fills the bitmap. -/
theorem process_add {p : Participant} {seq i : Nat} {f : Frame} {port : PortId} (sw : Switch)
    (hpipe : pipeOf port = 0 ∨ pipeOf port = 3) (hcount : 0 < rc.count (pipeOf port))
    (hport : port ≠ 64) (hrecirc : IngressParser.isRecirculationPort port = false)
    (hf : SentBy rc p seq f)
    (hpick : m.unitSelector.pick (asic.pipes (pipeOf port)).unitSelector (Ingress.query port f) =
      some (selectData rc (NodeBitmap.nodeAt i))) :
    let c := ((sw.regs (pipeOf port)).cell (slotIndex rc seq)).add (NodeBitmap.nodeAt i) f.aggregate
    sw.process m asic ⟨port, f, seq⟩ =
      { regs := Function.update sw.regs (pipeOf port)
          ((sw.regs (pipeOf port)).setCell (slotIndex rc seq) c)
        inside := sw.inside ++
          if c.bitmap = NodeBitmap.fullAt (rc.contributions (pipeOf port)) then
            [⟨recircPort (pipeOf port), { f with aggregate := c.sumsA f.aggregate }, seq⟩]
          else []
        results := sw.results } := by
  intro c
  have hpass := Ingress.apply_add m { asic with regs := sw.regs } (pipeOf port)
    (IngressParser.start_of_isAggregate hf.isAggregate hpipe) hport (h.lookup_switching hf) hpick
    (fun j isClear => lookup_chooseAction h.programmed h.known j isClear) hrecirc
  rw [show Collectives.cellIndex (selectData rc (NodeBitmap.nodeAt i)).aggUnit f.roce.psn =
    slotIndex rc seq by rw [hf.psn]; rfl] at hpass
  rw [Switch.process_eq rfl hpass]
  change Switch.mk _ (sw.inside ++ (Ingress.outcomeOf (m.checkComplete.pick _
    ⟨rc.aggUnit.setWidth 8, c.bitmap, false⟩) _ _).reentering seq) (sw.results ++
    (Ingress.outcomeOf (m.checkComplete.pick _ ⟨rc.aggUnit.setWidth 8, c.bitmap, false⟩) _
      _).distributed seq) = _
  rw [pick_checkComplete_add h.programmed h.separate h.known hcount m c.bitmap]
  by_cases hfull : c.bitmap = NodeBitmap.fullAt (rc.contributions (pipeOf port))
  · have hreenters : reenters (recircPort (pipeOf port)) = true := by
      rw [reenters, (recircPort_ports _ hpipe).2.1, Bool.true_or]
    rw [if_pos hfull, if_pos hfull]
    change Switch.mk _ (sw.inside ++ if reenters (recircPort (pipeOf port)) then _ else []) (sw.results ++ []) = _
    rw [if_pos hreenters, List.append_nil]
    rfl
  · rw [if_neg hfull, if_neg hfull]
    change Switch.mk _ (sw.inside ++ []) (sw.results ++ []) = _
    rw [List.append_nil, List.append_nil]
    rfl

/-- A recirculated packet empties its cell and leaves with the sum. -/
theorem process_clear {p : Participant} {seq : Nat} {f : Frame} {pipe : PipeId} (sw : Switch)
    (hpipe : pipe = 0 ∨ pipe = 3) (hcount : 0 < rc.count pipe)
    (hp : p ∈ rc.onPipe pipe ∨ pipe = 3 ∧ rc.connected = true ∧ p ∈ rc.members)
    (hf : SentBy rc p seq f) :
    let f' := { f with aggregate := ((sw.regs pipe).cell (slotIndex rc seq)).sumsB f.aggregate }
    sw.process m asic ⟨recircPort pipe, f, seq⟩ =
      { regs := Function.update sw.regs pipe
          ((sw.regs pipe).setCell (slotIndex rc seq) Cell.zero)
        inside := sw.inside ++ if chains rc pipe then [⟨448, f', seq⟩] else []
        results := sw.results ++ if chains rc pipe then [] else [resultOf rc seq f'] } := by
  intro f'
  obtain ⟨h64, hrecirc, hpipeOf⟩ := recircPort_ports pipe hpipe
  obtain ⟨d, hunit, hpick⟩ := h.exists_pick_recirculated m hp hf
  have hpass := Ingress.apply_clear m { asic with regs := sw.regs } pipe
    (IngressParser.start_of_isAggregate hf.isAggregate (by rwa [hpipeOf])) h64
    (h.lookup_switching hf) hpick
    (fun j isClear => by
      rw [hunit]
      exact lookup_chooseAction h.programmed h.known j isClear) hrecirc
  rw [hunit, show Collectives.cellIndex rc.aggUnit f.roce.psn = slotIndex rc seq by
    rw [hf.psn]; rfl] at hpass
  dsimp only at hpass
  rw [pick_checkComplete_clear h.programmed h.separate h.known hcount m] at hpass
  rw [Switch.process_eq hpipeOf hpass]
  by_cases hchains : chains rc pipe
  · have haction : clearAction rc.connected rc pipe = .checkCompleteNextPipe 448 := by
      rw [clearAction, if_pos (show rc.connected = true ∧ pipe ≠ 3 from hchains),
        hpipe.resolve_right hchains.2]
      rfl
    rw [if_pos hchains, if_pos hchains, haction]
    change Switch.mk _ _ (sw.results ++ []) = _
    rfl
  · have haction : clearAction rc.connected rc pipe = .checkCompleteDistribute (mcastGroup rc.aggUnit) :=
      if_neg hchains
    rw [if_neg hchains, if_neg hchains, haction]
    change Switch.mk _ (sw.inside ++ []) _ = _
    rfl

end Serving

end Mpitofino
