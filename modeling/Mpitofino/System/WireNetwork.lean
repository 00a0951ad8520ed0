import Mpitofino.Library.SharedLink
import Mpitofino.System.Sequence
import Mpitofino.System.TrafficManager

/-!
# The network in bits

The network around the switch as its links carry it: packets are bits, a link belongs to a port, and what a
packet is for stands in its headers only. A packet goes through the parsers, the controls and the deparsers
of both pipes; it comes in again if the traffic manager sent it to a recirculation port, to the other pipe or
to a port of an inner pipe, and leaves the switch otherwise.

Every step of it is one of the network of frames.
-/

namespace Mpitofino

open AsicDriver
open StateRepository (WellFormed)

/-- The ports whose packets come in again: those that `reenters` has, and those of the inner pipes. -/
def comesBack (port : PortId) : Bool := reenters port || (Ingress.adaptRecircFanoutPort port).isSome

/-- The registers of the switch, the packets inside it by the ports they come in at, the packets that the
participants sent and those of them on their links, and by their ports the packets on the links back and
those that were received. -/
structure WireNetwork where
  regs : PipeId → Registers
  inside : List (PortId × List Bool)
  packets : Participant → List (List Bool)
  uplink : Participant → List (List Bool)
  downlink : PortId → List (List Bool)
  received : PortId → List (List Bool)

inductive WireEvent where
  | send (p : Participant) (pkt : List Bool)
  | arrive (p : Participant)
  | internal (k : Nat)
  | receive (port : PortId)

namespace WireNetwork

def start : WireNetwork :=
  ⟨fun _ => Registers.zero, [], fun _ => [], fun _ => [], fun _ => [], fun _ => []⟩

/-- The addresses and the queue pair that a packet is for. -/
def addressee (pkt : List Bool) : Option (MacAddr × IPv4Addr × IbQp) :=
  (Wire.roceHeaders.extract pkt).map fun x => (x.1.1.dstAddr, x.1.2.1.dstAddr, x.1.2.2.2.dstQp)

def receivedBy (w : WireNetwork) (p : Participant) : List (List Bool) :=
  (w.received p.switchPort).filter fun pkt => addressee pkt = some (p.mac, p.ip, p.localQp)

def words (pkt : List Bool) : AggregateH :=
  (((Wire.roceHeaders.prod AggregateH.codec).extract pkt).map fun x => x.1.2).getD 0

def form (pkt : List Bool) : Option (BitVec 8 × BitVec 16 × BitVec 16) :=
  (Wire.roceHeaders.extract pkt).map fun x => (x.1.2.2.2.opcode, x.1.2.1.totalLength, x.1.2.2.1.length)

/-- A packet with the number `k` is the sum of the packets with this number: it has the opcode and the
lengths of one of them, and its checksum and its ICRC are right. -/
structure IsResult (rc : CollectiveChannel) (w : WireNetwork) (k : Nat) (f : Frame) : Prop where
  psn : f.roce.psn = BitVec.ofNat 24 k
  sent : ∀ q ∈ rc.members, k < (w.packets q).length
  words : f.aggregate = (rc.members.map fun q => ((w.packets q)[k]?.map words).getD 0).sum
  form : ∃ q ∈ rc.members, (w.packets q)[k]?.bind form = some f.form
  checksum : f.ipv4.ChecksumValid
  icrc : f.icrc = referenceIcrc f.ipv4 f.udp f.roce (payloadBytes f.aggregate)

/-- Nothing leaves the switch but packets for the participants, on their ports, and each of them receives
the results in order. -/
structure Results (rc : CollectiveChannel) (w : WireNetwork) : Prop where
  addressed : ∀ port, ∀ pkt ∈ w.received port ++ w.downlink port, ∃ p ∈ rc.members,
    p.switchPort = port ∧ addressee pkt = some (p.mac, p.ip, p.localQp)
  results : ∀ p ∈ rc.members, ∀ k pkt, (w.receivedBy p)[k]? = some pkt →
    ∃ f tail, pkt = f.wire ++ tail ∧ IsResult rc w k f

section Steps

variable (m : Matcher) (asic : Asic) (rc : CollectiveChannel)

def pass (w : WireNetwork) (x : PortId × List Bool) : WireNetwork :=
  match Wire.ingress m { asic with regs := w.regs } (pipeOf x.1) x.1 x.2 with
  | some (s, out) =>
      let outputs := Wire.copies asic x.1.toNat s out
      { w with
        regs := Function.update w.regs (pipeOf x.1) s.regs
        inside := w.inside ++ outputs.filter fun y => comesBack y.1
        downlink := fun port => w.downlink port ++
          ((outputs.filter fun y => !comesBack y.1).filter fun y => y.1 = port).map Prod.snd }
  | none => w

/-- Nothing is lost, and no participant sends a packet 256 ahead of those it received. -/
inductive Step (w : WireNetwork) : WireEvent → WireNetwork → Prop where
  | send {p : Participant} {f : Frame} {tail : List Bool} (hp : p ∈ rc.members)
      (hf : SentBy rc p (w.packets p).length f)
      (hwindow : (w.packets p).length < 256 + (w.receivedBy p).length) :
      Step w (.send p (f.wire ++ tail))
        { w with
          packets := Function.update w.packets p (w.packets p ++ [f.wire ++ tail])
          uplink := Function.update w.uplink p (w.uplink p ++ [f.wire ++ tail]) }
  | arrive {p : Participant} {pkt : List Bool} {rest : List (List Bool)}
      (huplink : w.uplink p = pkt :: rest) :
      Step w (.arrive p)
        ({ w with uplink := Function.update w.uplink p rest }.pass m asic (p.switchPort, pkt))
  | internal {before after : List (PortId × List Bool)} {x : PortId × List Bool}
      (hinside : w.inside = before ++ x :: after) (hfirst : ∀ y ∈ before, y.1 ≠ x.1) :
      Step w (.internal before.length) ({ w with inside := before ++ after }.pass m asic x)
  | receive {port : PortId} {pkt : List Bool} {rest : List (List Bool)}
      (hdownlink : w.downlink port = pkt :: rest) :
      Step w (.receive port)
        { w with
          downlink := Function.update w.downlink port rest
          received := Function.update w.received port (w.received port ++ [pkt]) }

end Steps

end WireNetwork

/-! ### What a pass makes of a packet -/

/-- The actions of `check_complete` that a channel's packets meet. -/
inductive ActionOf (rc : CollectiveChannel) : Option CheckCompleteAction → Prop where
  | drop : ActionOf rc none
  | recirculate (port : PortId) (hport : reenters port = true) :
      ActionOf rc (some (.checkCompleteTrue port))
  | nextPipe (port : PortId) (hport : reenters port = true) :
      ActionOf rc (some (.checkCompleteNextPipe port))
  | distribute : ActionOf rc (some (.checkCompleteDistribute (mcastGroup rc.aggUnit)))

theorem SentBy.of_sameHeaders {rc : CollectiveChannel} {p : Participant} {seq : Nat} {f g : Frame}
    (h : SentBy rc p seq f) (hsame : f.SameHeaders g) : SentBy rc p seq g :=
  ⟨h.isAggregate.of_sameHeaders hsame, hsame.ethernet ▸ h.dstMac, hsame.ipv4 ▸ h.srcIp,
    hsame.ipv4 ▸ h.dstIp, hsame.roce ▸ h.dstQp, hsame.roce ▸ h.psn⟩

theorem Frame.SameHeaders.query {f g : Frame} (h : f.SameHeaders g) (port : PortId) :
    Ingress.query port g = Ingress.query port f := by
  rw [Ingress.query, Collectives.unitSelectorQuery, Ingress.query, Collectives.unitSelectorQuery, h.ipv4,
    h.roce]

/-- A frame of a channel comes in at a port: what its pass does depends on its headers and words only, and
it gets new words. -/
structure PassesAt (m : Matcher) (asic : Asic) (rc : CollectiveChannel) (port : PortId) (f : Frame)
    (regs : PipeId → Registers) : Prop where
  isAggregate : f.IsAggregate
  ne_cpu : port ≠ 64
  pipe : pipeOf port = 0 ∨ pipeOf port = 3
  pass : ∃ regs' a words, ActionOf rc a ∧ ∀ g : Frame, f.SameHeaders g → g.aggregate = f.aggregate →
    (Ingress.apply m { asic with regs := regs } (pipeOf port) port g).regs = regs' ∧
      (Ingress.apply m { asic with regs := regs } (pipeOf port) port g).outcome =
        Ingress.outcomeOf a rc.aggUnit { g with aggregate := words }

namespace Serving

variable {channels : List CollectiveChannel} {asic : Asic} {rc : CollectiveChannel}
  (h : Serving channels asic rc) (m : Matcher) {p : Participant} {seq : Nat} {f : Frame}
  (regs : PipeId → Registers)

include h

theorem passesAt_add {port : PortId} {pipe : PipeId} {i : Nat} (hpipeOf : pipeOf port = pipe)
    (hpipe : pipe = 0 ∨ pipe = 3) (hcount : 0 < rc.count pipe) (hport : port ≠ 64)
    (hrecirc : IngressParser.isRecirculationPort port = false) (hf : SentBy rc p seq f)
    (hpick : m.unitSelector.pick (asic.pipes pipe).unitSelector (Ingress.query port f) =
      some (selectData rc (NodeBitmap.nodeAt i))) : PassesAt m asic rc port f regs := by
  subst hpipeOf
  let c := ((regs (pipeOf port)).cell (slotIndex rc seq)).add (NodeBitmap.nodeAt i) f.aggregate
  refine ⟨hf.isAggregate, hport, hpipe, (regs (pipeOf port)).setCell (slotIndex rc seq) c,
    m.checkComplete.pick (asic.pipes (pipeOf port)).checkComplete
      ⟨rc.aggUnit.setWidth 8, c.bitmap, false⟩, c.sumsA f.aggregate, ?_, fun g hsame hwords => ?_⟩
  · rw [pick_checkComplete_add h.programmed h.separate h.known hcount m c.bitmap]
    split
    · refine .recirculate _ ?_
      rw [reenters, (recircPort_ports _ hpipe).2.1, Bool.true_or]
    · exact .drop
  · have hg := hf.of_sameHeaders hsame
    have hpass := Ingress.apply_add m { asic with regs := regs } (pipeOf port)
      (IngressParser.start_of_isAggregate hg.isAggregate hpipe) hport (h.lookup_switching hg)
      (by rw [hsame.query]; exact hpick)
      (fun j isClear => lookup_chooseAction h.programmed h.known j isClear) hrecirc
    rw [show Collectives.cellIndex (selectData rc (NodeBitmap.nodeAt i)).aggUnit g.roce.psn =
      slotIndex rc seq by rw [hg.psn]; rfl, hwords] at hpass
    exact hpass

theorem passesAt_clear {pipe : PipeId} (hpipe : pipe = 0 ∨ pipe = 3) (hcount : 0 < rc.count pipe)
    (hp : p ∈ rc.onPipe pipe ∨ pipe = 3 ∧ rc.connected = true ∧ p ∈ rc.members)
    (hf : SentBy rc p seq f) : PassesAt m asic rc (recircPort pipe) f regs := by
  obtain ⟨h64, hrecirc, hpipeOf⟩ := recircPort_ports pipe hpipe
  obtain ⟨d, hunit, hpick⟩ := h.exists_pick_recirculated m hp hf
  refine ⟨hf.isAggregate, h64, by rwa [hpipeOf], (regs pipe).setCell (slotIndex rc seq) Cell.zero,
    some (clearAction rc.connected rc pipe), ((regs pipe).cell (slotIndex rc seq)).sumsB f.aggregate, ?_,
    fun g hsame hwords => ?_⟩
  · rw [clearAction]
    split
    · rename_i hchains
      refine .nextPipe _ ?_
      rw [hpipe.resolve_right hchains.2]
      rfl
    · exact .distribute
  · have hg := hf.of_sameHeaders hsame
    have hpass := Ingress.apply_clear m { asic with regs := regs } pipe
      (IngressParser.start_of_isAggregate hg.isAggregate (by rwa [hpipeOf])) h64
      (h.lookup_switching hg) (by rw [hsame.query]; exact hpick)
      (fun j isClear => by
        rw [hunit]
        exact lookup_chooseAction h.programmed h.known j isClear) hrecirc
    rw [hunit, show Collectives.cellIndex rc.aggUnit g.roce.psn = slotIndex rc seq by
      rw [hg.psn]; rfl, hwords] at hpass
    dsimp only at hpass
    rw [pick_checkComplete_clear h.programmed h.separate h.known hcount m] at hpass
    rw [hpipeOf]
    exact hpass

theorem passesAt_arrive (hp : p ∈ rc.members) (hf : SentBy rc p seq f) :
    PassesAt m asic rc p.switchPort f regs := by
  obtain ⟨h64, h448, h452, hrecirc, hpipe⟩ := frontPanel_ports _ (h.frontPanel p hp)
  have honPipe := mem_onPipe.2 ⟨hp, rfl⟩
  obtain ⟨i, hi⟩ := List.mem_iff_getElem?.1 honPipe
  exact h.passesAt_add m regs rfl hpipe (List.length_pos_of_mem honPipe) h64 hrecirc hf
    (h.pick_participant m hi hf h448 h452)

end Serving

theorem Traffic.Inv.passesAt {channels : List CollectiveChannel} {asic : Asic} {rc : CollectiveChannel}
    {t : Traffic} (h : Serving channels asic rc) (hinv : Inv rc t) {pkt : Packet}
    (hpkt : pkt ∈ t.switch.inside) (m : Matcher) (regs : PipeId → Registers) :
    PassesAt m asic rc pkt.port pkt.frame regs := by
  obtain ⟨before, after, hinside⟩ := List.append_of_mem hpkt
  obtain ⟨stage, seq, -, hstage, hpkt, hnonempty⟩ := hinv.stage_of_inside hinside
  cases stage with
  | collecting0 => exact absurd hstage.token hnonempty
  | collecting3 => exact absurd hstage.token hnonempty
  | clearing0 =>
      obtain ⟨p, f, agg, hp, hf, hpackets, -⟩ := hstage.token
      obtain ⟨rfl, -⟩ := hpkt _ hpackets
      have hsentBy := (hinv.sentBy p seq f hf).2.withAggregate agg
      have hpasses := h.passesAt_clear m regs (Or.inl rfl) (List.length_pos_of_mem hp) (Or.inl hp) hsentBy
      rw [show recircPort 0 = 68 by decide] at hpasses
      exact hpasses
  | crossing =>
      obtain ⟨hconnected, p, f, agg, hp, hf, hpackets, -⟩ := hstage.token
      obtain ⟨rfl, -⟩ := hpkt _ hpackets
      have hsentBy := (hinv.sentBy p seq f hf).2.withAggregate agg
      have hpasses : PassesAt m asic rc 448 { f with aggregate := agg } regs :=
        h.passesAt_add m regs (by decide) (Or.inr rfl) (count_of_connected hconnected).2 (by decide)
          (by decide) hsentBy (h.pick_crossing m hp hsentBy hconnected)
      exact hpasses
  | clearing3 =>
      obtain ⟨hcount, p, f, agg, hp, hf, hpackets, -⟩ := hstage.token
      obtain ⟨rfl, -⟩ := hpkt _ hpackets
      have hsentBy := (hinv.sentBy p seq f hf).2.withAggregate agg
      have hpasses := h.passesAt_clear m regs (Or.inr rfl) hcount
        (hp.imp_right fun hp => ⟨rfl, hp⟩) hsentBy
      rw [show recircPort 3 = 452 by decide] at hpasses
      exact hpasses

/-! ### The bits behind a pass -/

/-- The bits of a packet inside the switch; those of a copy have its ICRC in front of them. -/
def InsideBits : Packet ⊕ Copy → PortId × List Bool → Prop
  | .inl pkt, x => x.1 = pkt.port ∧ ∃ tail, x.2 = pkt.frame.wire ++ tail
  | .inr c, x => x.1 = c.port ∧ ∃ tail, x.2 = Wire.withIcrc c.frame ++ tail

theorem ActionOf.exists_items {asic : Asic} {rc : CollectiveChannel} {a : Option CheckCompleteAction}
    (ha : ActionOf rc a) (hdelivers : Delivers asic rc) {xid : Nat}
    (hxid : asic.replicas (mcastGroup rc.aggUnit) xid = asic.replicas (mcastGroup rc.aggUnit) 0) (f : Frame)
    (tail : List Bool) (seq : Nat) : ∃ items : List (Packet ⊕ Copy),
      List.Forall₂ InsideBits items (Wire.destinations asic xid rc.aggUnit f tail a) ∧
      items.filterMap Sum.getLeft? = (Ingress.outcomeOf a rc.aggUnit f).reentering seq ∧
      items.filterMap Sum.getRight? =
        ((Ingress.outcomeOf a rc.aggUnit f).distributed seq).flatMap (copiesOf asic rc) ∧
      ∀ y ∈ Wire.destinations asic xid rc.aggUnit f tail a, comesBack y.1 = true := by
  cases ha with
  | drop => exact ⟨[], .nil, rfl, rfl, List.forall_mem_nil _⟩
  | recirculate port hport =>
      refine ⟨[.inl ⟨port, f, seq⟩], .cons ⟨rfl, tail, rfl⟩ .nil, ?_, rfl,
        List.forall_mem_singleton.2 (by rw [comesBack, hport, Bool.true_or])⟩
      change _ = if reenters port then _ else []
      rw [if_pos hport]
      rfl
  | nextPipe port hport =>
      refine ⟨[.inl ⟨port, f, seq⟩], .cons ⟨rfl, tail, rfl⟩ .nil, ?_, rfl,
        List.forall_mem_singleton.2 (by rw [comesBack, hport, Bool.true_or])⟩
      change _ = if reenters port then _ else []
      rw [if_pos hport]
      rfl
  | distribute =>
      obtain ⟨hlength, hreaches⟩ := List.forall₂_iff_zip.1 (hdelivers 0)
      have hcopies : copiesOf asic rc (resultOf rc seq f) =
          (rc.members.zip (asic.replicas (mcastGroup rc.aggUnit) 0)).map _ :=
        congrArg (List.map _) (List.filter_eq_self.2 fun x hx => decide_eq_true (hreaches hx))
      refine ⟨(copiesOf asic rc (resultOf rc seq f)).map .inr, ?_, ?_, ?_, fun y hy => ?_⟩
      · rw [Wire.destinations, hxid]
        rw [← List.map_snd_zip hlength.ge, hcopies]
        rw [List.forall₂_map_left_iff, List.forall₂_map_left_iff, List.map_map,
          List.forall₂_map_right_iff]
        exact List.forall₂_same.2 fun x _ => ⟨rfl, tail, rfl⟩
      · rw [List.filterMap_map]
        exact List.filterMap_eq_nil_iff.2 fun x _ => rfl
      · rw [List.filterMap_map]
        exact (List.filterMap_some ..).trans (List.append_nil _).symm
      · obtain ⟨x, hx, rfl⟩ := List.mem_map.1 hy
        rw [hxid] at hx
        rw [← List.map_snd_zip hlength.ge] at hx
        obtain ⟨z, hz, rfl⟩ := List.mem_map.1 hx
        rw [comesBack, (hreaches hz).port, Option.isSome_some, Bool.or_true]

namespace WireNetwork

variable {m : Matcher} {asic : Asic} {rc : CollectiveChannel} {w : WireNetwork} {sw : Switch}

/-- A pass of a packet does to the bits what the switch does to its frame. -/
theorem exists_pass {port : PortId} {f : Frame} (hpasses : PassesAt m asic rc port f sw.regs)
    (hunit : rc.aggUnit ≠ 65535) (hdelivers : Delivers asic rc)
    (hxid : ∀ xid, asic.replicas (mcastGroup rc.aggUnit) xid = asic.replicas (mcastGroup rc.aggUnit) 0)
    (hregs : w.regs = sw.regs) (tail : List Bool) (seq : Nat) : ∃ distributed items outputs,
      (sw.process m asic ⟨port, f, seq⟩).results = sw.results ++ distributed ∧
      (sw.process m asic ⟨port, f, seq⟩).inside = sw.inside ++ items.filterMap Sum.getLeft? ∧
      distributed.flatMap (copiesOf asic rc) = items.filterMap Sum.getRight? ∧
      List.Forall₂ InsideBits items outputs ∧
      w.pass m asic (port, f.wire ++ tail) =
        { w with
          regs := (sw.process m asic ⟨port, f, seq⟩).regs
          inside := w.inside ++ outputs } := by
  obtain ⟨haggregate, h64, hpipe, regs', a, words, ha, hpass⟩ := hpasses
  obtain ⟨hregs', houtcome⟩ := hpass f ⟨rfl, rfl, rfl, rfl⟩ rfl
  obtain ⟨hparsedRegs, hparsedOutcome⟩ := hpass f.parsed f.sameHeaders_parsed rfl
  obtain ⟨items, hitems, hpackets, hcopies, hback⟩ := ha.exists_items hdelivers (hxid port.toNat)
    { f with aggregate := words } tail seq
  have hextracted : (Ingress.apply m { asic with regs := sw.regs } (pipeOf port) port f.parsed).extracted =
      .aggregate := by
    rw [Ingress.apply_extracted]
    exact IngressParser.start_of_isAggregate (haggregate.of_sameHeaders f.sameHeaders_parsed) hpipe
  have houtputs : Wire.copies asic port.toNat _ _ = _ :=
    Wire.copies_of_outcome hunit hextracted hparsedOutcome tail
  have hprocess : sw.process m asic ⟨port, f, seq⟩ = _ := Switch.process_eq rfl ⟨hregs', houtcome⟩
  refine ⟨_, items, _, congrArg Switch.results hprocess, ?_, hcopies.symm, hitems, ?_⟩
  · rw [hprocess, hpackets]
  · rw [pass, hregs, Wire.ingress, Wire.start_wire haggregate h64 hpipe, Option.map_some]
    dsimp only
    rw [houtputs, hparsedRegs, List.filter_eq_self.2 hback, List.filter_eq_nil_iff.2 fun y hy => by
      rw [hback y hy]
      decide, hprocess]
    simp

theorem pass_copy {c : Copy} {port : PortId} (hport : Ingress.adaptRecircFanoutPort c.port = some port)
    (hfront : port ∈ frontPanelPorts) {icrc : BitVec 32} (hicrc : c.frame.recircFanout = some icrc)
    (tail : List Bool) : w.pass m asic (c.port, Wire.withIcrc c.frame ++ tail) =
      { w with
        downlink := Function.update w.downlink port (w.downlink port ++
          [{ c.frame with ipv4 := c.frame.ipv4.checksummed, icrc := icrc }.wire ++ tail]) } := by
  have hleaves : ∀ port ∈ frontPanelPorts, comesBack port = false := by decide
  obtain ⟨s, out, hingress, hregs, hcopies⟩ :=
    Wire.ingress_of_fanOut m { asic with regs := w.regs } hport hicrc tail c.port.toNat
  have hcopies : Wire.copies asic c.port.toNat s out = _ := hcopies
  rw [pass, hingress]
  dsimp only
  rw [hcopies, hregs, Function.update_eq_self, List.filter_cons_of_neg (by rw [hleaves port hfront]; decide),
    List.filter_nil, List.append_nil, List.filter_cons_of_pos (by rw [hleaves port hfront]; decide),
    List.filter_nil]
  congr 1
  funext port'
  by_cases heq : port' = port
  · rw [heq, Function.update_self, List.filter_cons_of_pos (by simp)]
    rfl
  · rw [Function.update_of_ne heq, List.filter_cons_of_neg (by simpa using Ne.symm heq)]
    exact List.append_nil _

end WireNetwork

/-! ### What leaves the switch -/

/-- The bits of a packet that leaves the switch for a participant. -/
structure LeavesFor (p : Participant) (d : Delivery) (pkt : List Bool) : Prop where
  bits : ∃ tail, pkt = { d.frame with ipv4 := d.frame.ipv4.checksummed }.wire ++ tail
  mac : d.frame.ethernet.dstAddr = p.mac
  ip : d.frame.ipv4.dstAddr = p.ip
  qp : d.frame.roce.dstQp = p.localQp
  icrc : d.frame.icrc =
    referenceIcrc d.frame.ipv4 d.frame.udp d.frame.roce (payloadBytes d.frame.aggregate)

theorem WireNetwork.addressee_wire (f : Frame) (tail : List Bool) :
    addressee (f.wire ++ tail) = some (f.ethernet.dstAddr, f.ipv4.dstAddr, f.roce.dstQp) := by
  rw [addressee, Frame.wire, List.append_assoc, Codec.extract_emit_append]
  rfl

theorem Ipv4H.dstAddr_checksummed (h : Ipv4H) : h.checksummed.dstAddr = h.dstAddr := by
  rw [checksummed]

theorem Frame.form_checksummed (f : Frame) : { f with ipv4 := f.ipv4.checksummed }.form = f.form := by
  rw [form, form, Ipv4H.checksummed]

theorem LeavesFor.addressee {p : Participant} {d : Delivery} {pkt : List Bool} (h : LeavesFor p d pkt) :
    WireNetwork.addressee pkt = some (p.mac, p.ip, p.localQp) := by
  obtain ⟨tail, hbits⟩ := h.bits
  rw [hbits, WireNetwork.addressee_wire]
  dsimp only
  rw [Ipv4H.dstAddr_checksummed, h.mac, h.ip, h.qp]

theorem Copy.leavesFor {c : Copy} {p : Participant} {icrc : BitVec 32}
    (hicrc : c.frame.recircFanout = some icrc) (hmac : c.frame.ethernet.dstAddr = p.mac)
    (hip : c.frame.ipv4.dstAddr = p.ip) (hqp : c.frame.roce.dstQp = p.localQp)
    (hreference : icrc =
      referenceIcrc c.frame.ipv4 c.frame.udp c.frame.roce (payloadBytes c.frame.aggregate))
    (tail : List Bool) : LeavesFor p c.delivery
      ({ c.frame with ipv4 := c.frame.ipv4.checksummed, icrc := icrc }.wire ++ tail) := by
  have hframe : c.delivery.frame = { c.frame with icrc := icrc, recircFanout := none } := by
    rw [Copy.delivery, hicrc]
    rfl
  refine ⟨⟨tail, ?_⟩, ?_, ?_, ?_, ?_⟩
  · rw [hframe, Frame.wire, Frame.wire]
  · rw [hframe, hmac]
  · rw [hframe, hip]
  · rw [hframe, hqp]
  · rw [hframe, hreference]

/-- A copy of a result leaves the switch at the port of its receiver, addressed to it and with an ICRC. -/
theorem leavesFor_of_mem_copiesOf {asic : Asic} {rc : CollectiveChannel} (hunit : rc.aggUnit ≠ 65535)
    {seq : Nat} {f : Frame} {c : Copy}
    (hc : c ∈ copiesOf asic rc (resultOf rc seq f)) : c.receiver ∈ rc.members ∧
      Ingress.adaptRecircFanoutPort c.port = some c.receiver.switchPort ∧
      ∃ icrc, c.frame.recircFanout = some icrc ∧ ∀ tail, LeavesFor c.receiver c.delivery
        ({ c.frame with ipv4 := c.frame.ipv4.checksummed, icrc := icrc }.wire ++ tail) := by
  obtain ⟨hreceiver, hport⟩ := receiver_of_mem_copiesOf hc
  obtain ⟨-, hmac, hip, hqp⟩ := delivery_address rfl hunit hc
  obtain ⟨x, hx, rfl⟩ := List.mem_map.1 hc
  have hicrc := @Egress.apply_of_unit (asic.pipes (pipeOf x.2.1)) (resultOf rc seq f).bridgeHeader x.2.2 f
    hunit rfl
  exact ⟨hreceiver, hport, _, hicrc, Copy.leavesFor hicrc hmac hip hqp rfl⟩

/-! ### The network of frames behind the bits -/

/-- What is on the links to participants and behind them. -/
def OnLinks (rc : CollectiveChannel) : (Participant → List Delivery) → (PortId → List (List Bool)) → Prop :=
  Shares Participant.switchPort fun p d pkt => p ∈ rc.members ∧ LeavesFor p d pkt

/-- The network of bits shows a network of frames. -/
structure Shows (rc : CollectiveChannel) (w : WireNetwork) (n : Network) : Prop where
  regs : w.regs = n.traffic.switch.regs
  inside : ∃ items, List.Forall₂ InsideBits items w.inside ∧
    n.traffic.switch.inside = items.filterMap Sum.getLeft? ∧ n.copies = items.filterMap Sum.getRight?
  packets : ∀ p, List.Forall₂ (fun f pkt => ∃ tail, pkt = f.wire ++ tail) (n.packets p) (w.packets p)
  uplink : ∀ p, List.Forall₂ (fun x pkt => ∃ tail, pkt = x.1.wire ++ tail) (n.uplink p) (w.uplink p)
  downlink : OnLinks rc n.downlink w.downlink
  received : OnLinks rc n.received w.received

theorem shows_start (rc : CollectiveChannel) : Shows rc WireNetwork.start Network.start :=
  ⟨rfl, ⟨[], .nil, rfl, rfl⟩, fun _ => .nil, fun _ => .nil, Shares.empty, Shares.empty⟩

theorem forall₂_split {A B : Type} {R : A → B → Prop} {items : List A} {before after : List B} {x : B}
    (h : List.Forall₂ R items (before ++ x :: after)) : ∃ before' item after',
      items = before' ++ item :: after' ∧ R item x ∧ List.Forall₂ R (before' ++ after') (before ++ after) ∧
      ∀ i ∈ before', ∃ y ∈ before, R i y := by
  have hbefore := List.forall₂_take_append _ _ _ h
  obtain ⟨item, after', hitem, hafter, hdrop⟩ :=
    List.forall₂_cons_right_iff.1 (List.forall₂_drop_append _ _ _ h)
  refine ⟨items.take before.length, item, after', ?_, hitem, List.rel_append hbefore hafter, fun i hi => ?_⟩
  · rw [← hdrop, List.take_append_drop]
  · exact exists_right_of_forall₂ hbefore hi

theorem forall₂_split_left {A B : Type} {R : A → B → Prop} {items : List B} {before after : List A} {x : A}
    (h : List.Forall₂ R (before ++ x :: after) items) : ∃ before' item after',
      items = before' ++ item :: after' ∧ R x item ∧ List.Forall₂ R (before ++ after) (before' ++ after') ∧
      ∀ i ∈ before', ∃ y ∈ before, R y i := by
  have hflip : List.Forall₂ (flip R) items (before ++ x :: after) := List.Forall₂.flip h
  obtain ⟨before', item, after', hitems, hitem, hrest, hbefore⟩ := forall₂_split hflip
  exact ⟨before', item, after', hitems, hitem, hrest.flip, hbefore⟩

theorem forall₂_update {A D X : Type} [DecidableEq A] {R : D → X → Prop} {ds : A → List D} {xs : A → List X}
    (h : ∀ a, List.Forall₂ R (ds a) (xs a)) {a : A} {ds' : List D} {xs' : List X}
    (h' : List.Forall₂ R ds' xs') (b : A) :
    List.Forall₂ R (Function.update ds a ds' b) (Function.update xs a xs' b) := by
  by_cases hb : b = a
  · rwa [hb, Function.update_self, Function.update_self]
  · rw [Function.update_of_ne hb, Function.update_of_ne hb]
    exact h b

theorem Network.Flows.received_getElem? {asic : Asic} {rc : CollectiveChannel} {n : Network}
    (hn : Flows asic rc n) {p : Participant} (hp : p ∈ rc.members) {k : Nat} {d : Delivery}
    (hd : (n.received p)[k]? = some d) : (n.distributedTo asic rc p)[k]? = some d := by
  have hlt := (List.getElem?_eq_some_iff.1 hd).1
  rw [← hn.streams p hp, stream, List.append_assoc, List.getElem?_append_left hlt, hd]

theorem Network.Flows.received_seq {channels : List CollectiveChannel} {asic : Asic} {rc : CollectiveChannel}
    {n : Network} (hn : Flows asic rc n) (h : Serving channels asic rc)
    {p : Participant} (hp : p ∈ rc.members) {k : Nat} {d : Delivery} (hd : (n.received p)[k]? = some d) :
    d.seq = k :=
  (hn.carried.distributedTo_frame h (hn.received_getElem? hp hd)).1

section Simulation

variable {channels : List CollectiveChannel} {m : Matcher} {asic : Asic} {rc : CollectiveChannel}
  {w w' : WireNetwork} {n : Network}

/-- The tables of a channel whose results get to its participants. -/
structure Delivering (channels : List CollectiveChannel) (asic : Asic) (rc : CollectiveChannel) : Prop where
  serving : Serving channels asic rc
  delivers : Delivers asic rc
  replicas : ∀ xid, asic.replicas (mcastGroup rc.aggUnit) xid = asic.replicas (mcastGroup rc.aggUnit) 0
  localAddresses : (rc.members.map fun p => (p.mac, p.ip, p.localQp)).Nodup

namespace Delivering

variable (h : Delivering channels asic rc)

include h

theorem unit_ne : rc.aggUnit ≠ 65535 := by
  have hlt := (h.serving.programmed.fits rc h.serving.known).aggUnit_lt
  rintro heq
  rw [heq] at hlt
  exact absurd hlt (by decide)

theorem eq_of_localAddress {p q : Participant} (hp : p ∈ rc.members) (hq : q ∈ rc.members)
    (heq : (q.mac, q.ip, q.localQp) = (p.mac, p.ip, p.localQp)) : q = p :=
  List.inj_on_of_nodup_map h.localAddresses hq hp heq

theorem receivedBy (hshows : Shows rc w n) {p : Participant} (hp : p ∈ rc.members) :
    List.Forall₂ (LeavesFor p) (n.received p) (w.receivedBy p) := by
  have hkey : ∀ q d pkt, (q ∈ rc.members ∧ LeavesFor q d pkt) →
      WireNetwork.addressee pkt = some (q.mac, q.ip, q.localQp) := fun _ _ _ hx => hx.2.addressee
  have hfilter := hshows.received.filter hkey (a := p) fun q _ _ hx heq =>
    h.eq_of_localAddress hp hx.1 (Option.some.inj heq)
  exact hfilter.imp fun _ _ hx => hx.2

theorem processed (seq : Nat) (hshows : Shows rc w n) {port : PortId} {f : Frame}
    (hpasses : PassesAt m asic rc port f n.traffic.switch.regs) (tail : List Bool) : ∃ distributed,
      (n.traffic.switch.process m asic ⟨port, f, seq⟩).results =
        n.traffic.switch.results ++ distributed ∧
      ∀ sent, Shows rc (w.pass m asic (port, f.wire ++ tail))
        { n with
          traffic := ⟨n.traffic.switch.process m asic ⟨port, f, seq⟩, sent⟩
          copies := n.copies ++ distributed.flatMap (copiesOf asic rc) } := by
  obtain ⟨distributed, items', outputs, hresults, hinside', hcopies', houtputs, hpass⟩ :=
    WireNetwork.exists_pass hpasses h.unit_ne h.delivers h.replicas hshows.regs tail seq
  obtain ⟨items, hitems, hinside, hcopies⟩ := hshows.inside
  refine ⟨distributed, hresults, fun sent => ?_⟩
  rw [hpass]
  refine ⟨rfl, ⟨items ++ items', List.rel_append hitems houtputs, ?_, ?_⟩, hshows.packets, hshows.uplink,
    hshows.downlink, hshows.received⟩
  · rw [hinside', hinside, List.filterMap_append]
  · rw [hcopies', hcopies, List.filterMap_append]

/-! #### What is shown after an event -/

variable (hn : Network.Flows asic rc n) (hshows : Shows rc w n)

omit h in
include hshows in
theorem shows_send (p : Participant) (f : Frame) (tail : List Bool) : Shows rc
    { w with
      packets := Function.update w.packets p (w.packets p ++ [f.wire ++ tail])
      uplink := Function.update w.uplink p (w.uplink p ++ [f.wire ++ tail]) }
    { n with
      packets := Function.update n.packets p (n.packets p ++ [f])
      uplink := Function.update n.uplink p (n.uplink p ++ [(f, (n.packets p).length)]) } :=
  ⟨hshows.regs, hshows.inside,
    forall₂_update hshows.packets (List.rel_append (hshows.packets p) (.cons ⟨tail, rfl⟩ .nil)),
    forall₂_update hshows.uplink (List.rel_append (hshows.uplink p) (.cons ⟨tail, rfl⟩ .nil)),
    hshows.downlink, hshows.received⟩

include hn hshows

theorem shows_arrive {p : Participant} {f : Frame} {seq : Nat} {rest' : List (Frame × Nat)}
    (huplink : n.uplink p = (f, seq) :: rest') {rest : List (List Bool)}
    (hrest : List.Forall₂ (fun x pkt => ∃ tail, pkt = x.1.wire ++ tail) rest' rest) (tail : List Bool) :
    Shows rc ({ w with uplink := Function.update w.uplink p rest }.pass m asic (p.switchPort, f.wire ++ tail))
      { n with
        traffic := ⟨n.traffic.switch.process m asic ⟨p.switchPort, f, seq⟩,
          Traffic.sentWith n.traffic.sent p seq f⟩
        uplink := Function.update n.uplink p rest' } := by
  obtain ⟨hp, hf⟩ := hn.carried.packets p seq f (hn.carried.head_uplink huplink).1
  have hpopped : Shows rc { w with uplink := Function.update w.uplink p rest }
      { n with uplink := Function.update n.uplink p rest' } :=
    ⟨hshows.regs, hshows.inside, hshows.packets, forall₂_update hshows.uplink hrest, hshows.downlink,
      hshows.received⟩
  obtain ⟨distributed, hresults, hafter⟩ :=
    h.processed seq hpopped (h.serving.passesAt_arrive m _ hp hf) tail
  obtain rfl : distributed = [] :=
    List.append_right_eq_self.1 (hresults.symm.trans (hn.carried.results_arrive h.serving huplink))
  have hafter := hafter (Traffic.sentWith n.traffic.sent p seq f)
  rw [List.flatMap_nil, List.append_nil] at hafter
  exact hafter

section Inside

variable {items : List (Packet ⊕ Copy)} {rest : List (PortId × List Bool)}
  (hrest : List.Forall₂ InsideBits items rest)

include hrest

theorem shows_internal {pkt : Packet} (hpkt : pkt ∈ n.traffic.switch.inside)
    (hcopies : n.copies = items.filterMap Sum.getRight?) {sw : Switch}
    (hprocess : { n.traffic.switch with inside := items.filterMap Sum.getLeft? }.process m asic pkt = sw)
    (tail : List Bool) : ∃ distributed, sw.results = n.traffic.switch.results ++ distributed ∧
      Shows rc ({ w with inside := rest }.pass m asic (pkt.port, pkt.frame.wire ++ tail))
        { n with
          traffic := ⟨sw, n.traffic.sent⟩
          copies := n.copies ++ distributed.flatMap (copiesOf asic rc) } := by
  have htaken : Shows rc { w with inside := rest }
      { n with
        traffic := ⟨{ n.traffic.switch with inside := items.filterMap Sum.getLeft? }, n.traffic.sent⟩ } :=
    ⟨hshows.regs, ⟨items, hrest, rfl, hcopies⟩, hshows.packets, hshows.uplink, hshows.downlink,
      hshows.received⟩
  obtain ⟨distributed, hresults, hafter⟩ :=
    h.processed pkt.seq htaken (hn.carried.inv.passesAt h.serving hpkt m _) tail
  subst hprocess
  exact ⟨distributed, hresults, hafter _⟩

theorem shows_fanOut {c : Copy} (hc : c ∈ n.copies)
    (hinside : n.traffic.switch.inside = items.filterMap Sum.getLeft?) (tail : List Bool) :
    Shows rc ({ w with inside := rest }.pass m asic (c.port, Wire.withIcrc c.frame ++ tail))
      { n with
        traffic := ⟨(n.traffic.switch.fanOut m asic c).1, n.traffic.sent⟩
        copies := items.filterMap Sum.getRight?
        downlink := Function.update n.downlink c.receiver
          (n.downlink c.receiver ++ (n.traffic.switch.fanOut m asic c).2) } := by
  obtain ⟨r, hr, hcopy⟩ := hn.carried.copies c hc
  obtain ⟨p, f, -, horigin⟩ := hn.carried.inv.origin r hr
  rw [horigin] at hcopy
  obtain ⟨hreceiver, hport, icrc, hicrc, hleaves⟩ := leavesFor_of_mem_copiesOf h.unit_ne hcopy
  rw [hn.carried.fanOut_eq hc,
    WireNetwork.pass_copy hport (h.serving.frontPanel _ hreceiver) hicrc]
  exact ⟨hshows.regs, ⟨items, hrest, hinside, rfl⟩, hshows.packets, hshows.uplink,
    hshows.downlink.push ⟨hreceiver, hleaves tail⟩, hshows.received⟩

end Inside

/-! #### Each network has the steps of the other one -/

/-- Every step of the network of bits is one of the network of frames. -/
theorem shows_step {e : WireEvent} (hstep : WireNetwork.Step m asic rc w e w') :
    ∃ e' n', Network.Orderly m asic rc n e' n' ∧ Shows rc w' n' := by
  cases hstep with
  | @send p f tail hp hf hwindow =>
      have hlength := (hshows.packets p).length_eq
      have hreceived := (h.receivedBy hshows hp).length_eq
      refine ⟨_, _, ⟨.send hp (hlength ▸ hf), trivial, fun seq hseq => ?_⟩, shows_send hshows p f tail⟩
      have hlt : seq < (n.received p).length := by omega
      exact ⟨_, List.getElem_mem hlt, hn.received_seq h.serving hp (List.getElem?_eq_getElem hlt)⟩
  | arrive huplink =>
      obtain ⟨⟨f, seq⟩, rest', ⟨tail, rfl⟩, hrest, huplink'⟩ :=
        List.forall₂_cons_right_iff.1 (huplink ▸ hshows.uplink _)
      exact ⟨_, _, ⟨.arrive huplink', trivial, trivial⟩, h.shows_arrive hn hshows huplink' hrest tail⟩
  | @internal before after x hinside hfirst =>
      obtain ⟨items, hitems, hpackets, hcopies⟩ := hshows.inside
      obtain ⟨before', item, after', rfl, hx, hrest, hbefore⟩ := forall₂_split (hinside ▸ hitems)
      obtain ⟨port, bits⟩ := x
      have hports : ∀ i ∈ before', ∀ port', (∀ y, InsideBits i y → y.1 = port') → port' ≠ port := by
        intro i hi port' hport'
        obtain ⟨y, hy, hiy⟩ := hbefore i hi
        exact hport' y hiy ▸ hfirst y hy
      cases item with
      | inl pkt =>
          obtain ⟨rfl, tail, rfl⟩ := hx
          have hpackets' : n.traffic.switch.inside = before'.filterMap Sum.getLeft? ++
              pkt :: after'.filterMap Sum.getLeft? := by
            rw [hpackets, List.filterMap_append]
            rfl
          have hfirst' : ∀ y ∈ before'.filterMap Sum.getLeft?, y.port ≠ pkt.port := by
            intro y hy
            obtain ⟨i, hi, hleft⟩ := List.mem_filterMap.1 hy
            obtain rfl := Sum.getLeft?_eq_some_iff.1 hleft
            exact hports _ hi _ fun _ hz => hz.1
          obtain ⟨distributed, hresults, hafter⟩ := h.shows_internal hn hshows hrest
            (hpackets' ▸ List.mem_append_right _ List.mem_cons_self)
            (by rw [hcopies, List.filterMap_append, List.filterMap_append]; rfl) rfl tail
          rw [List.filterMap_append] at hafter hresults
          exact ⟨_, _, ⟨.internal hpackets' hfirst' rfl hresults, trivial, trivial⟩, hafter⟩
      | inr c =>
          obtain ⟨rfl, tail, rfl⟩ := hx
          have hcopies' : n.copies = before'.filterMap Sum.getRight? ++
              c :: after'.filterMap Sum.getRight? := by
            rw [hcopies, List.filterMap_append]
            rfl
          have hfirst' : ∀ y ∈ before'.filterMap Sum.getRight?, y.port ≠ c.port := by
            intro y hy
            obtain ⟨i, hi, hright⟩ := List.mem_filterMap.1 hy
            obtain rfl := Sum.getRight?_eq_some_iff.1 hright
            exact hports _ hi _ fun _ hz => hz.1
          have hafter := h.shows_fanOut (m := m) hn hshows hrest
            (hcopies' ▸ List.mem_append_right _ List.mem_cons_self)
            (by rw [hpackets, List.filterMap_append, List.filterMap_append]; rfl) tail
          rw [List.filterMap_append] at hafter
          exact ⟨_, _, ⟨.fanOut hcopies' hfirst', trivial, trivial⟩, hafter⟩
  | receive hdownlink =>
      obtain ⟨p, d, ds, rfl, hd, hds, hpopped⟩ := hshows.downlink.pop hdownlink
      exact ⟨_, _, ⟨.receive hds, trivial, trivial⟩, hshows.regs, hshows.inside, hshows.packets,
        hshows.uplink, hpopped, hshows.received.push hd⟩

omit hshows in
theorem port_ne {pkt : Packet} (hpkt : pkt ∈ n.traffic.switch.inside) {c : Copy} (hc : c ∈ n.copies) :
    pkt.port ≠ c.port := by
  have hinner : ∀ port : PortId, (Ingress.adaptRecircFanoutPort port).isSome = true →
      ¬ (pipeOf port = 0 ∨ pipeOf port = 3) := by
    decide +kernel
  obtain ⟨r, hr, hcopy⟩ := hn.carried.copies c hc
  have hport := (receiver_of_mem_copiesOf hcopy).2
  have hpipe := (hn.carried.inv.passesAt h.serving hpkt Matcher.first fun _ => Registers.zero).pipe
  rintro heq
  exact hinner c.port (by rw [hport]; rfl) (heq ▸ hpipe)

omit h hn hshows in
theorem before_cases {items : List (Packet ⊕ Copy)}
    (hpackets : n.traffic.switch.inside = items.filterMap Sum.getLeft?)
    (hcopies : n.copies = items.filterMap Sum.getRight?) {before' : List (Packet ⊕ Copy)}
    (hbefore : before' ⊆ items) {y : PortId × List Bool} (hy : ∃ i ∈ before', InsideBits i y) :
    (∃ pkt ∈ before'.filterMap Sum.getLeft?, y.1 = pkt.port ∧ pkt ∈ n.traffic.switch.inside) ∨
      ∃ c ∈ before'.filterMap Sum.getRight?, y.1 = c.port ∧ c ∈ n.copies := by
  obtain ⟨i, hi, hiy⟩ := hy
  cases i with
  | inl pkt =>
      exact Or.inl ⟨pkt, List.mem_filterMap.2 ⟨_, hi, rfl⟩, hiy.1,
        hpackets ▸ List.mem_filterMap.2 ⟨_, hbefore hi, rfl⟩⟩
  | inr c =>
      exact Or.inr ⟨c, List.mem_filterMap.2 ⟨_, hi, rfl⟩, hiy.1,
        hcopies ▸ List.mem_filterMap.2 ⟨_, hbefore hi, rfl⟩⟩

/-- Every step of the network of frames is one of the network of bits, if every participant has a port of
its own. -/
theorem shown_step (hports : (rc.members.map Participant.switchPort).Nodup) {e : NetworkEvent} {n' : Network}
    (hstep : Network.Orderly m asic rc n e n') :
    ∃ e' w', WireNetwork.Step m asic rc w e' w' ∧ Shows rc w' n' := by
  obtain ⟨hstep, hlossless, hwindowed⟩ := hstep
  cases hstep with
  | @send p f hp hf =>
      have hlength := (hshows.packets p).length_eq
      have hreceived := (h.receivedBy hshows hp).length_eq
      refine ⟨_, _, .send hp (hlength ▸ hf) ?_, shows_send hshows p f []⟩
      by_contra hge
      obtain ⟨d, hd, hseq⟩ := hwindowed ((n.packets p).length - 256) (by omega)
      obtain ⟨k, hk, rfl⟩ := List.getElem_of_mem hd
      have hk' := hn.received_seq h.serving hp (List.getElem?_eq_getElem hk)
      omega
  | @arrive p f seq rest' huplink =>
      obtain ⟨pkt, rest, ⟨tail, rfl⟩, hrest, huplink'⟩ :=
        List.forall₂_cons_left_iff.1 (huplink ▸ hshows.uplink p)
      exact ⟨_, _, .arrive huplink', h.shows_arrive hn hshows huplink hrest tail⟩
  | @internal before after pkt hinside hfirst sw distributed hprocess hresults =>
      obtain ⟨items, hitems, hpackets, hcopies⟩ := hshows.inside
      obtain ⟨before', items', rfl, hbefore, hafter⟩ :=
        List.filterMap_eq_append_iff.1 (hpackets.symm.trans hinside)
      obtain ⟨skipped, item, after', rfl, hskipped, hitem, hrest'⟩ := List.filterMap_eq_cons_iff.1 hafter
      obtain rfl := Sum.getLeft?_eq_some_iff.1 hitem
      have hskipped' : skipped.filterMap Sum.getLeft? = [] := List.filterMap_eq_nil_iff.2 hskipped
      rw [← List.append_assoc] at hitems hpackets hcopies
      obtain ⟨wbefore, ⟨port, bits⟩, wafter, hwinside, ⟨rfl, tail, rfl⟩, hrest, hwbefore⟩ :=
        forall₂_split_left hitems
      have hmem : pkt ∈ n.traffic.switch.inside := hinside ▸ List.mem_append_right _ List.mem_cons_self
      have hleft : before ++ after = ((before' ++ skipped) ++ after').filterMap Sum.getLeft? := by
        rw [List.filterMap_append, List.filterMap_append, hbefore, hskipped', hrest', List.append_nil]
      rw [hleft] at hprocess
      obtain ⟨distributed', hresults', hafter'⟩ := h.shows_internal hn hshows hrest hmem
        (by simp only [hcopies, List.filterMap_append]; rfl) hprocess tail
      obtain rfl := List.append_cancel_left (hresults.symm.trans hresults')
      refine ⟨_, _, .internal hwinside fun y hy => ?_, hafter'⟩
      rcases before_cases hpackets hcopies (List.subset_append_left _ _) (hwbefore y hy) with
        ⟨pkt', hpkt', hport, -⟩ | ⟨c, -, hport, hc⟩
      · rw [List.filterMap_append, hskipped', List.append_nil, hbefore] at hpkt'
        exact hport ▸ hfirst pkt' hpkt'
      · exact hport ▸ (h.port_ne hn hmem hc).symm
  | @fanOut before after c hcopies' hfirst =>
      obtain ⟨items, hitems, hpackets, hcopies⟩ := hshows.inside
      obtain ⟨before', items', rfl, hbefore, hafter⟩ :=
        List.filterMap_eq_append_iff.1 (hcopies.symm.trans hcopies')
      obtain ⟨skipped, item, after', rfl, hskipped, hitem, hrest'⟩ := List.filterMap_eq_cons_iff.1 hafter
      obtain rfl := Sum.getRight?_eq_some_iff.1 hitem
      have hskipped' : skipped.filterMap Sum.getRight? = [] := List.filterMap_eq_nil_iff.2 hskipped
      rw [← List.append_assoc] at hitems hpackets hcopies
      obtain ⟨wbefore, ⟨port, bits⟩, wafter, hwinside, ⟨rfl, tail, rfl⟩, hrest, hwbefore⟩ :=
        forall₂_split_left hitems
      have hmem : c ∈ n.copies := hcopies' ▸ List.mem_append_right _ List.mem_cons_self
      have hright : ((before' ++ skipped) ++ after').filterMap Sum.getRight? = before ++ after := by
        rw [List.filterMap_append, List.filterMap_append, hbefore, hskipped', hrest', List.append_nil]
      have hafter' := h.shows_fanOut (m := m) hn hshows hrest hmem
        (by simp only [hpackets, List.filterMap_append]; rfl) tail
      rw [hright] at hafter'
      refine ⟨_, _, .internal hwinside fun y hy => ?_, hafter'⟩
      rcases before_cases hpackets hcopies (List.subset_append_left _ _) (hwbefore y hy) with
        ⟨pkt, -, hport, hpkt⟩ | ⟨c', hc', hport, -⟩
      · exact hport ▸ h.port_ne hn hpkt hmem
      · rw [List.filterMap_append, hskipped', List.append_nil, hbefore] at hc'
        exact hport ▸ hfirst c' hc'
  | @receive p d rest hdownlink =>
      obtain ⟨x, hx, hp, -⟩ := hshows.downlink.exists_of_stream (hdownlink ▸ List.mem_cons_self)
      obtain ⟨pkt, rest', hlink⟩ := List.exists_cons_of_ne_nil (List.ne_nil_of_mem hx)
      obtain ⟨q, d', ds, hport, hd, hds, hpopped⟩ := hshows.downlink.pop hlink
      obtain rfl : q = p := List.inj_on_of_nodup_map hports hd.1 hp hport
      obtain ⟨rfl, rfl⟩ := List.cons.inj (hdownlink.symm.trans hds)
      exact ⟨_, _, .receive hlink, hshows.regs, hshows.inside, hshows.packets, hshows.uplink, hpopped,
        hshows.received.push hd⟩
  | loseUp huplink => exact absurd hlossless id
  | loseDown hdownlink => exact absurd hlossless id

end Delivering

/-! ### The results in bits -/

namespace WireNetwork

theorem words_wire (f : Frame) (tail : List Bool) : words (f.wire ++ tail) = f.aggregate := by
  have hbits : f.wire ++ tail = (Wire.roceHeaders.prod AggregateH.codec).emit
      ((f.ethernet, f.ipv4, f.udp, f.roce), f.aggregate) ++ ((Codec.bits 32).emit f.icrc ++ tail) := by
    simp only [Frame.wire, Codec.prod, List.append_assoc]
  rw [words, hbits, Codec.extract_emit_append]
  rfl

theorem form_wire (f : Frame) (tail : List Bool) : form (f.wire ++ tail) = some f.form := by
  rw [form, Frame.wire, List.append_assoc, Codec.extract_emit_append]
  rfl

end WireNetwork

section Results

variable (h : Delivering channels asic rc) (hn : Network.Flows asic rc n) (hshows : Shows rc w n)

include hn hshows

theorem Shows.packet_getElem? {k : Nat} (hdistributed : n.traffic.Distributed k) {q : Participant}
    (hq : q ∈ rc.members) : ∃ f tail, n.traffic.sent q k = some f ∧ (n.packets q)[k]? = some f ∧
      (w.packets q)[k]? = some (f.wire ++ tail) := by
  obtain ⟨f, hf⟩ := Option.isSome_iff_exists.1 (hn.carried.inv.sent_of_distributed hdistributed hq)
  obtain ⟨arrived, -, -, hsent⟩ := hn.carried.uplinks q
  have hget : (n.packets q)[k]? = some f := by
    rw [hsent, List.getElem?_take] at hf
    split at hf
    · exact hf
    · contradiction
  obtain ⟨hlt, hf'⟩ := List.getElem?_eq_some_iff.1 hget
  have hall := hshows.packets q
  obtain ⟨tail, hpkt⟩ := hall.get hlt (hall.length_eq ▸ hlt)
  refine ⟨f, tail, hf, hget, ?_⟩
  rw [List.getElem?_eq_getElem (hall.length_eq ▸ hlt)]
  exact congrArg some (hpkt.trans (congrArg (Frame.wire · ++ tail) hf'))

include h

theorem Shows.results : WireNetwork.Results rc w := by
  refine ⟨fun port pkt hpkt => ?_, fun p hp k pkt hpkt => ?_⟩
  · rcases List.mem_append.1 hpkt with hpkt | hpkt
    · obtain ⟨p, d, hport, hp, hd⟩ := hshows.received.exists_of_mem hpkt
      exact ⟨p, hp, hport, hd.addressee⟩
    · obtain ⟨p, d, hport, hp, hd⟩ := hshows.downlink.exists_of_mem hpkt
      exact ⟨p, hp, hport, hd.addressee⟩
  · have hall := h.receivedBy hshows hp
    obtain ⟨hlt, rfl⟩ := List.getElem?_eq_some_iff.1 hpkt
    have hlt' : k < (n.received p).length := hall.length_eq ▸ hlt
    have hleaves := hall.get hlt' hlt
    have hdistributed := hn.received_getElem? hp (List.getElem?_eq_getElem hlt')
    obtain ⟨hseq, hpsn, haggregate, q, hq, f, hf, hform⟩ :=
      hn.carried.distributedTo_frame h.serving hdistributed
    have hreached : n.traffic.Distributed k :=
      hseq ▸ hn.distributed h.serving hp (List.getElem_mem hlt')
    obtain ⟨tail, hbits⟩ := hleaves.bits
    refine ⟨_, tail, hbits, hpsn, fun q hq => ?_, ?_, ?_, Ipv4H.checksumValid_checksummed _, ?_⟩
    · obtain ⟨f, tail, -, -, hget⟩ := hshows.packet_getElem? hn hreached hq
      exact (List.getElem?_eq_some_iff.1 hget).1
    · refine haggregate.trans (congrArg List.sum (List.map_congr_left fun q hq => ?_))
      obtain ⟨f, tail, hsent, -, hget⟩ := hshows.packet_getElem? hn hreached hq
      rw [wordsOf, hsent, hget, Option.map_some, Option.map_some, WireNetwork.words_wire]
    · obtain ⟨f', tail, -, hf', hget⟩ := hshows.packet_getElem? hn hreached hq
      obtain rfl := Option.some.inj (hf.symm.trans hf')
      refine ⟨q, hq, ?_⟩
      rw [hget, Option.bind_some, WireNetwork.form_wire, Frame.form_checksummed]
      exact congrArg some hform.symm
    · exact hleaves.icrc.trans (referenceIcrc_checksummed ..).symm

end Results

theorem Delivering.words_receivedBy (h : Delivering channels asic rc) (hshows : Shows rc w n) {p : Participant}
    (hp : p ∈ rc.members) :
    (w.receivedBy p).map WireNetwork.words = (n.received p).map fun d => d.frame.aggregate := by
  have hall := h.receivedBy hshows hp
  generalize n.received p = deliveries at hall ⊢
  generalize w.receivedBy p = pkts at hall ⊢
  induction hall with
  | nil => rfl
  | cons hleaves _ ih =>
      obtain ⟨tail, hbits⟩ := hleaves.bits
      rw [List.map_cons, List.map_cons, ih, hbits, WireNetwork.words_wire]

end Simulation

/-! ### Runs -/

section Runs

variable {channels : List CollectiveChannel} {m : Matcher} {asic : Asic} {rc : CollectiveChannel}
  (h : Delivering channels asic rc)

include h

/-- Every run of the network of bits shows one of the network of frames. -/
theorem Delivering.exists_frames {run : List (WireEvent × WireNetwork)}
    (hrun : Along (WireNetwork.Step m asic rc) WireNetwork.start run) : ∃ run',
      Along (Network.Orderly m asic rc) Network.start run' ∧
        List.Forall₂ (fun x y => Shows rc x.2 y.2) run run' := by
  obtain ⟨run', hrun', hall⟩ := hrun.simulates (R := fun w n => Shows rc w n ∧ Network.Flows asic rc n)
    (fun w e w' n hI hstep => by
      obtain ⟨e', n', horderly, hshows'⟩ := h.shows_step hI.2 hI.1 hstep
      exact ⟨e', n', horderly, hshows', hI.2.step h.serving horderly⟩)
    ⟨shows_start rc, Network.flows_start h.serving⟩
  exact ⟨run', hrun', hall.imp fun _ _ hboth => hboth.1⟩

/-- Every run of the network of frames is shown, if every participant has a port of its own. -/
theorem Delivering.exists_bits (hports : (rc.members.map Participant.switchPort).Nodup)
    {run : List (NetworkEvent × Network)} (hrun : Along (Network.Orderly m asic rc) Network.start run) :
    ∃ run', Along (WireNetwork.Step m asic rc) WireNetwork.start run' ∧
      List.Forall₂ (fun x y => Shows rc y.2 x.2) run run' := by
  obtain ⟨run', hrun', hall⟩ := hrun.simulates (R := fun n w => Shows rc w n ∧ Network.Flows asic rc n)
    (fun n e n' w hI horderly => by
      obtain ⟨e', w', hstep, hshows'⟩ := h.shown_step hI.2 hI.1 hports horderly
      exact ⟨e', w', hstep, hshows', hI.2.step h.serving horderly⟩)
    ⟨shows_start rc, Network.flows_start h.serving⟩
  exact ⟨run', hrun', hall.imp fun _ _ hboth => hboth.1⟩

end Runs

section Programmed

variable {r : StateRepository} {rc : CollectiveChannel} {m : Matcher} {asic : Asic} (hr : WellFormed r)
  (hknown : rc ∈ knownChannels r.getChannels) (hnonempty : rc.members ≠ [])
  (hports : ∀ p ∈ rc.members, p.switchPort ∈ frontPanelPorts)
  (haddresses : (rc.members.map fun p => (p.ip, p.fabricQp)).Nodup)
  (hlocal : (rc.members.map fun p => (p.mac, p.ip, p.localQp)).Nodup)
  (hprogrammed : Programmed r.getChannels asic) (hshare : SharePorts (knownChannels r.getChannels))
  (hcollective : asic.switchingTable.lookup rc.fabricMac = some .collective)

include hr hknown hnonempty hports haddresses hlocal hprogrammed hshare hcollective

theorem delivering_of_programmed : Delivering r.getChannels asic rc := by
  have hdistinct := distinct_of_wellFormed hr
  have hgroups := hprogrammed.groups hdistinct
  refine ⟨serving_of_programmed hr hknown hnonempty hports haddresses hprogrammed hcollective,
    delivers_of_sharePorts hgroups hdistinct hshare hknown,
    fun xid => ?_, hlocal⟩
  rw [Asic.replicas, Asic.replicas, hgroups.group rc hknown]
  simp [List.flatMap_map]

namespace WireNetwork

/-- **Results in bits.** In every run without loss in which no participant is ahead of its results, nothing
leaves the switch but packets on the ports of the participants and addressed to them. The ones that a
participant receives are, in order, RoCE packets with the numbers from 0 on, each with the sum of the words
in the packets of all participants with this number, the opcode and the lengths of one of them, a valid
checksum and the reference ICRC. -/
theorem run_results {run : List (WireEvent × WireNetwork)} (hrun : Along (Step m asic rc) start run) :
    ∀ x ∈ run, Results rc x.2 := by
  have h := delivering_of_programmed hr hknown hnonempty hports haddresses hlocal hprogrammed hshare hcollective
  have hinvariant := hrun.invariant (I := fun w => ∃ n, Shows rc w n ∧ Network.Flows asic rc n)
    (fun w e w' hI hstep => by
      obtain ⟨n, hshows, hn⟩ := hI
      obtain ⟨e', n', horderly, hshows'⟩ := h.shows_step hn hshows hstep
      exact ⟨n', hshows', hn.step h.serving horderly⟩)
    ⟨_, shows_start rc, Network.flows_start h.serving⟩
  intro x hx
  obtain ⟨n, hshows, hn⟩ := hinvariant x hx
  exact hshows.results h hn

/-- **Refinement.** Every run of the network of bits is one of the network of frames, step by step, and every
run of the latter one of the former if the participants have ports of their own: the parsers and deparsers
add nothing to what the frames do and take nothing from it. -/
theorem run_simulates :
    (∀ run, Along (Step m asic rc) start run → ∃ run', Along (Network.Orderly m asic rc) Network.start run' ∧
      List.Forall₂ (fun x y => Shows rc x.2 y.2) run run') ∧
    ((rc.members.map Participant.switchPort).Nodup → ∀ run, Along (Network.Orderly m asic rc) Network.start run →
      ∃ run', Along (Step m asic rc) start run' ∧ List.Forall₂ (fun x y => Shows rc y.2 x.2) run run') :=
  have h := delivering_of_programmed hr hknown hnonempty hports haddresses hlocal hprogrammed hshare hcollective
  ⟨fun _ hrun => h.exists_frames hrun, fun hnodup _ hrun => h.exists_bits hnodup hrun⟩

end WireNetwork

end Programmed

/-! ### Two participants -/

namespace WireNetwork.TwoPipes

open Network.TwoPipes (advance events Possible orderly_advance)
open Traffic.TwoPipes (asic channel left right)

theorem sharePorts_channel : SharePorts (knownChannels Traffic.TwoPipes.repository.getChannels) := by
  decide

theorem programmed_asic : Programmed Traffic.TwoPipes.repository.getChannels asic :=
  programmed_of_initialSetup (distinct_of_wellFormed Traffic.TwoPipes.wellFormed_repository)
    Traffic.TwoPipes.programs_asic

theorem delivering : Delivering Traffic.TwoPipes.repository.getChannels asic channel :=
  delivering_of_programmed Traffic.TwoPipes.wellFormed_repository (List.mem_singleton.2 rfl) (by decide)
    (by decide) (by decide) (by decide) programmed_asic sharePorts_channel
    (collective_of_initialSetup Traffic.TwoPipes.programs_asic)

theorem orderly_events : Along (Network.Orderly Matcher.first asic channel) Network.start
    (runOf advance Network.start events) := by
  have hpossible : Along (fun n e _ => Possible n e) Network.start (runOf advance Network.start events) := by
    decide +kernel
  exact hpossible.of_runOf fun _ _ => orderly_advance

/-- The packets of both participants go through the switch as bits, and `left` gets both sums. -/
theorem events_results : ∃ run, Along (Step Matcher.first asic channel) start run ∧
    (∃ x ∈ run, ((x.2.receivedBy left).map fun pkt => words pkt 0) = [7, 11]) ∧
      ∀ x ∈ run, Results channel x.2 := by
  obtain ⟨run, hrun, hall⟩ := delivering.exists_bits (by decide) orderly_events
  refine ⟨run, hrun, ?_, run_results (r := Traffic.TwoPipes.repository)
    Traffic.TwoPipes.wellFormed_repository (List.mem_singleton.2 rfl) (by decide) (by decide) (by decide)
    (by decide) programmed_asic sharePorts_channel
    (collective_of_initialSetup Traffic.TwoPipes.programs_asic) hrun⟩
  have hlast : (runOf advance Network.start events).getLast?.map (fun x =>
      (x.2.received left).map fun d => d.frame.aggregate 0) = some [7, 11] := by
    decide +kernel
  obtain ⟨x, hx, hreceived⟩ := Option.map_eq_some_iff.1 hlast
  obtain ⟨y, hy, hshows⟩ := exists_right_of_forall₂ hall (List.mem_of_getLast? hx)
  have hwords := congrArg (List.map fun agg : AggregateH => agg 0)
    (delivering.words_receivedBy hshows (show left ∈ channel.members by decide))
  rw [List.map_map, List.map_map] at hwords
  exact ⟨y, hy, hwords.trans hreceived⟩

/-- The run in which both numbers are on pipe 0 first, in bits. -/
theorem events_shown : ∃ run, Along (Step Matcher.first asic channel) start run ∧
    List.Forall₂ (fun x y => Shows channel y.2 x.2) (runOf advance Network.start events) run :=
  (run_simulates (r := Traffic.TwoPipes.repository) Traffic.TwoPipes.wellFormed_repository
    (List.mem_singleton.2 rfl) (by decide) (by decide) (by decide) (by decide) programmed_asic
    sharePorts_channel (collective_of_initialSetup Traffic.TwoPipes.programs_asic)).2 (by decide) _
    orderly_events

end WireNetwork.TwoPipes

end Mpitofino
