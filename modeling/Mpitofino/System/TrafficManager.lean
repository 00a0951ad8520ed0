import Mpitofino.Control.Multicast
import Mpitofino.Dataplane.Contributions
import Mpitofino.Dataplane.RoundTrip

/-!
# Between the pipes

What the traffic manager makes of the bits behind an ingress pass: it drops them or sends copies of them
through the egress pipes, which those of a packet that bypasses them do not see.

What the passes through the switch make of the bits of a packet with an aggregate header: it is recirculated
and handed to the other pipe with the bits of the frame that the controls made of it; a copy of a result has
the ICRC in front of it, and the pass at the fan-out port puts it behind the words.
-/

namespace Mpitofino

namespace Frame

def wire (f : Frame) : List Bool :=
  Wire.roceHeaders.emit (f.ethernet, f.ipv4, f.udp, f.roce) ++
    (AggregateH.codec.emit f.aggregate ++ (Codec.bits 32).emit f.icrc)

/-- Two frames with the same headers. -/
structure SameHeaders (f g : Frame) : Prop where
  ethernet : g.ethernet = f.ethernet
  ipv4 : g.ipv4 = f.ipv4
  udp : g.udp = f.udp
  roce : g.roce = f.roce

/-- What the ingress parser makes of a frame with an aggregate header. -/
def parsed (f : Frame) : Frame :=
  { blank with
    ethernet := f.ethernet, ipv4 := f.ipv4, udp := f.udp, roce := f.roce, aggregate := f.aggregate }

theorem sameHeaders_parsed (f : Frame) : f.SameHeaders f.parsed := ⟨rfl, rfl, rfl, rfl⟩

theorem IsAggregate.of_sameHeaders {f g : Frame} (hf : f.IsAggregate) (h : f.SameHeaders g) : g.IsAggregate :=
  ⟨h.ethernet ▸ hf.etherType, h.ipv4 ▸ hf.protocol, h.udp ▸ hf.dstPort, h.udp ▸ hf.length⟩

end Frame

namespace Wire

/-! ### Ingress passes -/

section Ingress

variable {f : Frame} {port : PortId}

theorem parseEthernet_headers (hf : f.IsAggregate) (payload : List Bool) :
    IngressParser.parseEthernet Frame.blank (ingressHeaders f .aggregate ++ payload) =
      some ⟨.aggregate, f.parsed, payload⟩ := by
  have hbits : ingressHeaders f .aggregate ++ payload = EthernetH.codec.emit f.ethernet ++
      (Ipv4H.codec.emit f.ipv4 ++ (UdpH.codec.emit f.udp ++ (RoceH.codec.emit f.roce ++
        (AggregateH.codec.emit f.aggregate ++ payload)))) := by
    simp only [ingressHeaders, roceHeaders, Codec.prod, List.append_assoc]
  rw [hbits, IngressParser.parseEthernet, Codec.extract_emit_append, Option.bind_some]
  dsimp only
  rw [if_pos hf.etherType, IngressParser.parseIpv4, Codec.extract_emit_append, Option.bind_some]
  dsimp only
  rw [if_pos hf.protocol, IngressParser.parseUdp, Codec.extract_emit_append, Option.bind_some]
  dsimp only
  rw [if_pos hf.dstPort, IngressParser.parseRoce, Codec.extract_emit_append, Option.bind_some]
  dsimp only
  rw [if_neg (by rw [hf.length]; decide), if_pos hf.length, IngressParser.parseAggregate,
    Codec.extract_emit_append]
  rfl

theorem start_wire (hf : f.IsAggregate) (h64 : port ≠ 64) (hpipe : pipeOf port = 0 ∨ pipeOf port = 3)
    (tail : List Bool) : IngressParser.start port (f.wire ++ tail) =
      some ⟨.aggregate, f.parsed, (Codec.bits 32).emit f.icrc ++ tail⟩ := by
  have hpipes : ∀ port : PortId, pipeOf port = 0 ∨ pipeOf port = 3 →
      ¬ port &&& 0x180 = 128 ∧ ¬ port &&& 0x180 = 256 := by
    decide +kernel
  have hbits : f.wire ++ tail = ingressHeaders f .aggregate ++ ((Codec.bits 32).emit f.icrc ++ tail) := by
    simp only [Frame.wire, ingressHeaders, List.append_assoc]
  rw [IngressParser.start, if_neg h64, if_neg (hpipes port hpipe).1, if_neg (hpipes port hpipe).2, hbits,
    parseEthernet_headers hf]

end Ingress

/-- What the traffic manager and the egress pipes make of a packet: the ports it leaves on, with its bits. -/
def copies (asic : Asic) (xid : Nat) (s : IngressState) (out : List Bool) : List (PortId × List Bool) :=
  if s.dropCtl then []
  else ((s.ucastEgressPort.map fun port => (port, (0 : BitVec 16))).toList ++
      (s.mcastGrpA.map fun mgid => asic.replicas mgid xid).getD []).filterMap fun x =>
    (if s.bypassEgress then some out else egress (asic.pipes (pipeOf x.1)) x.2 out).map (x.1, ·)

/-! ### Copies of results -/

/-- The bits of a frame with its ICRC in front of it. -/
def withIcrc (f : Frame) : List Bool :=
  recircFanoutBits f ++ { f with ipv4 := f.ipv4.checksummed }.wire

section Egress

variable (tables : PipeTables) (egressRid : BitVec 16) {bridge : BridgeHeader}

theorem egress_apply_congr (hparse : Mpitofino.EgressParser.parse bridge = .roce) {f g : Frame}
    (h : f.SameHeaders g) :
    (Egress.apply tables bridge egressRid f).SameHeaders (Egress.apply tables bridge egressRid g) ∧
      (Egress.apply tables bridge egressRid g).recircFanout =
        (Egress.apply tables bridge egressRid f).recircFanout := by
  have hheaders : (CollectivesDistributor.apply tables bridge egressRid f).SameHeaders
      (CollectivesDistributor.apply tables bridge egressRid g) := by
    obtain ⟨hethernet, hipv4, hudp, hroce⟩ := h
    rw [CollectivesDistributor.apply, CollectivesDistributor.apply]
    cases tables.outputAddress.lookup ⟨bridge.aggUnit, egressRid⟩ with
    | none => exact ⟨hethernet, hipv4, hudp, hroce⟩
    | some d =>
        simp only [CollectivesDistributor.outputAddressSet]
        exact ⟨by rw [hethernet], by rw [hipv4], by rw [hudp], by rw [hroce]⟩
  rw [Egress.apply, Egress.apply, hparse]
  refine ⟨⟨hheaders.ethernet, hheaders.ipv4, hheaders.udp, hheaders.roce⟩, ?_⟩
  dsimp only
  rw [hheaders.ipv4, hheaders.udp, hheaders.roce]

theorem egress_of_headers (hunit : bridge.aggUnit ≠ 65535) (pad : BitVec 7) (f : Frame) (rest : List Bool) :
    egress tables egressRid (BridgeHeader.codec.emit (bridge, pad) ++
      (roceHeaders.emit (f.ethernet, f.ipv4, f.udp, f.roce) ++ rest)) =
      some (recircFanoutBits (Egress.apply tables bridge egressRid f) ++
        (roceHeaders.emit ((Egress.apply tables bridge egressRid f).ethernet,
          (Egress.apply tables bridge egressRid f).ipv4.checksummed,
          (Egress.apply tables bridge egressRid f).udp, (Egress.apply tables bridge egressRid f).roce) ++
          rest)) := by
  have hparse : Mpitofino.EgressParser.parse bridge = .roce := by
    rw [Mpitofino.EgressParser.parse, if_neg hunit]
  obtain ⟨hheaders, hfanout⟩ := egress_apply_congr tables egressRid hparse
    (f := f) (g := { Frame.blank with
      ethernet := f.ethernet, ipv4 := f.ipv4, udp := f.udp, roce := f.roce }) ⟨rfl, rfl, rfl, rfl⟩
  rw [egress, Codec.extract_emit_append, Option.bind_some]
  dsimp only
  rw [EgressParser.start, hparse]
  dsimp only
  rw [EgressParser.parseAggregate, Codec.extract_emit_append, Option.map_some, Option.map_some]
  dsimp only
  rw [egressHeaders, recircFanoutBits, hfanout, hheaders.ethernet, hheaders.ipv4, hheaders.udp, hheaders.roce,
    List.append_assoc]
  rfl

/-- A copy of a packet with a unit leaves the egress pipe as that pipe leaves the frame. -/
theorem egress_of_unit (hunit : bridge.aggUnit ≠ 65535) (pad : BitVec 7) (f : Frame) (tail : List Bool) :
    egress tables egressRid (BridgeHeader.codec.emit (bridge, pad) ++ (f.wire ++ tail)) =
      some (withIcrc (Egress.apply tables bridge egressRid f) ++ tail) := by
  have hparse : Mpitofino.EgressParser.parse bridge = .roce := by
    rw [Mpitofino.EgressParser.parse, if_neg hunit]
  have hicrc : (Egress.apply tables bridge egressRid f).icrc = f.icrc := by
    rw [Egress.apply, hparse, CollectivesDistributor.apply]
    cases tables.outputAddress.lookup ⟨bridge.aggUnit, egressRid⟩ <;> rfl
  rw [Frame.wire, List.append_assoc, egress_of_headers tables egressRid hunit, withIcrc, Frame.wire]
  dsimp only
  rw [Egress.apply_aggregate, hicrc]
  simp only [List.append_assoc]

end Egress

/-- Where a packet with a unit goes behind an action of `check_complete`, and its bits there. -/
def destinations (asic : Asic) (xid : Nat) (aggUnit : BitVec 16) (f : Frame) (tail : List Bool) :
    Option CheckCompleteAction → List (PortId × List Bool)
  | none => []
  | some (.checkCompleteTrue port) => [(port, f.wire ++ tail)]
  | some (.checkCompleteNextPipe port) => [(port, f.wire ++ tail)]
  | some (.checkCompleteDistribute mcastGrp) => (asic.replicas mcastGrp xid).map fun x =>
      (x.1, withIcrc (Egress.apply (asic.pipes (pipeOf x.1)) ⟨aggUnit, ingressIcrc f.aggregate, false⟩ x.2
        f) ++ tail)

theorem copies_of_outcome {asic : Asic} {xid : Nat} {s : IngressState} {a : Option CheckCompleteAction}
    {aggUnit : BitVec 16} (hunit : aggUnit ≠ 65535) {f : Frame} {words : AggregateH}
    (hextracted : s.extracted = .aggregate)
    (houtcome : s.outcome = Ingress.outcomeOf a aggUnit { f.parsed with aggregate := words })
    (tail : List Bool) :
    copies asic xid s (ingressDeparser s ((Codec.bits 32).emit f.icrc ++ tail)) =
      destinations asic xid aggUnit { f with aggregate := words } tail a := by
  have hhdr : s.hdr = { f.parsed with aggregate := words } := congrArg IngressState.Outcome.hdr houtcome
  have hbridge : s.md.bridgeHeader = ⟨aggUnit, ingressIcrc words, false⟩ :=
    congrArg IngressState.Outcome.bridgeHeader houtcome
  have hdrop : s.dropCtl = a.isNone := congrArg IngressState.Outcome.dropCtl houtcome
  have hucast := congrArg IngressState.Outcome.ucastEgressPort houtcome
  have hmcast := congrArg IngressState.Outcome.mcastGrpA houtcome
  have hbypass := congrArg IngressState.Outcome.bypassEgress houtcome
  change s.ucastEgressPort = _ at hucast
  change s.mcastGrpA = _ at hmcast
  change s.bypassEgress = _ at hbypass
  have hbits : ingressHeaders s.hdr s.extracted ++ ((Codec.bits 32).emit f.icrc ++ tail) =
      ({ f with aggregate := words } : Frame).wire ++ tail := by
    rw [hextracted, hhdr]
    simp only [ingressHeaders, Frame.wire, Frame.parsed, List.append_assoc]
  rw [copies, ingressDeparser, hbits, bridgeBits, hdrop, hucast, hmcast, hbypass, hbridge]
  rcases a with _ | (_ | _ | mcastGrp)
  case none => rfl
  case some.checkCompleteTrue => rfl
  case some.checkCompleteNextPipe => rfl
  case some.checkCompleteDistribute =>
      have hegress : ∀ x : PortId × BitVec 16, egress (asic.pipes (pipeOf x.1)) x.2
          (BridgeHeader.codec.emit (⟨aggUnit, ingressIcrc words, false⟩, 0) ++
            (({ f with aggregate := words } : Frame).wire ++ tail)) =
          some (withIcrc (Egress.apply (asic.pipes (pipeOf x.1)) ⟨aggUnit, ingressIcrc words, false⟩ x.2
            { f with aggregate := words }) ++ tail) := fun x =>
        egress_of_unit _ _ (by exact hunit) 0 _ tail
      simp only [Ingress.outcomeOf, Option.isNone_some, Bool.false_eq_true, if_false, Option.map_none,
        Option.toList_none, List.nil_append, Option.map_some, Option.getD_some, hegress, destinations]
      exact List.filterMap_eq_map ▸ rfl

/-! ### Fan-out ports -/

/-- At a fan-out port the ICRC in front of a packet is put behind its words. -/
theorem ingress_of_fanOut (m : Matcher) (asic : Asic) {port port' : PortId}
    (hport : Ingress.adaptRecircFanoutPort port = some port') {f : Frame} {icrc : BitVec 32}
    (hicrc : f.recircFanout = some icrc) (tail : List Bool) (xid : Nat) : ∃ s out,
    ingress m asic (pipeOf port) port (withIcrc f ++ tail) = some (s, out) ∧
      s.regs = asic.regs (pipeOf port) ∧
      copies asic xid s out =
        [(port', { f with ipv4 := f.ipv4.checksummed, icrc := icrc }.wire ++ tail)] := by
  have h64 : port ≠ 64 := (Ingress.start_of_fanOut hport f).1
  have hbits : withIcrc f ++ tail = ((Codec.bits 32).prod (recircFanoutPayload.prod (Codec.bits 32))).emit
      (icrc, ((f.ethernet, f.ipv4.checksummed, f.udp, f.roce), f.aggregate), f.icrc) ++ tail := by
    simp only [withIcrc, recircFanoutBits, hicrc, Option.elim_some, Frame.wire, recircFanoutPayload,
      Codec.prod, List.append_assoc]
  have hparse : IngressParser.parseRecircFanout Frame.blank (withIcrc f ++ tail) = some ⟨.recircFanout,
      { f.parsed with
        recircFanout := some icrc, ipv4 := f.ipv4.checksummed, icrc := f.icrc }, tail⟩ := by
    rw [hbits, IngressParser.parseRecircFanout, Codec.extract_emit_append]
    rfl
  have hstart : IngressParser.start port (withIcrc f ++ tail) = some ⟨.recircFanout,
      { f.parsed with
        recircFanout := some icrc, ipv4 := f.ipv4.checksummed, icrc := f.icrc }, tail⟩ := by
    rw [IngressParser.start, if_neg h64, ← hparse]
    rw [Ingress.adaptRecircFanoutPort] at hport
    split_ifs at hport ⊢ <;> rfl
  refine ⟨_, _, by rw [ingress, hstart, Option.map_some, Ingress.apply_of_fanOut m asic _ hport], rfl, ?_⟩
  have hextracted : Mpitofino.IngressParser.start port { f.parsed with
      recircFanout := some icrc, ipv4 := f.ipv4.checksummed, icrc := f.icrc } = .recircFanout :=
    (Ingress.start_of_fanOut hport _).2
  have hucast : (Ingress.adaptRecircFanoutPort port).or none = some port' := by
    rw [hport]
    rfl
  simp only [copies, ingressDeparser, bridgeBits, Ingress.recircFanout, Ingress.initial,
    IngressParser.metadata, hextracted, hucast]
  simp [ingressHeaders, recircFanoutBits, Frame.wire, Frame.parsed, recircFanoutPayload, Codec.prod]

end Wire

end Mpitofino
