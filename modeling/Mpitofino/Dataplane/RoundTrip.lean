import Mpitofino.Dataplane.GeneratedIcrc
import Mpitofino.Dataplane.Slot
import Mpitofino.Dataplane.Wire

/-!
# What the parsers and deparsers keep

A parser reads what the frames say it reads, and its headers and the rest are the packet again. So a packet
to which the controls do nothing leaves with the bits it came with.
-/

namespace Mpitofino

namespace Ingress

variable (m : Matcher) (asic : Asic) (pipe : PipeId)

section Forward

variable (s : IngressState)

private theorem kept_withIcrc (icrc : BitVec 32) :
    let s' := { s with md := { s.md with bridgeHeader := { s.md.bridgeHeader with icrc := icrc } } }
    s'.extracted = s.extracted ∧ s'.bypassEgress = s.bypassEgress ∧ s'.md.aggHaveUnit = s.md.aggHaveUnit :=
  ⟨rfl, rfl, rfl⟩

theorem forward_kept : (forward asic pipe s).extracted = s.extracted ∧
    (forward asic pipe s).bypassEgress = s.bypassEgress ∧
    (forward asic pipe s).md.aggHaveUnit = s.md.aggHaveUnit := by
  have hswitching : ∀ s : IngressState, (switchingTable asic s).extracted = s.extracted ∧
      (switchingTable asic s).bypassEgress = s.bypassEgress ∧
      (switchingTable asic s).md.aggHaveUnit = s.md.aggHaveUnit := by
    intro s
    rw [switchingTable]
    split <;> exact ⟨rfl, rfl, rfl⟩
  have hreflector : ∀ s : IngressState, (roceAckReflector asic pipe s).extracted = s.extracted ∧
      (roceAckReflector asic pipe s).bypassEgress = s.bypassEgress ∧
      (roceAckReflector asic pipe s).md.aggHaveUnit = s.md.aggHaveUnit := by
    intro s
    rw [roceAckReflector]
    split <;> exact ⟨rfl, rfl, rfl⟩
  have hafter : ∀ s : IngressState, (afterSwitching asic pipe s).extracted = s.extracted ∧
      (afterSwitching asic pipe s).bypassEgress = s.bypassEgress ∧
      (afterSwitching asic pipe s).md.aggHaveUnit = s.md.aggHaveUnit := by
    intro s
    unfold afterSwitching
    split
    · split
      · exact kept_withIcrc s _
      · exact ⟨rfl, rfl, rfl⟩
    · split
      · exact hreflector s
      · split <;> exact ⟨rfl, rfl, rfl⟩
  have hboth := hafter (switchingTable asic s)
  rw [(hswitching s).1, (hswitching s).2.1, (hswitching s).2.2] at hboth
  rw [forward]
  split
  · split
    · exact ⟨rfl, rfl, rfl⟩
    · exact hboth
  · split
    · exact ⟨rfl, rfl, rfl⟩
    · exact hboth

theorem forward_of_not_reflected (hack : (forward asic pipe s).md.bridgeHeader.isRoceAck = false) :
    (forward asic pipe s).hdr = s.hdr ∧
      (forward asic pipe s).md.bridgeHeader.aggUnit = s.md.bridgeHeader.aggUnit := by
  have hafter : ∀ s : IngressState, (afterSwitching asic pipe s).md.bridgeHeader.isRoceAck = false →
      (afterSwitching asic pipe s).hdr = s.hdr := by
    intro s hack
    unfold afterSwitching at hack ⊢
    split
    · split <;> rfl
    · rename_i haggregate
      rw [if_neg haggregate] at hack
      split
      · rename_i hreflects
        rw [if_pos hreflects, roceAckReflector] at hack
        rw [roceAckReflector]
        split
        · rename_i dstQp hlookup
          rw [hlookup] at hack
          contradiction
        · rfl
      · split <;> rfl
  have hswitched : (afterSwitching asic pipe (switchingTable asic s)).md.bridgeHeader.aggUnit =
      s.md.bridgeHeader.aggUnit := by
    rw [afterSwitching_aggUnit, switchingTable_bridgeHeader]
  rw [forward] at hack ⊢
  split
  · rename_i portId hcpoffload
    rw [hcpoffload] at hack
    dsimp only at hack
    split
    · exact ⟨rfl, rfl⟩
    · rename_i hport
      rw [if_neg hport] at hack
      exact ⟨(hafter _ hack).trans (switchingTable_hdr asic s), hswitched⟩
  · rename_i hcpoffload
    rw [hcpoffload] at hack
    dsimp only at hack
    split
    · exact ⟨rfl, rfl⟩
    · rename_i hextracted
      rw [if_neg hextracted] at hack
      exact ⟨(hafter _ hack).trans (switchingTable_hdr asic s), hswitched⟩

end Forward

variable {m asic pipe} {port : PortId} {f : Frame}

theorem apply_extracted (m : Matcher) (asic : Asic) (pipe : PipeId) (port : PortId) (f : Frame) :
    (apply m asic pipe port f).extracted = IngressParser.start port f := by
  rw [apply_eq_forward, (forward_kept asic pipe _).1, collect_extracted]

end Ingress

/-- No entry for the eight bits of `agg_unit` that a packet without a unit has. -/
structure Asic.SentinelFree (asic : Asic) (pipe : PipeId) : Prop where
  chooseAction : ∀ j isClear, (asic.chooseAction j).lookup ⟨255, isClear⟩ = none
  checkComplete : ∀ e ∈ (asic.pipes pipe).checkComplete.entries, e.1.aggUnit ≠ 255

namespace Ingress

variable {m : Matcher} {asic : Asic} {pipe : PipeId} {port : PortId} {f : Frame}

theorem collect_of_no_unit (hfree : asic.SentinelFree pipe)
    (hstart : IngressParser.start port f ≠ .recircFanout)
    (hunit : (apply m asic pipe port f).md.aggHaveUnit = false) :
    collect m asic pipe port f = initial asic pipe port f := by
  rw [apply_eq_forward, (forward_kept asic pipe _).2.2] at hunit
  have hextracted : (initial asic pipe port f).extracted = IngressParser.start port f := rfl
  rw [collect] at hunit ⊢
  by_cases haggregate : IngressParser.start port f = .aggregate
  · rw [hextracted, if_pos haggregate] at hunit ⊢
    rw [Collectives.apply_aggHaveUnit, Collectives.unitSelector] at hunit
    have hpick : m.unitSelector.pick (asic.pipes pipe).unitSelector
        (Collectives.unitSelectorQuery (initial asic pipe port f).hdr
          (initial asic pipe port f).md.ingressPort) = none := by
      cases hpick : m.unitSelector.pick (asic.pipes pipe).unitSelector
          (Collectives.unitSelectorQuery (initial asic pipe port f).hdr
            (initial asic pipe port f).md.ingressPort) with
      | none => rfl
      | some d =>
          rw [hpick] at hunit
          contradiction
    have hcheck : Collectives.checkComplete m asic pipe (initial asic pipe port f) =
        initial asic pipe port f := by
      rw [Collectives.checkComplete]
      have hmiss : m.checkComplete.pick (asic.pipes pipe).checkComplete
          (Collectives.checkCompleteQuery (initial asic pipe port f).md) = none :=
        m.checkComplete.pick_eq_none fun e he hhits =>
          hfree.checkComplete e he (hhits.1.trans (show (65535 : BitVec 16).extractLsb' 8 8 = 255 by decide))
      rw [hmiss]
    rw [Collectives.apply_of_miss m asic pipe hpick rfl, hcheck]
    refine Collectives.aggregationUnits_none _ fun j => ?_
    have hunit : (initial asic pipe port f).md.aggUnit.extractLsb' 8 8 = 255 :=
      show (65535 : BitVec 16).extractLsb' 8 8 = 255 by decide
    rw [hunit]
    exact hfree.chooseAction j _
  · rw [hextracted, if_neg haggregate, if_neg hstart]

end Ingress

namespace Wire

/-! ### The ingress pipe -/

namespace IngressParser

variable {hdr : Frame} {pkt : List Bool} {x : Parsed} {port : PortId}

theorem parseRoce_eq_some (h : parseRoce hdr pkt = some x) : ∃ roce rest,
    pkt = RoceH.codec.emit roce ++ rest ∧
      (hdr.udp.length ≠ 280 ∧ x = ⟨.roce, { hdr with roce := roce }, rest⟩ ∨
        hdr.udp.length = 280 ∧ ∃ aggregate rest', rest = AggregateH.codec.emit aggregate ++ rest' ∧
          x = ⟨.aggregate, { hdr with roce := roce, aggregate := aggregate }, rest'⟩) := by
  obtain ⟨⟨roce, rest⟩, hroce, h⟩ := Option.bind_eq_some_iff.1 h
  refine ⟨roce, rest, RoceH.codec.extract_eq_some.1 hroce, ?_⟩
  dsimp only at h
  split at h
  · rename_i hlength
    exact Or.inl ⟨by rw [hlength]; decide, (Option.some.inj h).symm⟩
  · split at h
    · rename_i hlength
      obtain ⟨⟨aggregate, rest'⟩, haggregate, rfl⟩ := Option.map_eq_some_iff.1 h
      exact Or.inr ⟨hlength, aggregate, rest', AggregateH.codec.extract_eq_some.1 haggregate, rfl⟩
    · rename_i hlength
      exact Or.inl ⟨hlength, (Option.some.inj h).symm⟩

/-- The parser reads what it would read of the frame it makes, and its headers and the rest are the
packet. -/
theorem parseEthernet_eq_some (h : parseEthernet hdr pkt = some x) :
    x.extracted = Mpitofino.IngressParser.parseEthernet x.hdr ∧
      pkt = ingressHeaders x.hdr x.extracted ++ x.payload ∧ x.hdr.cpoffload = hdr.cpoffload ∧
      x.extracted ≠ .recircFanout := by
  obtain ⟨⟨ethernet, rest⟩, hethernet, hparse⟩ := Option.bind_eq_some_iff.1 h
  rw [EthernetH.codec.extract_eq_some.1 hethernet]
  dsimp only at hparse
  split at hparse
  · rename_i hetherType
    obtain ⟨⟨ipv4, rest⟩, hipv4, hparse⟩ := Option.bind_eq_some_iff.1 hparse
    rw [Ipv4H.codec.extract_eq_some.1 hipv4]
    dsimp only at hparse
    split at hparse
    · rename_i hprotocol
      obtain ⟨⟨udp, rest⟩, hudp, hparse⟩ := Option.bind_eq_some_iff.1 hparse
      rw [UdpH.codec.extract_eq_some.1 hudp]
      dsimp only at hparse
      split at hparse
      · rename_i hdstPort
        obtain ⟨roce, rest, hrest, ⟨hlength, rfl⟩ | ⟨hlength, aggregate, rest', rfl, rfl⟩⟩ :=
          parseRoce_eq_some hparse
        all_goals
          rw [hrest]
        · refine ⟨?_, ?_, rfl, fun h => Extracted.noConfusion h⟩
          · rw [Mpitofino.IngressParser.parseEthernet, if_pos hetherType, Mpitofino.IngressParser.parseIpv4,
              if_pos hprotocol, Mpitofino.IngressParser.parseUdp, if_pos hdstPort,
              Mpitofino.IngressParser.parseRoce, if_neg hlength, ite_self]
          · simp only [ingressHeaders, roceHeaders, Codec.prod, List.append_assoc]
        · refine ⟨?_, ?_, rfl, fun h => Extracted.noConfusion h⟩
          · rw [Mpitofino.IngressParser.parseEthernet, if_pos hetherType, Mpitofino.IngressParser.parseIpv4,
              if_pos hprotocol, Mpitofino.IngressParser.parseUdp, if_pos hdstPort,
              Mpitofino.IngressParser.parseRoce, if_neg (by rw [hlength]; decide), if_pos hlength]
          · simp only [ingressHeaders, roceHeaders, Codec.prod, List.append_assoc]
      · rename_i hdstPort
        obtain rfl := Option.some.inj hparse
        refine ⟨?_, ?_, rfl, fun h => Extracted.noConfusion h⟩
        · rw [Mpitofino.IngressParser.parseEthernet, if_pos hetherType, Mpitofino.IngressParser.parseIpv4,
            if_pos hprotocol, Mpitofino.IngressParser.parseUdp, if_neg hdstPort]
        · simp only [ingressHeaders, List.append_assoc]
    · rename_i hprotocol
      obtain rfl := Option.some.inj hparse
      refine ⟨?_, ?_, rfl, fun h => Extracted.noConfusion h⟩
      · rw [Mpitofino.IngressParser.parseEthernet, if_pos hetherType, Mpitofino.IngressParser.parseIpv4,
          if_neg hprotocol]
      · simp only [ingressHeaders, List.append_assoc]
  · rename_i hetherType
    obtain rfl := Option.some.inj hparse
    refine ⟨?_, rfl, rfl, fun h => Extracted.noConfusion h⟩
    rw [Mpitofino.IngressParser.parseEthernet, if_neg hetherType]

/-- The number of bits in front of the Ethernet header. -/
def offload (port : PortId) : Nat := if port = 64 then 14 * 8 + 16 else 0

/-- The parser reads what it would read of the frame it makes, and behind what the CPU puts in front, its
headers and the rest are the packet. -/
theorem start_eq_some (h : start port pkt = some x) :
    x.extracted = Mpitofino.IngressParser.start port x.hdr ∧
      (x.extracted ≠ .recircFanout →
        pkt.drop (offload port) = ingressHeaders x.hdr x.extracted ++ x.payload) := by
  rw [start] at h
  rw [offload, Mpitofino.IngressParser.start]
  by_cases hport : port = 64
  · rw [if_pos hport] at h
    rw [if_pos hport, if_pos hport]
    rw [parseCpoffload] at h
    split at h
    · obtain ⟨⟨cpoffload, rest⟩, hcpoffload, h⟩ := Option.bind_eq_some_iff.1 h
      have hrest : pkt.drop (14 * 8 + 16) = rest := by
        rw [← List.drop_drop, (Codec.bits 16).extract_eq_some.1 hcpoffload]
        exact List.drop_left' ((Codec.bits 16).length_emit _)
      rw [hrest]
      exact ⟨(parseEthernet_eq_some h).1, fun _ => (parseEthernet_eq_some h).2.1⟩
    · contradiction
  · rw [if_neg hport] at h
    rw [if_neg hport, if_neg hport, List.drop_zero]
    have hfanout : parseRecircFanout Frame.blank pkt = some x → x.extracted = .recircFanout := by
      intro h
      obtain ⟨y, -, rfl⟩ := Option.map_eq_some_iff.1 h
      rfl
    split at h
    · rename_i hpipe
      rw [if_pos hpipe]
      exact ⟨hfanout h, fun hne => absurd (hfanout h) hne⟩
    · rename_i hpipe1
      rw [if_neg hpipe1]
      split at h
      · rename_i hpipe
        rw [if_pos hpipe]
        exact ⟨hfanout h, fun hne => absurd (hfanout h) hne⟩
      · rename_i hpipe2
        rw [if_neg hpipe2]
        exact ⟨(parseEthernet_eq_some h).1, fun _ => (parseEthernet_eq_some h).2.1⟩

end IngressParser

section Plain

variable {m : Matcher} {asic : Asic} {pipe : PipeId} {port : PortId} {pkt out : List Bool} {s : IngressState}

theorem ingress_eq_some (h : ingress m asic pipe port pkt = some (s, out)) : ∃ x,
    IngressParser.start port pkt = some x ∧ s = Ingress.apply m asic pipe port x.hdr ∧
      out = ingressDeparser s x.payload := by
  obtain ⟨x, hx, heq⟩ := Option.map_eq_some_iff.1 h
  obtain ⟨rfl, rfl⟩ := Prod.mk.inj heq
  exact ⟨x, hx, rfl, rfl⟩

theorem egress_of_nothing (tables : PipeTables) (egressRid : BitVec 16) {bridge : BridgeHeader}
    (hparse : Mpitofino.EgressParser.parse bridge = .nothing) (pad : BitVec 7) (pkt : List Bool) :
    egress tables egressRid (BridgeHeader.codec.emit (bridge, pad) ++ pkt) = some pkt := by
  rw [egress, Codec.extract_emit_append, Option.bind_some]
  dsimp only
  rw [EgressParser.start, hparse]
  rfl

/-- A packet that the collectives leave alone leaves the switch with its bits, less those in front of the
Ethernet header, and leaves the registers. -/
theorem transparent_of_no_unit (hfree : asic.SentinelFree pipe)
    (h : ingress m asic pipe port pkt = some (s, out)) (hextracted : s.extracted ≠ .recircFanout)
    (hunit : s.md.aggHaveUnit = false) (hack : s.md.bridgeHeader.isRoceAck = false) :
    s.regs = asic.regs pipe ∧ ∀ tables egressRid,
      egress tables egressRid out = some (pkt.drop (IngressParser.offload port)) := by
  obtain ⟨x, hx, rfl, rfl⟩ := ingress_eq_some h
  rw [Ingress.apply_extracted] at hextracted
  obtain ⟨hreads, hbits⟩ := IngressParser.start_eq_some hx
  rw [← hreads] at hextracted
  have hbits := hbits hextracted
  rw [hreads] at hextracted
  have hcollect := Ingress.collect_of_no_unit hfree hextracted hunit
  rw [Ingress.apply_eq_forward, hcollect] at hack
  obtain ⟨hhdr, haggUnit⟩ := Ingress.forward_of_not_reflected asic pipe _ hack
  obtain ⟨hextracted', hbypass, -⟩ := Ingress.forward_kept asic pipe (Ingress.initial asic pipe port x.hdr)
  refine ⟨?_, fun tables egressRid => ?_⟩
  · rw [Ingress.apply_eq_forward, hcollect, Ingress.forward_regs]
    rfl
  · rw [Ingress.apply_eq_forward, hcollect, ingressDeparser, bridgeBits, hbypass, hhdr, hextracted']
    have hparse : Mpitofino.EgressParser.parse
        (Ingress.forward asic pipe (Ingress.initial asic pipe port x.hdr)).md.bridgeHeader = .nothing := by
      rw [Mpitofino.EgressParser.parse, haggUnit, hack]
      rfl
    refine (egress_of_nothing tables egressRid hparse 0 _).trans ?_
    rw [hbits, hreads]
    rfl

end Plain

/-! ### Checksums -/

theorem packBytes_append {m : List Bool} (n : List Bool) (h : m.length % 8 = 0) :
    packBytes (m ++ n) = packBytes m ++ packBytes n ∧ 8 * (packBytes m).length = m.length := by
  induction m using packBytes.induct with
  | case1 b7 b6 b5 b4 b3 b2 b1 b0 rest ih =>
      simp only [List.length_cons] at h
      obtain ⟨happend, hlength⟩ := ih (by omega)
      simp only [List.cons_append, packBytes, happend, List.length_cons]
      exact ⟨trivial, by omega⟩
  | case2 m hshort =>
      have hnil : m = [] := by
        rcases m with _ | ⟨b7, _ | ⟨b6, _ | ⟨b5, _ | ⟨b4, _ | ⟨b3, _ | ⟨b2, _ | ⟨b1, _ | ⟨b0, rest⟩⟩⟩⟩⟩⟩⟩⟩
        · rfl
        iterate 7 simp at h
        exact (hshort b7 b6 b5 b4 b3 b2 b1 b0 rest rfl).elim
      subst hnil
      exact ⟨rfl, rfl⟩

theorem length_fieldBits (fs : List Field) : (fieldBits fs).length = (fs.map Field.width).sum := by
  rw [fieldBits, List.length_flatMap]
  refine congrArg List.sum (List.map_congr_left fun f _ => ?_)
  rw [Field.bits, List.length_map, List.length_range]

theorem checksumSum_append {before data : List (BitVec 8)} (heven : before.length % 2 = 0) :
    checksumSum (before ++ data) = checksumSum before + checksumSum data := by
  induction before using checksumSum.induct with
  | case1 first second before ih =>
      rw [List.length_cons, List.length_cons] at heven
      rw [List.cons_append, List.cons_append, checksumSum, checksumSum, ih (by omega), Nat.add_assoc]
  | case2 last => contradiction
  | case3 => exact (Nat.zero_add _).symm

theorem checksumSum_wireBytes {fs : List Field} (gs : List Field)
    (hwords : (fs.map Field.width).sum % 16 = 0) :
    checksumSum (wireBytes (fs ++ gs)) = checksumSum (wireBytes fs) + checksumSum (wireBytes gs) := by
  rw [← length_fieldBits] at hwords
  obtain ⟨happend, hlength⟩ := packBytes_append (fieldBits gs) (show (fieldBits fs).length % 8 = 0 by omega)
  rw [wireBytes, fieldBits_append, happend]
  exact checksumSum_append (by omega)

theorem checksumSum_word (w : BitVec 16) : checksumSum (wireBytes [⟨w⟩]) = w.toNat := by
  have hword : (mkByte (w.getMsbD 0) (w.getMsbD 1) (w.getMsbD 2) (w.getMsbD 3) (w.getMsbD 4)
      (w.getMsbD 5) (w.getMsbD 6) (w.getMsbD 7)) ++ (mkByte (w.getMsbD 8) (w.getMsbD 9) (w.getMsbD 10)
      (w.getMsbD 11) (w.getMsbD 12) (w.getMsbD 13) (w.getMsbD 14) (w.getMsbD 15)) = w := by
    refine BitVec.eq_of_getLsbD_eq fun i hi => ?_
    interval_cases i <;>
      simp only [mkByte, BitVec.getLsbD_append, BitVec.getLsbD_ofBool, BitVec.getMsbD] <;> rfl
  exact congrArg BitVec.toNat hword

end Wire

namespace Ipv4H

/-- The sum of the words of the header, with its checksum, is the largest value. -/
def ChecksumValid (h : Ipv4H) : Prop :=
  OnesComplement.residue 65535 (Wire.checksumSum (wireBytes h.fields)) = 65535

instance (h : Ipv4H) : Decidable h.ChecksumValid := inferInstanceAs (Decidable (_ = _))

/-- The fields in front of the checksum. -/
def fieldsBefore (h : Ipv4H) : List Field :=
  [⟨h.version⟩, ⟨h.ihl⟩, ⟨h.tos⟩, ⟨h.totalLength⟩, ⟨h.identification⟩, ⟨h.flags⟩, ⟨h.fragmentOffset⟩, ⟨h.ttl⟩,
    ⟨h.protocol⟩]

theorem withChecksum_twice (h : Ipv4H) (c c' : BitVec 16) :
    { { h with headerChecksum := c } with headerChecksum := c' } = { h with headerChecksum := c' } :=
  rfl

theorem checksumSum_fields (h : Ipv4H) (c : BitVec 16) :
    Wire.checksumSum (wireBytes { h with headerChecksum := c }.fields) =
      Wire.checksumSum (wireBytes h.fieldsBefore) + (c.toNat +
        Wire.checksumSum (wireBytes [⟨h.srcAddr⟩, ⟨h.dstAddr⟩])) := by
  rw [← Wire.checksumSum_word, ← @Wire.checksumSum_wireBytes [⟨c⟩] _ (by simp),
    ← Wire.checksumSum_wireBytes _ (by simp [fieldsBefore])]
  rfl

theorem checksumValid_checksummed (h : Ipv4H) : h.checksummed.ChecksumValid := by
  have hchecksum : (Wire.checksumUpdate (h.fieldsBefore ++ [⟨h.srcAddr⟩, ⟨h.dstAddr⟩])).toNat =
      65535 - OnesComplement.residue 65535 (Wire.checksumSum (wireBytes h.fieldsBefore) +
        Wire.checksumSum (wireBytes [⟨h.srcAddr⟩, ⟨h.dstAddr⟩])) := by
    rw [← Wire.checksumSum_wireBytes _ (by simp [fieldsBefore])]
    exact (BitVec.toNat_ofNat ..).trans (Nat.mod_eq_of_lt (by omega))
  have hcomplement := OnesComplement.residue_add_complement (m := 65535)
    (n := Wire.checksumSum (wireBytes h.fieldsBefore) +
      Wire.checksumSum (wireBytes [⟨h.srcAddr⟩, ⟨h.dstAddr⟩])) (by decide)
  have hsum := checksumSum_fields h
    (Wire.checksumUpdate (h.fieldsBefore ++ [⟨h.srcAddr⟩, ⟨h.dstAddr⟩]))
  rw [hchecksum, Nat.add_comm (65535 - _), ← Nat.add_assoc] at hsum
  rw [← hsum] at hcomplement
  exact hcomplement

end Ipv4H

theorem referenceIcrc_withChecksum (ipv4 : Ipv4H) (c : BitVec 16) (udp : UdpH) (roce : RoceH)
    (data : List (BitVec 8)) :
    referenceIcrc { ipv4 with headerChecksum := c } udp roce data = referenceIcrc ipv4 udp roce data := by
  have hfields : maskedHeaderFields { ipv4 with headerChecksum := c } udp roce =
      maskedHeaderFields ipv4 udp roce := rfl
  rw [referenceIcrc, referenceIcrc, maskedHeaderBytes_eq, maskedHeaderBytes_eq, hfields]

theorem referenceIcrc_checksummed (ipv4 : Ipv4H) (udp : UdpH) (roce : RoceH) (data : List (BitVec 8)) :
    referenceIcrc ipv4.checksummed udp roce data = referenceIcrc ipv4 udp roce data :=
  referenceIcrc_withChecksum ..

/-! ### Reflected acknowledgements -/

namespace Ingress

variable {m : Matcher} {asic : Asic} {pipe : PipeId} {port : PortId} {f : Frame}

theorem lookup_of_isColl {s : IngressState} (hs : s.md.isColl = false)
    (hcoll : (switchingTable asic s).md.isColl = true) :
    asic.switchingTable.lookup s.hdr.ethernet.dstAddr = some .collective := by
  rw [switchingTable] at hcoll
  cases hlookup : asic.switchingTable.lookup s.hdr.ethernet.dstAddr with
  | none =>
      rw [hlookup] at hcoll
      exact absurd (hs.symm.trans hcoll) Bool.false_ne_true
  | some action =>
      rw [hlookup] at hcoll
      cases action with
      | collective => rfl
      | send | flood | bcast | drop => exact absurd (hs.symm.trans hcoll) Bool.false_ne_true

private theorem isRoceAck_withIcrc (s : IngressState) (icrc : BitVec 32) :
    ({ s with md := { s.md with bridgeHeader := { s.md.bridgeHeader with icrc := icrc } } } :
      IngressState).md.bridgeHeader.isRoceAck = s.md.bridgeHeader.isRoceAck :=
  rfl

/-- What is reflected is an acknowledgement to the collectives unit for whose sender there is an entry. -/
theorem apply_of_reflected (hack : (apply m asic pipe port f).md.bridgeHeader.isRoceAck = true) :
    IngressParser.start port f = .roce ∧ f.roce.opcode = 17 ∧
      asic.switchingTable.lookup f.ethernet.dstAddr = some .collective ∧
      ∃ dstQp, (asic.pipes pipe).roceAckReflector.lookup ⟨f.ipv4.srcAddr, f.roce.dstQp⟩ = some dstQp ∧
        apply m asic pipe port f =
          roceAckReflect dstQp (switchingTable asic (initial asic pipe port f)) := by
  obtain ⟨aggUnit, hbridge, -⟩ := collect_bridgeHeader m asic pipe port f
  have hcollect : (collect m asic pipe port f).md.bridgeHeader.isRoceAck = false := by
    rw [hbridge]
  by_cases hcpu : FromCpu port f
  · rw [apply_eq_forward, forward, collect_cpoffload, if_pos hcpu.1] at hack
    dsimp only at hack
    rw [if_pos hcpu.2] at hack
    exact absurd (hcollect.symm.trans hack) Bool.false_ne_true
  rw [forward_eq m asic pipe hcpu] at hack ⊢
  by_cases hfanout : IngressParser.start port f = .recircFanout
  · rw [if_pos hfanout] at hack
    exact absurd (hcollect.symm.trans hack) Bool.false_ne_true
  rw [if_neg hfanout] at hack ⊢
  have hextracted : (switchingTable asic (collect m asic pipe port f)).extracted =
      IngressParser.start port f := by
    rw [switchingTable_extracted, collect_extracted]
  have hswitched : (switchingTable asic (collect m asic pipe port f)).md.bridgeHeader.isRoceAck = false := by
    rw [switchingTable_bridgeHeader, hcollect]
  unfold afterSwitching at hack ⊢
  rw [hextracted] at hack ⊢
  by_cases haggregate : IngressParser.start port f = .aggregate
  · rw [if_pos haggregate] at hack
    split at hack
    · rw [isRoceAck_withIcrc] at hack
      exact absurd (hswitched.symm.trans hack) Bool.false_ne_true
    · exact absurd (hswitched.symm.trans hack) Bool.false_ne_true
  rw [if_neg haggregate] at hack ⊢
  have hinitial : collect m asic pipe port f = initial asic pipe port f := by
    rw [collect]
    exact (if_neg haggregate).trans (if_neg hfanout)
  split at hack
  · rename_i hreflects
    rw [if_pos hreflects]
    rw [hinitial] at hreflects hack ⊢
    rw [Bool.and_eq_true, Bool.and_eq_true, decide_eq_true_eq, decide_eq_true_eq] at hreflects
    obtain ⟨⟨hcoll, hroce⟩, hopcode⟩ := hreflects
    rw [switchingTable_hdr] at hopcode
    refine ⟨hroce, hopcode, lookup_of_isColl rfl hcoll, ?_⟩
    rw [roceAckReflector] at hack ⊢
    rw [switchingTable_hdr] at hack ⊢
    cases hlookup : (asic.pipes pipe).roceAckReflector.lookup ⟨(initial asic pipe port f).hdr.ipv4.srcAddr,
        (initial asic pipe port f).hdr.roce.dstQp⟩ with
    | none =>
        rw [hlookup] at hack
        rw [← hinitial] at hack
        exact absurd (hswitched.symm.trans hack) Bool.false_ne_true
    | some dstQp => exact ⟨dstQp, hlookup, rfl⟩
  · split at hack
    · exact absurd (hswitched.symm.trans hack) Bool.false_ne_true
    · exact absurd (hswitched.symm.trans hack) Bool.false_ne_true

end Ingress

namespace Wire

section Reflected

theorem egress_of_roceAck (tables : PipeTables) (egressRid : BitVec 16) {bridge : BridgeHeader}
    (hunit : bridge.aggUnit = 65535) (hack : bridge.isRoceAck = true) (pad : BitVec 7) (ethernet : EthernetH)
    (ipv4 : Ipv4H) (udp : UdpH) (roce : RoceH) (ack : RoceAckH) (rest : List Bool) :
    egress tables egressRid (BridgeHeader.codec.emit (bridge, pad) ++
      (roceHeaders.emit (ethernet, ipv4, udp, roce) ++ (RoceAckH.codec.emit ack ++ rest))) =
      some (roceHeaders.emit (ethernet, ipv4.checksummed, udp, roce) ++ (RoceAckH.codec.emit { ack with
        icrc := referenceIcrc ipv4.checksummed udp roce (wireBytes [⟨ack.syndrome⟩, ⟨ack.msn⟩]) } ++ rest)) := by
  have hparse : Mpitofino.EgressParser.parse bridge = .roceAck := by
    rw [Mpitofino.EgressParser.parse, if_pos hunit, if_pos hack]
  have hbits : roceHeaders.emit (ethernet, ipv4, udp, roce) ++ (RoceAckH.codec.emit ack ++ rest) =
      (roceHeaders.prod RoceAckH.codec).emit ((ethernet, ipv4, udp, roce), ack) ++ rest :=
    (List.append_assoc ..).symm
  rw [egress, Codec.extract_emit_append, Option.bind_some]
  dsimp only
  rw [EgressParser.start, hparse]
  dsimp only
  rw [EgressParser.parseRoceAck, hbits, Codec.extract_emit_append, Option.map_some, Option.map_some,
    Egress.apply, hparse]
  simp only [egressHeaders, recircFanoutBits, Frame.blank, Option.elim_none, List.nil_append,
    List.append_assoc, egressAckIcrc_eq, referenceIcrc_checksummed]

end Reflected

end Wire

end Mpitofino
