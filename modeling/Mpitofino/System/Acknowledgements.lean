import Mpitofino.System.Refinement
import Mpitofino.System.TrafficManager

/-!
# Reflected acknowledgements

The queue pairs of the participants are connected to the switch, which receives no data itself: it sends the
acknowledgements of a participant back to it, readdressed to its queue pair. Of all packets these are the
ones that it reflects.
-/

namespace Mpitofino

open AsicDriver
open StateRepository (WellFormed)

/-- A packet is an acknowledgement of a participant to the collectives unit. -/
structure AckOf (asic : Asic) (p : Participant) (x : Wire.Parsed) : Prop where
  extracted : x.extracted = .roce
  opcode : x.hdr.roce.opcode = 17
  srcIp : x.hdr.ipv4.srcAddr = p.ip
  dstQp : x.hdr.roce.dstQp = p.fabricQp
  collective : asic.switchingTable.lookup x.hdr.ethernet.dstAddr = some .collective

/-- An acknowledgement leaves the switch where it came in, to its sender and from the address it was sent to,
with valid checksums, and is as it was otherwise. -/
structure ReturnsTo (asic : Asic) (p : Participant) (port : PortId) (x : Wire.Parsed) (s : IngressState)
    (out : List Bool) : Prop where
  regs : s.regs = asic.regs (pipeOf port)
  copies : ∀ ack trailer, x.payload = RoceAckH.codec.emit ack ++ trailer → ∀ xid, ∃ ipv4 icrc,
    let ethernet := { x.hdr.ethernet with
      dstAddr := x.hdr.ethernet.srcAddr, srcAddr := x.hdr.ethernet.dstAddr }
    let udp := { x.hdr.udp with srcPort := 4791 }
    let roce := { x.hdr.roce with dstQp := p.localQp }
    Wire.copies asic xid s out = [(port, Wire.roceHeaders.emit (ethernet, ipv4, udp, roce) ++
        (RoceAckH.codec.emit { ack with icrc := icrc } ++ trailer))] ∧
      { ipv4 with headerChecksum := x.hdr.ipv4.headerChecksum } =
        { x.hdr.ipv4 with srcAddr := x.hdr.ipv4.dstAddr, dstAddr := p.ip } ∧
      ipv4.ChecksumValid ∧
      icrc = referenceIcrc ipv4 udp roce (wireBytes [⟨ack.syndrome⟩, ⟨ack.msn⟩])

/-! ### The reflector -/

section Reflector

variable {channels : List CollectiveChannel} {asic : Asic} {rc : CollectiveChannel}

theorem lookup_roceAckReflector (h : Programmed channels asic) (hseparate : Separate channels)
    (haddresses : ∀ rc ∈ knownChannels channels, (rc.members.map fun p => (p.ip, p.fabricQp)).Nodup)
    (hrc : rc ∈ knownChannels channels) {p : Participant} {pipe : PipeId} (hp : p ∈ rc.onPipe pipe) :
    (asic.pipes pipe).roceAckReflector.lookup ⟨p.ip, p.fabricQp⟩ = some p.localQp := by
  rw [h.roceAckReflector]
  refine FinTable.lastWrite_eq_some
    (List.mem_flatMap.2 ⟨rc, hrc, List.mem_map.2 ⟨p, hp, rfl⟩⟩) fun dstQp hdstQp => ?_
  obtain ⟨rc', hrc', hwrite⟩ := List.mem_flatMap.1 hdstQp
  obtain ⟨p', hp', heq⟩ := List.mem_map.1 hwrite
  obtain ⟨hkey, rfl⟩ := Prod.mk.inj heq
  obtain ⟨hip, hqp⟩ := RoceAckReflectorKey.mk.inj hkey
  have hmem := List.mem_of_mem_filter hp
  have hmem' := List.mem_of_mem_filter hp'
  have hcommon : rc'.fabricQpCommon = rc.fabricQpCommon := by
    rw [← hseparate.fabricQps rc' hrc' p' hmem', ← hseparate.fabricQps rc hrc p hmem, hqp]
  obtain rfl := hseparate.commons rc' hrc' rc hrc hcommon
  rw [List.inj_on_of_nodup_map (haddresses rc' hrc) hmem' hmem (by rw [hip, hqp])]

theorem exists_of_lookup_roceAckReflector (h : Programmed channels asic) {pipe : PipeId}
    {k : RoceAckReflectorKey} {dstQp : IbQp}
    (hlookup : (asic.pipes pipe).roceAckReflector.lookup k = some dstQp) :
    ∃ rc ∈ knownChannels channels, ∃ p ∈ rc.onPipe pipe, k = ⟨p.ip, p.fabricQp⟩ := by
  rw [h.roceAckReflector] at hlookup
  obtain ⟨rc, hrc, hwrite⟩ := List.mem_flatMap.1 (FinTable.mem_of_lastWrite hlookup)
  obtain ⟨p, hp, heq⟩ := List.mem_map.1 hwrite
  exact ⟨rc, hrc, p, hp, (congrArg Prod.fst heq).symm⟩

end Reflector

/-! ### The passes of an acknowledgement -/

section Passes

variable {m : Matcher} {asic : Asic} {pipe : PipeId} {port : PortId} {f : Frame} {dstQp : IbQp}

theorem Ingress.apply_of_ack (hcpu : ¬ FromCpu port f) (hstart : IngressParser.start port f = .roce)
    (hopcode : f.roce.opcode = 17)
    (hcollective : asic.switchingTable.lookup f.ethernet.dstAddr = some .collective)
    (hlookup : (asic.pipes pipe).roceAckReflector.lookup ⟨f.ipv4.srcAddr, f.roce.dstQp⟩ = some dstQp) :
    apply m asic pipe port f = roceAckReflect dstQp
      { initial asic pipe port f with
        md := { (initial asic pipe port f).md with isColl := true } } := by
  have hcollect : collect m asic pipe port f = initial asic pipe port f := by
    have hextracted : (initial asic pipe port f).extracted = .roce := hstart
    rw [collect, if_neg (by rw [hextracted]; decide), if_neg (by rw [hextracted]; decide)]
  have hswitching : switchingTable asic (initial asic pipe port f) =
      { initial asic pipe port f with md := { (initial asic pipe port f).md with isColl := true } } := by
    have hlookup : asic.switchingTable.lookup (initial asic pipe port f).hdr.ethernet.dstAddr =
        some .collective := hcollective
    rw [switchingTable, hlookup]
    rfl
  rw [forward_eq m asic pipe hcpu, hstart, if_neg (by decide), hcollect, hswitching]
  generalize hs : ({ initial asic pipe port f with
    md := { (initial asic pipe port f).md with isColl := true } } : IngressState) = s
  have hextracted : s.extracted = .roce := by rw [← hs]; exact hstart
  have hcoll : s.md.isColl = true := by rw [← hs]
  have hhdr : s.hdr = f := by rw [← hs]; rfl
  unfold afterSwitching
  rw [if_neg (by rw [hextracted]; decide), hextracted, hcoll, hhdr, hopcode, if_pos (by decide),
    roceAckReflector, hhdr, hlookup]

theorem copies_of_unicast {xid : Nat} {s : IngressState} {out bits : List Bool} (hdrop : s.dropCtl = false)
    (hucast : s.ucastEgressPort = some port) (hmcast : s.mcastGrpA = none) (hbypass : s.bypassEgress = false)
    (hegress : Wire.egress (asic.pipes (pipeOf port)) 0 out = some bits) :
    Wire.copies asic xid s out = [(port, bits)] := by
  have hcopy : [(port, (0 : BitVec 16))].filterMap (fun x =>
      (Wire.egress (asic.pipes (pipeOf x.1)) x.2 out).map (x.1, ·)) = [(port, bits)] := by
    rw [List.filterMap_cons, List.filterMap_nil, hegress, Option.map_some]
  rw [Wire.copies, hdrop, hucast, hmcast, hbypass]
  exact hcopy

end Passes

section Return

variable {m : Matcher} {asic : Asic} {p : Participant} {port : PortId} {x : Wire.Parsed} {pkt : List Bool}

/-- An acknowledgement goes through both pipes back to the participant that the entry is for. -/
theorem AckOf.returnsTo (h : AckOf asic p x) (hport : port ≠ 64)
    (hx : Wire.IngressParser.start port pkt = some x)
    (hlookup : (asic.pipes (pipeOf port)).roceAckReflector.lookup ⟨p.ip, p.fabricQp⟩ = some p.localQp) :
    (Ingress.apply m asic (pipeOf port) port x.hdr).md.bridgeHeader.isRoceAck = true ∧
      ReturnsTo asic p port x (Ingress.apply m asic (pipeOf port) port x.hdr)
        (Wire.ingressDeparser (Ingress.apply m asic (pipeOf port) port x.hdr) x.payload) := by
  have hstart : IngressParser.start port x.hdr = .roce :=
    (Wire.IngressParser.start_eq_some hx).1.symm.trans h.extracted
  have happly := @Ingress.apply_of_ack m asic (pipeOf port) port x.hdr p.localQp (fun hcpu => hport hcpu.1)
    hstart h.opcode h.collective (by rw [h.srcIp, h.dstQp]; exact hlookup)
  have hextracted : (Ingress.initial asic (pipeOf port) port x.hdr).extracted = .roce := hstart
  rw [happly]
  refine ⟨rfl, rfl, fun ack trailer hpayload xid => ⟨_, _, copies_of_unicast rfl rfl rfl rfl ?_, ?_,
    Ipv4H.checksumValid_checksummed { x.hdr.ipv4 with srcAddr := x.hdr.ipv4.dstAddr, dstAddr := p.ip }, rfl⟩⟩
  · rw [Wire.ingressDeparser, hpayload, Ingress.roceAckReflect, hextracted, ← h.srcIp]
    exact Wire.egress_of_roceAck _ _ rfl rfl 0 _ _ _ _ ack trailer
  · exact Ipv4H.withChecksum_twice ..

end Return

/-- **Acknowledgements.** A packet at a port is reflected if and only if it is an acknowledgement of a
participant on the pipe of the port to its channel, and then it returns to that participant. -/
theorem reflects_iff {r : StateRepository} {asic : Asic} (hr : WellFormed r)
    (hprogrammed : Programmed r.getChannels asic)
    (haddresses : ∀ rc ∈ knownChannels r.getChannels,
      (rc.members.map fun p => (p.ip, p.fabricQp)).Nodup)
    (m : Matcher) {port : PortId} (hport : port ≠ 64) {pkt out : List Bool} {s : IngressState}
    {x : Wire.Parsed} (hx : Wire.IngressParser.start port pkt = some x)
    (h : Wire.ingress m asic (pipeOf port) port pkt = some (s, out)) :
    (s.md.bridgeHeader.isRoceAck = true ↔
      ∃ rc ∈ knownChannels r.getChannels, ∃ p ∈ rc.onPipe (pipeOf port), AckOf asic p x) ∧
    ∀ rc ∈ knownChannels r.getChannels, ∀ p ∈ rc.onPipe (pipeOf port), AckOf asic p x →
      ReturnsTo asic p port x s out := by
  have hseparate := separate_of_wellFormed hr
  obtain ⟨x', hx', rfl, rfl⟩ := Wire.ingress_eq_some h
  obtain rfl := Option.some.inj (hx.symm.trans hx')
  have hreturns : ∀ rc ∈ knownChannels r.getChannels, ∀ p ∈ rc.onPipe (pipeOf port), AckOf asic p x → _ :=
    fun rc hrc p hp hack => hack.returnsTo (m := m) hport hx
      (lookup_roceAckReflector hprogrammed hseparate haddresses hrc hp)
  refine ⟨⟨fun hack => ?_, ?_⟩, fun rc hrc p hp hack => (hreturns rc hrc p hp hack).2⟩
  · obtain ⟨hstart, hopcode, hcollective, dstQp, hlookup, -⟩ := Ingress.apply_of_reflected hack
    obtain ⟨rc, hrc, p, hp, hkey⟩ := exists_of_lookup_roceAckReflector hprogrammed hlookup
    obtain ⟨hip, hqp⟩ := RoceAckReflectorKey.mk.inj hkey
    exact ⟨rc, hrc, p, hp, (Wire.IngressParser.start_eq_some hx).1.trans hstart, hopcode, hip, hqp, hcollective⟩
  · rintro ⟨rc, hrc, p, hp, hack⟩
    exact (hreturns rc hrc p hp hack).1

/-! ### An acknowledgement -/

namespace Traffic.TwoPipes

/-- An acknowledgement of a participant, in bits. -/
def ackBits (p : Participant) : List Bool :=
  Wire.roceHeaders.emit (⟨1024, p.mac, EtherType.ipv4⟩,
    ⟨4, 5, 0, 48, 0, 2, 0, 64, Ipv4Protocol.udp, 0, p.ip, 1⟩, ⟨49152, 4791, 28, 0⟩,
    ⟨17, 0, 0, 0, 0, 0xffff, 0, p.fabricQp, 0, 0, 7⟩) ++ RoceAckH.codec.emit ⟨0x1f, 1, 0⟩

theorem ackBits_returned : ∃ x s out, Wire.IngressParser.start 0 (ackBits left) = some x ∧
    Wire.ingress Matcher.first asic 0 0 (ackBits left) = some (s, out) ∧
    s.md.bridgeHeader.isRoceAck = true ∧ ReturnsTo asic left 0 x s out := by
  have hparsed : ∃ x ∈ Wire.IngressParser.start 0 (ackBits left), x.extracted = .roce ∧
      x.hdr.roce.opcode = 17 ∧ x.hdr.ipv4.srcAddr = left.ip ∧ x.hdr.roce.dstQp = left.fabricQp ∧
      asic.switchingTable.lookup x.hdr.ethernet.dstAddr = some .collective := by
    decide +kernel
  obtain ⟨x, hx, hextracted, hopcode, hip, hqp, hcollective⟩ := hparsed
  have hack : AckOf asic left x := ⟨hextracted, hopcode, hip, hqp, hcollective⟩
  have hingress : Wire.ingress Matcher.first asic 0 0 (ackBits left) = some _ := congrArg (Option.map _) hx
  obtain ⟨hiff, hreturns⟩ := reflects_iff wellFormed_repository
    (programmed_of_initialSetup (distinct_of_wellFormed wellFormed_repository) programs_asic)
    (by decide) Matcher.first (by decide) hx hingress
  have hleft : left ∈ channel.onPipe (pipeOf 0) := by decide
  exact ⟨x, _, _, hx, hingress, hiff.2 ⟨channel, List.mem_singleton.2 rfl, left, hleft, hack⟩,
    hreturns channel (List.mem_singleton.2 rfl) left hleft hack⟩

end Traffic.TwoPipes

end Mpitofino
