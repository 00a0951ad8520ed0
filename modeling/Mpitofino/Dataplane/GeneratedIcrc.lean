import Mpitofino.Dataplane.Egress
import Mpitofino.Dataplane.IcrcReference
import Mpitofino.Dataplane.Pass

/-!
# The ICRC of generated packets

A packet that leaves the egress pipe with an ICRC in front of it, or as a reflected acknowledgement,
went through one ingress pass before. Both passes together write the reference value for the headers
and the payload that leave the switch.
-/

namespace Mpitofino

namespace Ingress

variable {m : Matcher} {asic : Asic} {pipe : PipeId} {port : PortId} {f : Frame}

theorem apply_of_unit (hcpu : ¬ FromCpu port f)
    (hunit : (apply m asic pipe port f).md.bridgeHeader.aggUnit ≠ 65535) :
    (apply m asic pipe port f).md.bridgeHeader.icrc =
        ingressIcrc (apply m asic pipe port f).hdr.aggregate ∧
      (apply m asic pipe port f).md.bridgeHeader.isRoceAck = false := by
  obtain ⟨aggUnit, hbridge, hhave⟩ := collect_bridgeHeader m asic pipe port f
  rw [forward_eq m asic pipe hcpu] at hunit ⊢
  have haggUnit : aggUnit ≠ 65535 := by
    split at hunit
    · rwa [hbridge] at hunit
    · rwa [afterSwitching_aggUnit, switchingTable_bridgeHeader, hbridge] at hunit
  obtain ⟨hstart, hhaveUnit⟩ := hhave haggUnit
  obtain ⟨hhdr, hheader⟩ := afterSwitching_of_unit asic pipe
    (switchingTable asic (collect m asic pipe port f))
    (by rw [switchingTable_extracted, collect_extracted, hstart])
    (by rw [switchingTable_aggHaveUnit, hhaveUnit])
  rw [if_neg (by rw [hstart]; decide), hheader, hhdr, switchingTable_bridgeHeader, hbridge]
  exact ⟨rfl, rfl⟩

end Ingress

namespace Egress

theorem apply_of_unit (tables : PipeTables) {bridge : BridgeHeader} (egressRid : BitVec 16) (f : Frame)
    (hunit : bridge.aggUnit ≠ 65535) (hicrc : bridge.icrc = ingressIcrc f.aggregate) :
    (apply tables bridge egressRid f).recircFanout =
      some (referenceIcrc (apply tables bridge egressRid f).ipv4 (apply tables bridge egressRid f).udp
        (apply tables bridge egressRid f).roce
        (payloadBytes (apply tables bridge egressRid f).aggregate)) := by
  have haggregate : (CollectivesDistributor.apply tables bridge egressRid f).aggregate =
      f.aggregate := by
    rw [CollectivesDistributor.apply]
    split <;> rfl
  rw [apply, EgressParser.parse, if_neg hunit]
  change some (egressIcrc _ _ _ _) = _
  rw [hicrc, egressIcrc_eq, ← haggregate]

theorem apply_of_isRoceAck (tables : PipeTables) {bridge : BridgeHeader} (egressRid : BitVec 16)
    (f : Frame) (hunit : bridge.aggUnit = 65535) (hack : bridge.isRoceAck = true) :
    (apply tables bridge egressRid f).roceAck.icrc =
      referenceIcrc (apply tables bridge egressRid f).ipv4 (apply tables bridge egressRid f).udp
        (apply tables bridge egressRid f).roce
        (wireBytes [⟨(apply tables bridge egressRid f).roceAck.syndrome⟩,
          ⟨(apply tables bridge egressRid f).roceAck.msn⟩]) := by
  rw [apply, EgressParser.parse, if_pos hunit, if_pos hack]
  exact egressAckIcrc_eq ..

end Egress

/-- **Generated ICRCs.** Whatever the tables and the packet, unless the CPU sends it out of a port of its
choice, the ICRC of a packet that an ingress and an egress pass generate is the reference value for its
headers and its payload. -/
theorem generated_icrc (m : Matcher) (asic : Asic) (pipe egressPipe : PipeId) (port : PortId)
    (egressRid : BitVec 16) (f : Frame) (hcpu : ¬ Ingress.FromCpu port f) :
    let s := Ingress.apply m asic pipe port f
    let out := Egress.apply (asic.pipes egressPipe) s.md.bridgeHeader egressRid s.hdr
    (s.md.bridgeHeader.aggUnit ≠ 65535 →
      out.recircFanout =
        some (referenceIcrc out.ipv4 out.udp out.roce (payloadBytes out.aggregate))) ∧
    (s.md.bridgeHeader.isRoceAck = true →
      out.roceAck.icrc = referenceIcrc out.ipv4 out.udp out.roce
        (wireBytes [⟨out.roceAck.syndrome⟩, ⟨out.roceAck.msn⟩])) := by
  refine ⟨fun hunit => ?_, fun hack => ?_⟩
  · exact Egress.apply_of_unit _ _ _ hunit (Ingress.apply_of_unit hcpu hunit).1
  · refine Egress.apply_of_isRoceAck _ _ _ ?_ hack
    by_contra hunit
    rw [(Ingress.apply_of_unit hcpu hunit).2] at hack
    contradiction

/-! ### A result and an acknowledgement -/

namespace SingleParticipant

/-- One participant at port 0, with the only entries its packets need. -/
def asic : Asic where
  pipes _ := ⟨FinTable.empty.put ⟨Ternary.exact 10, 1, Ternary.exact 0x100, Ternary.any⟩ ⟨3, 1, 0⟩,
    FinTable.empty, FinTable.empty.put ⟨3, 1⟩ ⟨1024, 6, 1, 10, 5⟩,
    FinTable.empty.put ⟨10, 0x100⟩ 5⟩
  chooseAction _ := FinTable.empty
  switchingTable := FinTable.empty.put 1024 .collective
  preNode := FinTable.empty
  preMgid := FinTable.empty
  regs _ := Registers.zero

def packet (opcode : BitVec 8) (length : BitVec 16) : Frame where
  ethernet := ⟨1024, 6, EtherType.ipv4⟩
  ipv4 := ⟨4, 5, 0, 20 + length, 0, 2, 0, 64, Ipv4Protocol.udp, 0, 10, 1⟩
  udp := ⟨49152, 4791, length, 0⟩
  roce := ⟨opcode, 0, 1, 0, 0, 0xffff, 0, 0x100, 0, 0, 7⟩
  aggregate w := BitVec.ofNat 32 w.val
  roceAck := ⟨0x1f, 1, 0⟩
  icrc := 0

theorem packet_icrc :
    (let s := Ingress.apply Matcher.first asic 0 0 (packet 6 280)
     let out := Egress.apply (asic.pipes 1) s.md.bridgeHeader 1 s.hdr
     out.recircFanout =
       some (referenceIcrc out.ipv4 out.udp out.roce (payloadBytes out.aggregate))) ∧
    (let s := Ingress.apply Matcher.first asic 0 0 (packet 17 28)
     let out := Egress.apply (asic.pipes 0) s.md.bridgeHeader 0 s.hdr
     out.roceAck.icrc = referenceIcrc out.ipv4 out.udp out.roce
       (wireBytes [⟨out.roceAck.syndrome⟩, ⟨out.roceAck.msn⟩])) :=
  ⟨(generated_icrc Matcher.first asic 0 1 0 1 (packet 6 280) (by decide)).1 (by decide +kernel),
    (generated_icrc Matcher.first asic 0 0 0 0 (packet 17 28) (by decide)).2 (by decide +kernel)⟩

end SingleParticipant

end Mpitofino
