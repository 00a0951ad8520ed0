import Mpitofino.Control.CpuInterface
import Mpitofino.System.PlainTraffic

/-!
# The port of the CPU
-/

namespace Mpitofino

open AsicDriver

namespace IngressParser

/-- The parser finds no transport header. -/
def NoTransport (port : PortId) (f : Frame) : Prop :=
  start port f = .ethernet ∨ start port f = .ipv4 ∨ start port f = .udp

theorem NoTransport.ne {port : PortId} {f : Frame} (h : NoTransport port f) :
    start port f ≠ .recircFanout ∧ start port f ≠ .aggregate ∧ start port f ≠ .roce := by
  rcases h with h | h | h <;> rw [h] <;> decide

end IngressParser

namespace Ingress

variable {m : Matcher} {asic : Asic} {pipe : PipeId} {port : PortId} {f : Frame}

theorem collect_of_noTransport (h : IngressParser.NoTransport port f) :
    collect m asic pipe port f = initial asic pipe port f := by
  have hextracted : (initial asic pipe port f).extracted = IngressParser.start port f := rfl
  rw [collect, hextracted]
  rcases h with h | h | h <;> rw [h] <;> rfl

theorem apply_of_fromCpu (h : IngressParser.NoTransport port f) (hcpu : FromCpu port f) :
    apply m asic pipe port f = { initial asic pipe port f with
      ucastEgressPort := some (f.cpoffload.setWidth 9), dropCtl := false } := by
  obtain ⟨rfl, hportId⟩ := hcpu
  have hoffload : (initial asic pipe 64 f).md.cpoffload = some f.cpoffload := rfl
  rw [apply_eq_forward, collect_of_noTransport h, forward, hoffload]
  dsimp only
  rw [if_pos hportId]

theorem apply_of_noTransport (h : IngressParser.NoTransport port f) (hcpu : ¬ FromCpu port f) :
    apply m asic pipe port f =
      if (switchingTable asic (initial asic pipe port f)).md.isColl then
        { switchingTable asic (initial asic pipe port f) with ucastEgressPort := some 64 }
      else switchingTable asic (initial asic pipe port f) := by
  obtain ⟨hfanout, haggregate, hroce⟩ := h.ne
  have hextracted : (switchingTable asic (initial asic pipe port f)).extracted = IngressParser.start port f :=
    switchingTable_extracted ..
  rw [forward_eq m asic pipe hcpu, if_neg hfanout, collect_of_noTransport h]
  rw [← hextracted] at haggregate hroce
  unfold afterSwitching
  rw [if_neg haggregate, if_neg (by
    rw [decide_eq_false hroce, Bool.and_false, Bool.false_and]
    exact Bool.false_ne_true)]

end Ingress

namespace PlainSwitch

open PacketProcessor

def targets (t : PlainSwitch) (port : PortId) (dstAddr : MacAddr) : List PortId :=
  match (t.asic.switchingTable.lookup dstAddr).getD .flood with
  | .send port' => [port']
  | .flood => (t.asic.replicas mcastFlood port.toNat).map Prod.fst
  | .bcast => (t.asic.replicas mcastBcast port.toNat).map Prod.fst
  | .drop => []
  | .collective => [64]

section Passes

variable {m : Matcher} {t : PlainSwitch} {port : PortId} {f : Frame} {pkt : List Bool} {x : Wire.Parsed}

theorem apply_targets (h : IngressParser.NoTransport port f) :
    let s := Ingress.apply m t.asic (pipeOf port) port f
    (s.md.aggHaveUnit = false ∧ s.md.bridgeHeader.isRoceAck = false ∧ s.bypassEgress = false) ∧
      (if s.dropCtl then []
        else (s.ucastEgressPort.map fun p => (p, (0 : BitVec 16))).toList ++
          ((s.mcastGrpA.map fun mgid => t.asic.replicas mgid port.toNat).getD [])).map Prod.fst =
      if Ingress.FromCpu port f then [f.cpoffload.setWidth 9] else t.targets port f.ethernet.dstAddr := by
  by_cases hcpu : Ingress.FromCpu port f
  · rw [Ingress.apply_of_fromCpu h hcpu, if_pos hcpu]
    exact ⟨⟨rfl, rfl, rfl⟩, rfl⟩
  · rw [Ingress.apply_of_noTransport h hcpu, if_neg hcpu, targets, Ingress.switchingTable]
    have hdst : (Ingress.initial t.asic (pipeOf port) port f).hdr.ethernet.dstAddr = f.ethernet.dstAddr := rfl
    rw [hdst]
    cases (t.asic.switchingTable.lookup f.ethernet.dstAddr).getD .flood with
    | send | flood | bcast | drop | collective => exact ⟨⟨rfl, rfl, rfl⟩, rfl⟩

/-- What a packet without a transport header does: it leaves the registers alone, and the switch with its
bits, where the CPU wants it or where the Ethernet switch sends it. -/
theorem outputs_of_noTransport (hfree : t.asic.SentinelFree (pipeOf port))
    (hx : Wire.IngressParser.start port pkt = some x) (h : IngressParser.NoTransport port x.hdr) :
    (t.afterPacket m port pkt).asic.regs = t.asic.regs ∧
    t.outputs m port pkt = (if Ingress.FromCpu port x.hdr then [x.hdr.cpoffload.setWidth 9]
      else t.targets port x.hdr.ethernet.dstAddr).map
        fun p => (p, pkt.drop (Wire.IngressParser.offload port)) := by
  have hingress : Wire.ingress m t.asic (pipeOf port) port pkt =
      some (Ingress.apply m t.asic (pipeOf port) port x.hdr,
        Wire.ingressDeparser (Ingress.apply m t.asic (pipeOf port) port x.hdr) x.payload) := by
    rw [Wire.ingress, hx]
    rfl
  have hextracted : (Ingress.apply m t.asic (pipeOf port) port x.hdr).extracted ≠ .recircFanout := by
    rw [Ingress.apply_extracted]
    exact h.ne.1
  obtain ⟨⟨hunit, hack, hbypass⟩, htargets⟩ := apply_targets (m := m) (t := t) h
  obtain ⟨hregs, htransparent⟩ := Wire.transparent_of_no_unit hfree hingress hextracted hunit hack
  refine ⟨?_, ?_⟩
  · rw [afterPacket, hx]
    dsimp only
    rw [hregs, Function.update_eq_self]
  · rw [outputs, hingress]
    dsimp only
    rw [copies_of_transparent hbypass htransparent, ← htargets, List.map_map]
    rfl

end Passes

/-! ### Octets -/

section Octets

variable {m : Matcher} {t : PlainSwitch} {port : PortId} {ptr : Bytes}

theorem start_cpu (hdr : Bytes) (portId : BitVec 16) :
    Wire.IngressParser.start 64 (bitsOf (sendPacket (htons portId ++ hdr))) =
      Wire.IngressParser.parseEthernet { Frame.blank with cpoffload := portId } (bitsOf hdr) := by
  have hpseudo : (bitsOf (List.replicate 12 0 ++ [0x08, 0x00])).length = 14 * 8 := rfl
  rw [Wire.IngressParser.start, if_pos rfl, Wire.IngressParser.parseCpoffload, sendPacket, bitsOf_append,
    if_pos (by rw [List.length_append, hpseudo]; omega), List.drop_left' hpseudo, bitsOf_append, bitsOf_htons,
    Codec.extract_emit_append]
  rfl

theorem offload_cpu (portId : BitVec 16) (ptr : Bytes) :
    (bitsOf (sendPacket (htons portId ++ ptr))).drop (Wire.IngressParser.offload 64) = bitsOf ptr := by
  have hfront : (bitsOf (List.replicate 12 0 ++ [0x08, 0x00] ++ htons portId)).length =
      Wire.IngressParser.offload 64 := by
    rw [length_bitsOf]
    rfl
  rw [sendPacket, ← List.append_assoc, bitsOf_append, List.drop_left' hfront]

theorem noTransport_of_parsed {port : PortId} {pkt : List Bool} {x : Wire.Parsed}
    (hx : Wire.IngressParser.start port pkt = some x)
    (h : x.extracted = .ethernet ∨ x.extracted = .ipv4 ∨ x.extracted = .udp) :
    IngressParser.NoTransport port x.hdr := by
  rwa [(Wire.IngressParser.start_eq_some hx).1] at h

theorem exists_start_of_noRoce (h : NoRoce ptr) (hport : port ∈ frontPanelPorts) : ∃ x,
    Wire.IngressParser.start port (bitsOf ptr) = some x ∧ x.hdr.ethernet = ethernetOf ptr ∧
      IngressParser.NoTransport port x.hdr := by
  have hports : ∀ port ∈ frontPanelPorts, port ≠ 64 ∧ ¬ port &&& 0x180 = 128 ∧ ¬ port &&& 0x180 = 256 := by
    decide
  obtain ⟨h64, h128, h256⟩ := hports port hport
  obtain ⟨x, hx, hethernet, hextracted⟩ := parseEthernet_of_noRoce h Frame.blank
  have hstart : Wire.IngressParser.start port (bitsOf ptr) = some x := by
    rw [Wire.IngressParser.start, if_neg h64, if_neg h128, if_neg h256, hx]
  exact ⟨x, hstart, hethernet, noTransport_of_parsed hstart hextracted⟩

theorem outputs_of_noRoce (hfree : t.asic.SentinelFree (pipeOf port)) (h : NoRoce ptr)
    (hport : port ∈ frontPanelPorts) : (t.afterPacket m port (bitsOf ptr)).asic.regs = t.asic.regs ∧
      t.outputs m port (bitsOf ptr) =
        (t.targets port (ethernetOf ptr).dstAddr).map fun p => (p, bitsOf ptr) := by
  have h64 : port ≠ 64 := fun heq => absurd (heq ▸ hport) (by decide)
  obtain ⟨x, hx, hethernet, hplain⟩ := exists_start_of_noRoce h hport
  obtain ⟨hregs, houtputs⟩ := outputs_of_noTransport (m := m) hfree hx hplain
  refine ⟨hregs, ?_⟩
  rw [houtputs, if_neg fun hcpu => h64 hcpu.1, hethernet, Wire.IngressParser.offload, if_neg h64, List.drop_zero]

/-- A packet from the CPU goes out of the port it names, or where the Ethernet switch sends it. -/
theorem outputs_sendPacket (hfree : t.asic.SentinelFree 0) (h : NoRoce ptr) (portId : BitVec 16) :
    (t.afterPacket m 64 (bitsOf (sendPacket (htons portId ++ ptr)))).asic.regs = t.asic.regs ∧
      t.outputs m 64 (bitsOf (sendPacket (htons portId ++ ptr))) =
        (if portId ≠ 65535 then [portId.setWidth 9] else t.targets 64 (ethernetOf ptr).dstAddr).map
          fun p => (p, bitsOf ptr) := by
  obtain ⟨x, hx, hethernet, hextracted⟩ := parseEthernet_of_noRoce h { Frame.blank with cpoffload := portId }
  have hcpoffload : x.hdr.cpoffload = portId := (Wire.IngressParser.parseEthernet_eq_some hx).2.2.1
  rw [← start_cpu] at hx
  have hfree : t.asic.SentinelFree (pipeOf 64) := hfree
  obtain ⟨hregs, houtputs⟩ := outputs_of_noTransport (m := m) hfree hx (noTransport_of_parsed hx hextracted)
  refine ⟨hregs, ?_⟩
  have hcpu : Ingress.FromCpu 64 x.hdr ↔ portId ≠ 65535 := by
    rw [← hcpoffload]
    exact and_iff_right rfl
  rw [houtputs, offload_cpu, hethernet, hcpoffload]
  simp only [hcpu]

end Octets

end PlainSwitch

end Mpitofino
