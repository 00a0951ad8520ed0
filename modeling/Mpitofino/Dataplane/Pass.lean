import Mpitofino.Dataplane.Ingress

/-!
# One ingress pass

What each table of the collectives unit leaves alone, and from it what a pass leaves alone: the unit
selector decides whether a packet has a unit, and nothing behind it revises that.
-/

namespace Mpitofino

/-- The headers of a packet whose payload is aggregated. -/
structure Frame.IsAggregate (f : Frame) : Prop where
  etherType : f.ethernet.etherType = EtherType.ipv4
  protocol : f.ipv4.protocol = Ipv4Protocol.udp
  dstPort : f.udp.dstPort = 4791
  length : f.udp.length = 280

theorem IngressParser.start_of_isAggregate {port : PortId} {f : Frame} (hf : f.IsAggregate)
    (hport : pipeOf port = 0 ∨ pipeOf port = 3) : start port f = .aggregate := by
  have hpipe : ∀ port : PortId, pipeOf port = 0 ∨ pipeOf port = 3 →
      ¬ port &&& 0x180 = 128 ∧ ¬ port &&& 0x180 = 256 := by
    decide +kernel
  have hparse : parseEthernet f = .aggregate := by
    rw [parseEthernet, if_pos hf.etherType, parseIpv4, if_pos hf.protocol, parseUdp,
      if_pos hf.dstPort, parseRoce, hf.length]
    rfl
  rw [start, if_neg (hpipe port hport).1, if_neg (hpipe port hport).2, hparse, ite_self]

namespace Collectives

variable (m : Matcher) (asic : Asic) (pipe : PipeId) (s : IngressState)

section Frame

@[simp] theorem checkComplete_md : (checkComplete m asic pipe s).md = s.md := by
  rw [checkComplete]
  split <;> rfl

@[simp] theorem checkComplete_hdr : (checkComplete m asic pipe s).hdr = s.hdr := by
  rw [checkComplete]
  split <;> rfl

@[simp] theorem checkComplete_regs : (checkComplete m asic pipe s).regs = s.regs := by
  rw [checkComplete]
  split <;> rfl

@[simp] theorem checkComplete_extracted :
    (checkComplete m asic pipe s).extracted = s.extracted := by
  rw [checkComplete]
  split <;> rfl

theorem tblUpdateBitmapLow_frame {T : Type} {g : IngressState → T}
    (hg : ∀ (s : IngressState) regs bitmap,
      g { s with regs := regs, md := { s.md with nodeBitmap := bitmap } } = g s) :
    g (tblUpdateBitmapLow s) = g s := by
  rw [tblUpdateBitmapLow]
  split
  · exact hg ..
  · exact hg s _ s.md.nodeBitmap
  · rfl

theorem tblUpdateBitmapHigh_frame {T : Type} {g : IngressState → T}
    (hg : ∀ (s : IngressState) regs bitmap,
      g { s with regs := regs, md := { s.md with nodeBitmap := bitmap } } = g s) :
    g (tblUpdateBitmapHigh s) = g s := by
  rw [tblUpdateBitmapHigh]
  split
  · exact hg ..
  · exact hg s _ s.md.nodeBitmap
  · rfl

theorem apply_frame {T : Type} {g : IngressState → T}
    (hbitmap : ∀ (s : IngressState) regs bitmap,
      g { s with regs := regs, md := { s.md with nodeBitmap := bitmap } } = g s)
    (hcheck : ∀ s, g (checkComplete m asic pipe s) = g s)
    (hunits : ∀ s, g (aggregationUnits asic s) = g s) :
    g (apply m asic pipe s) = g (unitSelector m asic pipe s) := by
  rw [apply, hunits, hcheck, tblUpdateBitmapHigh_frame _ hbitmap,
    tblUpdateBitmapLow_frame _ hbitmap]

theorem apply_extracted : (apply m asic pipe s).extracted = s.extracted := by
  rw [apply_frame (g := IngressState.extracted) m asic pipe s (fun _ _ _ => rfl)
    (checkComplete_extracted m asic pipe) fun _ => rfl, unitSelector]
  split <;> rfl

theorem apply_cpoffload : (apply m asic pipe s).md.cpoffload = s.md.cpoffload := by
  rw [apply_frame (g := fun s => s.md.cpoffload) m asic pipe s (fun _ _ _ => rfl)
    (fun s => by rw [checkComplete_md]) fun _ => rfl, unitSelector]
  split <;> rfl

theorem apply_bridgeHeader : (apply m asic pipe s).md.bridgeHeader =
    (unitSelector m asic pipe s).md.bridgeHeader :=
  apply_frame (g := fun s => s.md.bridgeHeader) m asic pipe s (fun _ _ _ => rfl)
    (fun s => by rw [checkComplete_md]) fun _ => rfl

theorem apply_aggHaveUnit : (apply m asic pipe s).md.aggHaveUnit =
    (unitSelector m asic pipe s).md.aggHaveUnit :=
  apply_frame (g := fun s => s.md.aggHaveUnit) m asic pipe s (fun _ _ _ => rfl)
    (fun s => by rw [checkComplete_md]) fun _ => rfl

end Frame

end Collectives

namespace Ingress

variable (m : Matcher) (asic : Asic) (pipe : PipeId)

/-- A packet that the CPU sends out of a port of its choice. -/
def FromCpu (port : PortId) (f : Frame) : Prop := port = 64 ∧ f.cpoffload ≠ 65535

instance (port : PortId) (f : Frame) : Decidable (FromCpu port f) :=
  inferInstanceAs (Decidable (_ ∧ _))

def collect (port : PortId) (f : Frame) : IngressState :=
  let s := initial asic pipe port f
  if s.extracted = .aggregate then Collectives.apply m asic pipe s
  else if s.extracted = .recircFanout then recircFanout s
  else s

theorem apply_eq_forward (port : PortId) (f : Frame) :
    apply m asic pipe port f = forward asic pipe (collect m asic pipe port f) := rfl

theorem collect_extracted (port : PortId) (f : Frame) :
    (collect m asic pipe port f).extracted = IngressParser.start port f := by
  rw [collect]
  split
  · exact Collectives.apply_extracted ..
  · split <;> rfl

theorem collect_cpoffload (port : PortId) (f : Frame) :
    (collect m asic pipe port f).md.cpoffload = if port = 64 then some f.cpoffload else none := by
  rw [collect]
  split
  · exact Collectives.apply_cpoffload ..
  · split <;> rfl

theorem collect_bridgeHeader (port : PortId) (f : Frame) :
    ∃ aggUnit, (collect m asic pipe port f).md.bridgeHeader = ⟨aggUnit, 0, false⟩ ∧
      (aggUnit ≠ 65535 → IngressParser.start port f = .aggregate ∧
        (collect m asic pipe port f).md.aggHaveUnit = true) := by
  by_cases haggregate : (initial asic pipe port f).extracted = .aggregate
  · rw [collect, if_pos haggregate, Collectives.apply_bridgeHeader, Collectives.apply_aggHaveUnit,
      Collectives.unitSelector]
    split
    · exact ⟨_, rfl, fun _ => ⟨haggregate, rfl⟩⟩
    · exact ⟨65535, rfl, fun hne => absurd rfl hne⟩
  · refine ⟨65535, ?_, fun hne => absurd rfl hne⟩
    rw [collect, if_neg haggregate]
    split <;> rfl

/-- Behind the collectives unit a packet goes through the Ethernet switch, unless it carries its ICRC
in front of it or the CPU sent it to a port. -/
theorem forward_eq {port : PortId} {f : Frame} (hcpu : ¬ FromCpu port f) :
    apply m asic pipe port f =
      if IngressParser.start port f = .recircFanout then collect m asic pipe port f
      else afterSwitching asic pipe (switchingTable asic (collect m asic pipe port f)) := by
  rw [apply_eq_forward, forward, collect_cpoffload, collect_extracted]
  by_cases hport : port = 64
  · have hoffload : f.cpoffload = 65535 := by
      by_contra hne
      exact hcpu ⟨hport, hne⟩
    have hstart : IngressParser.start port f ≠ .recircFanout := by
      rw [IngressParser.start, if_pos hport, IngressParser.parseEthernet, IngressParser.parseIpv4,
        IngressParser.parseUdp, IngressParser.parseRoce]
      split_ifs <;> decide
    rw [if_pos hport, hoffload, if_neg hstart]
    rfl
  · rw [if_neg hport]

theorem start_of_fanOut {port port' : PortId} (hport : adaptRecircFanoutPort port = some port')
    (f : Frame) : port ≠ 64 ∧ IngressParser.start port f = .recircFanout := by
  rw [adaptRecircFanoutPort] at hport
  rw [IngressParser.start]
  by_cases h64 : port = 64
  · subst h64
    contradiction
  · refine ⟨h64, ?_⟩
    rw [if_neg h64]
    split_ifs at hport ⊢
    · rfl
    · rfl

/-- A packet at a fan-out port leaves on the port that is adapted from it. -/
theorem apply_of_fanOut {port port' : PortId} (hport : adaptRecircFanoutPort port = some port')
    (f : Frame) : apply m asic pipe port f = recircFanout (initial asic pipe port f) := by
  obtain ⟨h64, hstart⟩ := start_of_fanOut hport f
  have hextracted : (initial asic pipe port f).extracted = .recircFanout := hstart
  rw [forward_eq m asic pipe fun hcpu => h64 hcpu.1, if_pos hstart, collect, hextracted,
    if_neg nofun, if_pos rfl]

section Switching

variable (s : IngressState)

@[simp] theorem switchingTable_extracted : (switchingTable asic s).extracted = s.extracted := by
  rw [switchingTable]
  split <;> rfl

@[simp] theorem switchingTable_hdr : (switchingTable asic s).hdr = s.hdr := by
  rw [switchingTable]
  split <;> rfl

@[simp] theorem switchingTable_bridgeHeader :
    (switchingTable asic s).md.bridgeHeader = s.md.bridgeHeader := by
  rw [switchingTable]
  split <;> rfl

@[simp] theorem switchingTable_aggHaveUnit :
    (switchingTable asic s).md.aggHaveUnit = s.md.aggHaveUnit := by
  rw [switchingTable]
  split <;> rfl

theorem roceAckReflector_aggUnit :
    (roceAckReflector asic pipe s).md.bridgeHeader.aggUnit = s.md.bridgeHeader.aggUnit := by
  rw [roceAckReflector]
  split <;> rfl

private theorem aggUnit_withIcrc (icrc : BitVec 32) :
    ({ s with md := { s.md with bridgeHeader := { s.md.bridgeHeader with icrc := icrc } } } :
      IngressState).md.bridgeHeader.aggUnit = s.md.bridgeHeader.aggUnit :=
  rfl

theorem afterSwitching_of_unit (haggregate : s.extracted = .aggregate)
    (hunit : s.md.aggHaveUnit = true) :
    (afterSwitching asic pipe s).hdr = s.hdr ∧
      (afterSwitching asic pipe s).md.bridgeHeader =
        { s.md.bridgeHeader with icrc := ingressIcrc s.hdr.aggregate } := by
  constructor <;> simp only [afterSwitching, haggregate, hunit, if_true]

theorem afterSwitching_aggUnit :
    (afterSwitching asic pipe s).md.bridgeHeader.aggUnit = s.md.bridgeHeader.aggUnit := by
  unfold afterSwitching
  split
  · split
    · exact aggUnit_withIcrc s _
    · rfl
  · split
    · exact roceAckReflector_aggUnit asic pipe s
    · split <;> rfl

theorem switchingTable_withRegs (regs : Registers) :
    switchingTable asic { s with regs := regs } = { switchingTable asic s with regs := regs } := by
  unfold switchingTable
  dsimp only
  generalize (asic.switchingTable.lookup s.hdr.ethernet.dstAddr).getD .flood = action
  cases action <;> rfl

theorem roceAckReflector_withRegs (regs : Registers) :
    roceAckReflector asic pipe { s with regs := regs } =
      { roceAckReflector asic pipe s with regs := regs } := by
  unfold roceAckReflector
  dsimp only
  generalize (asic.pipes pipe).roceAckReflector.lookup ⟨s.hdr.ipv4.srcAddr, s.hdr.roce.dstQp⟩ = dstQp
  cases dstQp <;> rfl

theorem afterSwitching_withRegs (regs : Registers) :
    afterSwitching asic pipe { s with regs := regs } =
      { afterSwitching asic pipe s with regs := regs } := by
  unfold afterSwitching
  rw [roceAckReflector_withRegs]
  split_ifs <;> rfl

theorem forward_withRegs (regs : Registers) :
    forward asic pipe { s with regs := regs } = { forward asic pipe s with regs := regs } := by
  unfold forward
  rw [switchingTable_withRegs, afterSwitching_withRegs]
  dsimp only
  cases s.md.cpoffload with
  | none => dsimp only; split_ifs <;> rfl
  | some portId => dsimp only; split_ifs <;> rfl

theorem forward_regs : (forward asic pipe s).regs = s.regs := by
  have h := congrArg IngressState.regs (forward_withRegs asic pipe s s.regs)
  exact h

theorem roceAckReflector_aggregate :
    (roceAckReflector asic pipe s).hdr.aggregate = s.hdr.aggregate := by
  rw [roceAckReflector]
  split <;> rfl

theorem afterSwitching_aggregate :
    (afterSwitching asic pipe s).hdr.aggregate = s.hdr.aggregate := by
  unfold afterSwitching
  split
  · split <;> rfl
  · split
    · exact roceAckReflector_aggregate asic pipe s
    · split <;> rfl

theorem forward_aggregate : (forward asic pipe s).hdr.aggregate = s.hdr.aggregate := by
  have hswitched : (afterSwitching asic pipe (switchingTable asic s)).hdr.aggregate =
      s.hdr.aggregate := by
    rw [afterSwitching_aggregate, switchingTable_hdr]
  rw [forward]
  split
  · split
    · rfl
    · exact hswitched
  · split
    · rfl
    · exact hswitched

end Switching

end Ingress

end Mpitofino
