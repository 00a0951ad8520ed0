import Mpitofino.Dataplane.Slot
import Mathlib.Algebra.BigOperators.Fin
import Mathlib.Data.BitVec

/-!
# What a cell holds

A slot of a pipe waits for a number of contributions, each the words of one packet. The cell holds the
contributions that are there: their sum in its values, and their bits in its bitmap. The pass that adds
the last of them puts the first word of every unit into the packet, and the recirculated pass the
second one, so that the packet leaves with the sum.
-/

namespace Mpitofino

def total {n : Nat} (input : Fin n → Option AggregateH) : AggregateH := ∑ k, (input k).getD 0

theorem total_none {n : Nat} : total (fun _ : Fin n => none) = 0 := by
  simp [total]

theorem total_update {n : Nat} {input : Fin n → Option AggregateH} {k : Fin n}
    (hk : input k = none) (v : AggregateH) :
    total (Function.update input k (some v)) = total input + v := by
  have hinput : ∀ k', (Function.update input k (some v) k').getD 0 =
      (input k').getD 0 + if k' = k then v else 0 := by
    intro k'
    by_cases h : k' = k
    · rw [h, Function.update_self, if_pos rfl, hk, Option.getD_some, Option.getD_none, zero_add]
    · rw [Function.update_of_ne h, if_neg h, add_zero]
  rw [total, Finset.sum_congr rfl fun k' _ => hinput k', Finset.sum_add_distrib,
    Finset.sum_ite_eq' Finset.univ k, if_pos (Finset.mem_univ k), total]

namespace Cell

structure Holds (c : Cell) {n : Nat} (input : Fin n → Option AggregateH) : Prop where
  low : ∀ j, (c.values j).low = total input (Collectives.wordA j)
  high : ∀ j, (c.values j).high = total input (Collectives.wordB j)
  bits : ∀ i < 64, c.bitmap.bit i = true ↔ ∃ h : i < n, (input ⟨i, h⟩).isSome

variable {n : Nat} {input : Fin n → Option AggregateH} {c : Cell}

theorem holds_zero : zero.Holds fun _ : Fin n => none := by
  refine ⟨fun j => ?_, fun j => ?_, fun i _ => ?_⟩
  · rw [total_none]
    rfl
  · rw [total_none]
    rfl
  · simp [zero]

theorem Holds.add (h : c.Holds input) (hn : n ≤ 64) {k : Fin n} (hk : input k = none)
    (v : AggregateH) :
    (c.add (NodeBitmap.nodeAt k) v).Holds (Function.update input k (some v)) := by
  refine ⟨fun j => ?_, fun j => ?_, fun i hi => ?_⟩
  · rw [total_update hk, Pi.add_apply, ← h.low]
    rfl
  · rw [total_update hk, Pi.add_apply, ← h.high]
    rfl
  · have hbit : (c.add (NodeBitmap.nodeAt k) v).bitmap.bit i = (c.bitmap.bit i || decide (i = k)) := by
      rw [Cell.add, NodeBitmap.bit_union, NodeBitmap.bit_nodeAt (k.isLt.trans_le hn) hi]
    rw [hbit, Bool.or_eq_true, h.bits i hi, decide_eq_true_iff]
    constructor
    · rintro (⟨hlt, hsome⟩ | rfl)
      · refine ⟨hlt, ?_⟩
        by_cases hik : (⟨i, hlt⟩ : Fin n) = k
        · rw [hik, Function.update_self]
          rfl
        · rwa [Function.update_of_ne hik]
      · exact ⟨k.isLt, by rw [Function.update_self]; rfl⟩
    · rintro ⟨hlt, hsome⟩
      by_cases hik : (⟨i, hlt⟩ : Fin n) = k
      · exact Or.inr (congrArg Fin.val hik)
      · rw [Function.update_of_ne hik] at hsome
        exact Or.inl ⟨hlt, hsome⟩

theorem Holds.bitmap_eq_fullAt_iff (h : c.Holds input) (hn : n ≤ 64) :
    c.bitmap = NodeBitmap.fullAt n ↔ ∀ k, (input k).isSome := by
  constructor
  · intro hfull k
    obtain ⟨_, hsome⟩ := (h.bits k (k.isLt.trans_le hn)).1 (by
      rw [hfull, NodeBitmap.bit_fullAt hn (k.isLt.trans_le hn), decide_eq_true k.isLt])
    exact hsome
  · intro hall
    refine NodeBitmap.ext_bit fun i hi => ?_
    rw [NodeBitmap.bit_fullAt hn hi, Bool.eq_iff_iff, h.bits i hi, decide_eq_true_iff]
    exact ⟨fun ⟨hlt, _⟩ => hlt, fun hlt => ⟨hlt, hall ⟨i, hlt⟩⟩⟩

theorem Holds.eq_zero (h : c.Holds input) (hnone : ∀ k, input k = none) : c = zero := by
  obtain rfl : input = fun _ => none := funext hnone
  obtain ⟨hlow, hhigh, hbits⟩ := h
  rw [total_none] at hlow hhigh
  have hvalues : c.values = zero.values := by
    funext j
    have hj : c.values j = ⟨(c.values j).low, (c.values j).high⟩ := rfl
    rw [hj, hlow, hhigh]
    rfl
  have hbitmap : c.bitmap = zero.bitmap := by
    refine NodeBitmap.ext_bit fun i hi => ?_
    rw [Bool.eq_iff_iff, hbits i hi]
    simp [zero]
  cases c
  exact Cell.mk.injEq .. ▸ ⟨hvalues, hbitmap⟩

theorem Holds.sumsA (h : c.Holds input) (agg : AggregateH) {w : Fin 64} (hw : w.val % 2 = 0) :
    c.sumsA agg w = total input w := by
  rw [Cell.sumsA, if_pos hw, h.low]
  exact congrArg _ (Fin.ext (by simp only [Collectives.wordA, Collectives.unitOf]; omega))

theorem Holds.sumsB (h : c.Holds input) {agg : AggregateH}
    (hagg : ∀ w : Fin 64, w.val % 2 = 0 → agg w = total input w) : c.sumsB agg = total input := by
  funext w
  rw [Cell.sumsB]
  split
  · rename_i hw
    exact hagg w hw
  · rename_i hw
    rw [h.high]
    exact congrArg _ (Fin.ext (by simp only [Collectives.wordB, Collectives.unitOf]; omega))

end Cell

/-! ### The outcome of a pass -/

namespace Ingress

open Collectives (cellIndex)

/-- What a packet with a unit leads to behind an action of `check_complete`. -/
def outcomeOf (a : Option CheckCompleteAction) (aggUnit : BitVec 16) (f : Frame) :
    IngressState.Outcome where
  hdr := f
  bridgeHeader := ⟨aggUnit, ingressIcrc f.aggregate, false⟩
  dropCtl := a.isNone
  ucastEgressPort :=
    match a with
    | some (.checkCompleteTrue port) => some port
    | some (.checkCompleteNextPipe port) => some port
    | _ => none
  mcastGrpA :=
    match a with
    | some (.checkCompleteDistribute mcastGrp) => some mcastGrp
    | _ => none
  bypassEgress :=
    match a with
    | some (.checkCompleteTrue _) => true
    | some (.checkCompleteNextPipe _) => true
    | _ => false

variable (m : Matcher) (asic : Asic) (pipe : PipeId) {port : PortId} {f : Frame} {d : SelectAggUnit}

private theorem outcome_withIcrc (s : IngressState) {icrc : BitVec 32}
    (hbridge : s.md.bridgeHeader = ⟨d.aggUnit, 0, false⟩) :
    ({ s with md := { s.md with bridgeHeader := { s.md.bridgeHeader with icrc := icrc } } } :
      IngressState).outcome =
      { s.outcome with bridgeHeader := ⟨d.aggUnit, icrc, false⟩ } := by
  rw [hbridge]
  rfl

theorem forward_outcome {s : IngressState} (hcpu : s.md.cpoffload = none)
    (haggregate : s.extracted = .aggregate) (hunit : s.md.aggHaveUnit = true)
    (hbridge : s.md.bridgeHeader = ⟨d.aggUnit, 0, false⟩)
    (hswitch : asic.switchingTable.lookup s.hdr.ethernet.dstAddr = some .collective) :
    (forward asic pipe s).outcome =
      { s.outcome with bridgeHeader := ⟨d.aggUnit, ingressIcrc s.hdr.aggregate, false⟩ } := by
  have hne : s.extracted ≠ .recircFanout := by
    rw [haggregate]
    decide
  have hswitching : switchingTable asic s = { s with md := { s.md with isColl := true } } := by
    rw [switchingTable, hswitch]
    rfl
  rw [forward, hcpu]
  dsimp only
  rw [if_neg hne, hswitching, afterSwitching]
  dsimp only
  rw [if_pos haggregate, if_pos hunit]
  exact outcome_withIcrc { s with md := { s.md with isColl := true } } hbridge

private theorem forward_act (a : Option CheckCompleteAction) (regs : Registers) {hdr : Frame}
    {md : IngressMetadata} (haggregate : IngressParser.start port f = .aggregate)
    (hcpu : md.cpoffload = none) (hunit : md.aggHaveUnit = true)
    (hbridge : md.bridgeHeader = ⟨d.aggUnit, 0, false⟩)
    (hswitch : asic.switchingTable.lookup hdr.ethernet.dstAddr = some .collective) :
    let s : IngressState := { Collectives.act a (Collectives.selectAggUnit d
      (initial asic pipe port f)) with regs := regs, hdr := hdr, md := md }
    (forward asic pipe s).regs = regs ∧
      (forward asic pipe s).outcome = outcomeOf a d.aggUnit hdr := by
  intro s
  have hextracted : s.extracted = .aggregate := by
    rcases a with _ | (_ | _ | _) <;> exact haggregate
  refine ⟨forward_regs asic pipe s, ?_⟩
  rw [forward_outcome asic pipe hcpu hextracted hunit hbridge hswitch]
  rcases a with _ | (_ | _ | _) <;> rfl

section Selected

variable (haggregate : IngressParser.start port f = .aggregate) (hcpu : port ≠ 64)
  (hswitch : asic.switchingTable.lookup f.ethernet.dstAddr = some .collective)
  (hpick : m.unitSelector.pick (asic.pipes pipe).unitSelector (query port f) = some d)
  (hchoose : ∀ j isClear, (asic.chooseAction j).lookup ⟨d.aggUnit.setWidth 8, isClear⟩ =
    some (if isClear then .aggInt32Clear else .aggInt32Add))

include haggregate hcpu hswitch hpick hchoose

theorem apply_add (hport : IngressParser.isRecirculationPort port = false) :
    let c := ((asic.regs pipe).cell (cellIndex d.aggUnit f.roce.psn)).add
      ⟨d.nodeBitmapLow, d.nodeBitmapHigh⟩ f.aggregate
    (apply m asic pipe port f).regs = (asic.regs pipe).setCell (cellIndex d.aggUnit f.roce.psn) c ∧
      (apply m asic pipe port f).outcome =
        outcomeOf (m.checkComplete.pick (asic.pipes pipe).checkComplete
          ⟨d.aggUnit.setWidth 8, c.bitmap, false⟩) d.aggUnit
          { f with aggregate := c.sumsA f.aggregate } := by
  have hclear : (initial asic pipe port f).md.aggIsClear = false := by
    simp [initial, IngressParser.metadata, hport]
  have hoffload : (initial asic pipe port f).md.cpoffload = none := if_neg hcpu
  rw [apply_of_aggregate m asic pipe haggregate, Collectives.apply_add m asic pipe
    (s := initial asic pipe port f) hpick hclear fun j => hchoose j false]
  exact forward_act asic pipe _ _ haggregate hoffload rfl rfl hswitch

theorem apply_clear (hport : IngressParser.isRecirculationPort port = true) :
    (apply m asic pipe port f).regs =
        (asic.regs pipe).setCell (cellIndex d.aggUnit f.roce.psn) Cell.zero ∧
      (apply m asic pipe port f).outcome =
        outcomeOf (m.checkComplete.pick (asic.pipes pipe).checkComplete
          ⟨d.aggUnit.setWidth 8, ⟨d.nodeBitmapLow, d.nodeBitmapHigh⟩, true⟩) d.aggUnit
          { f with aggregate :=
            ((asic.regs pipe).cell (cellIndex d.aggUnit f.roce.psn)).sumsB f.aggregate } := by
  have hclear : (initial asic pipe port f).md.aggIsClear = true := by
    simp [initial, IngressParser.metadata, haggregate, hport]
  have hoffload : (initial asic pipe port f).md.cpoffload = none := if_neg hcpu
  rw [apply_of_aggregate m asic pipe haggregate, Collectives.apply_clear m asic pipe
    (s := initial asic pipe port f) hpick hclear fun j => hchoose j true]
  exact forward_act asic pipe _ _ haggregate hoffload rfl rfl hswitch

end Selected

end Ingress

end Mpitofino
