import Mpitofino.Control.WorkerBitmap
import Mpitofino.Dataplane.Pass

/-!
# Slots

A packet with a unit touches one index of every register, the cell of its unit and packet number. What
a pass does to that cell and to the packet depends on nothing else in the registers: an ordinary pass
adds the packet to the cell, a recirculated one empties the cell.
-/

namespace Mpitofino

/-- What the registers of a pipe hold at one index. -/
structure Cell where
  values : Fin 32 → ValuePair
  bitmap : NodeBitmap

namespace Cell

def zero : Cell := ⟨fun _ => ⟨0, 0⟩, NodeBitmap.none⟩

/-- The cell after a packet was added. -/
def add (c : Cell) (bitmap : NodeBitmap) (agg : AggregateH) : Cell where
  values j := ⟨(c.values j).low + agg (Collectives.wordA j), (c.values j).high + agg (Collectives.wordB j)⟩
  bitmap := c.bitmap.union bitmap

/-- The words of a packet whose pass left the cell `c`: the first word of each unit is the sum. -/
def sumsA (c : Cell) (agg : AggregateH) : AggregateH := fun w =>
  if w.val % 2 = 0 then (c.values (Collectives.unitOf w)).low else agg w

/-- The words of a packet whose pass emptied the cell `c`: the second word of each unit is the sum. -/
def sumsB (c : Cell) (agg : AggregateH) : AggregateH := fun w =>
  if w.val % 2 = 0 then agg w else (c.values (Collectives.unitOf w)).high

end Cell

namespace Registers

def cell (regs : Registers) (i : BitVec 14) : Cell :=
  ⟨fun j => regs.values j i, ⟨regs.stateBitmapsLow i, regs.stateBitmapsHigh i⟩⟩

def setCell (regs : Registers) (i : BitVec 14) (c : Cell) : Registers where
  values j := Function.update (regs.values j) i (c.values j)
  stateBitmapsLow := Function.update regs.stateBitmapsLow i c.bitmap.low
  stateBitmapsHigh := Function.update regs.stateBitmapsHigh i c.bitmap.high

@[simp] theorem cell_setCell (regs : Registers) (i : BitVec 14) (c : Cell) :
    (regs.setCell i c).cell i = c := by
  simp [cell, setCell]

theorem cell_setCell_of_ne (regs : Registers) {i i' : BitVec 14} (c : Cell) (h : i' ≠ i) :
    (regs.setCell i c).cell i' = regs.cell i' := by
  simp [cell, setCell, Function.update_of_ne h]

end Registers

namespace IngressState

/-- What the traffic manager and the egress pipe get to see of a pass. -/
structure Outcome where
  hdr : Frame
  bridgeHeader : BridgeHeader
  dropCtl : Bool
  ucastEgressPort : Option PortId
  mcastGrpA : Option (BitVec 16)
  bypassEgress : Bool

def outcome (s : IngressState) : Outcome :=
  ⟨s.hdr, s.md.bridgeHeader, s.dropCtl, s.ucastEgressPort, s.mcastGrpA, s.bypassEgress⟩

end IngressState

namespace Collectives

variable (m : Matcher) (asic : Asic) (pipe : PipeId)

/-- The registers' index of a unit and a packet number. -/
def cellIndex (aggUnit : BitVec 16) (psn : IbPsn) : BitVec 14 := (unitIndex aggUnit psn).setWidth 14

theorem extractLsb'_unitIndex (aggUnit : BitVec 16) (psn : IbPsn) :
    (unitIndex aggUnit psn).extractLsb' 8 8 = aggUnit.setWidth 8 := by
  apply BitVec.eq_of_getLsbD_eq
  intro i hi
  have happend : (unitIndex aggUnit psn).getLsbD (8 + i) = aggUnit.getLsbD i := by
    refine (BitVec.getLsbD_append ..).trans ?_
    simp [hi]
  simp [hi, happend]

/-- `check_complete`, given the action it finds. -/
def act (a : Option CheckCompleteAction) (s : IngressState) : IngressState :=
  match a with
  | some (.checkCompleteTrue recircPort) =>
      { s with dropCtl := false, ucastEgressPort := some recircPort, bypassEgress := true }
  | some (.checkCompleteNextPipe port) =>
      { s with dropCtl := false, ucastEgressPort := some port, bypassEgress := true }
  | some (.checkCompleteDistribute mcastGrp) =>
      { s with dropCtl := false, mcastGrpA := some mcastGrp }
  | none => s

theorem checkComplete_eq_act (s : IngressState) : checkComplete m asic pipe s =
    act (m.checkComplete.pick (asic.pipes pipe).checkComplete (checkCompleteQuery s.md)) s := rfl

theorem act_with (a : Option CheckCompleteAction) (s : IngressState) (regs : Registers)
    (md : IngressMetadata) :
    act a { s with regs := regs, md := md } = { act a s with regs := regs, md := md } := by
  unfold act
  split <;> rfl

theorem act_hdr (a : Option CheckCompleteAction) (s : IngressState) : (act a s).hdr = s.hdr := by
  unfold act
  split <;> rfl

section Units

variable {s : IngressState}

theorem aggregationUnits_add (hadd : ∀ j, (asic.chooseAction j).lookup
    ⟨s.md.aggUnit.extractLsb' 8 8, s.md.aggIsClear⟩ = some .aggInt32Add) :
    aggregationUnits asic s =
      let i := s.md.aggUnit.setWidth 14
      let c := (s.regs.cell i).add NodeBitmap.none s.hdr.aggregate
      { s with
        regs := { s.regs with values := fun j => Function.update (s.regs.values j) i (c.values j) }
        hdr := { s.hdr with aggregate := c.sumsA s.hdr.aggregate } } := by
  have hunit : ∀ j a b, AggregationUnit.apply (asic.chooseAction j) s.md (s.regs.values j) a b =
      (Function.update (s.regs.values j) (s.md.aggUnit.setWidth 14)
          ⟨(s.regs.values j (s.md.aggUnit.setWidth 14)).low + a,
            (s.regs.values j (s.md.aggUnit.setWidth 14)).high + b⟩,
        (s.regs.values j (s.md.aggUnit.setWidth 14)).low + a, b) := by
    intro j a b
    rw [AggregationUnit.apply, hadd]
    rfl
  have hwords : (fun w : Fin 64 => if w.val % 2 = 0
      then (s.regs.values (unitOf w) (s.md.aggUnit.setWidth 14)).low +
        s.hdr.aggregate (wordA (unitOf w))
      else s.hdr.aggregate (wordB (unitOf w))) =
      ((s.regs.cell (s.md.aggUnit.setWidth 14)).add NodeBitmap.none s.hdr.aggregate).sumsA
        s.hdr.aggregate := by
    funext w
    by_cases hw : w.val % 2 = 0
    · simp [Cell.sumsA, Cell.add, Registers.cell, hw]
    · have hwB : wordB (unitOf w) = w := by
        ext
        simp only [wordB, unitOf]
        omega
      simp [Cell.sumsA, hw, hwB]
  simp only [aggregationUnits, hunit, hwords]
  rfl

theorem aggregationUnits_clear (hclear : ∀ j, (asic.chooseAction j).lookup
    ⟨s.md.aggUnit.extractLsb' 8 8, s.md.aggIsClear⟩ = some .aggInt32Clear) :
    aggregationUnits asic s =
      let i := s.md.aggUnit.setWidth 14
      { s with
        regs := { s.regs with values := fun j => Function.update (s.regs.values j) i ⟨0, 0⟩ }
        hdr := { s.hdr with aggregate := (s.regs.cell i).sumsB s.hdr.aggregate } } := by
  have hunit : ∀ j a b, AggregationUnit.apply (asic.chooseAction j) s.md (s.regs.values j) a b =
      (Function.update (s.regs.values j) (s.md.aggUnit.setWidth 14) ⟨0, 0⟩, a,
        (s.regs.values j (s.md.aggUnit.setWidth 14)).high) := by
    intro j a b
    rw [AggregationUnit.apply, hclear]
    rfl
  have hwords : (fun w : Fin 64 => if w.val % 2 = 0 then s.hdr.aggregate (wordA (unitOf w))
      else (s.regs.values (unitOf w) (s.md.aggUnit.setWidth 14)).high) =
      (s.regs.cell (s.md.aggUnit.setWidth 14)).sumsB s.hdr.aggregate := by
    funext w
    by_cases hw : w.val % 2 = 0
    · have hwA : wordA (unitOf w) = w := by
        ext
        simp only [wordA, unitOf]
        omega
      simp [Cell.sumsB, hw, hwA]
    · simp [Cell.sumsB, Registers.cell, hw]
  simp only [aggregationUnits, hunit, hwords]

theorem aggregationUnits_none (hnone : ∀ j, (asic.chooseAction j).lookup
    ⟨s.md.aggUnit.extractLsb' 8 8, s.md.aggIsClear⟩ = none) : aggregationUnits asic s = s := by
  have hunit : ∀ j a b, AggregationUnit.apply (asic.chooseAction j) s.md (s.regs.values j) a b =
      (s.regs.values j, a, b) := by
    intro j a b
    rw [AggregationUnit.apply, hnone]
  have hwords : (fun w : Fin 64 => if w.val % 2 = 0 then s.hdr.aggregate (wordA (unitOf w))
      else s.hdr.aggregate (wordB (unitOf w))) = s.hdr.aggregate := by
    funext w
    split
    · congr 1
      ext
      simp only [wordA, unitOf]
      omega
    · congr 1
      ext
      simp only [wordB, unitOf]
      omega
  simp only [aggregationUnits, hunit, hwords]

theorem apply_of_miss (hpick : m.unitSelector.pick (asic.pipes pipe).unitSelector
    (unitSelectorQuery s.hdr s.md.ingressPort) = none) (hunit : s.md.aggHaveUnit = false) :
    apply m asic pipe s = aggregationUnits asic (checkComplete m asic pipe s) := by
  have hselect : unitSelector m asic pipe s = s := by
    rw [unitSelector, hpick]
  have hlow : tblUpdateBitmapLow s = s := by
    rw [tblUpdateBitmapLow, hunit]
  have hhigh : tblUpdateBitmapHigh s = s := by
    rw [tblUpdateBitmapHigh, hunit]
  rw [apply, hselect, hlow, hhigh]

theorem cell_aggregationUnits {i : BitVec 14} (hi : i ≠ s.md.aggUnit.setWidth 14) :
    (aggregationUnits asic s).regs.cell i = s.regs.cell i := by
  have hunit : ∀ j a b, (AggregationUnit.apply (asic.chooseAction j) s.md (s.regs.values j) a b).1 i =
      s.regs.values j i := by
    intro j a b
    rw [AggregationUnit.apply]
    split
    · exact Function.update_of_ne hi _ _
    · exact Function.update_of_ne hi _ _
    · rfl
  simp only [aggregationUnits, Registers.cell, hunit]

theorem cell_tblUpdateBitmaps {i : BitVec 14} (hi : i ≠ s.md.aggUnit.setWidth 14) :
    (tblUpdateBitmapHigh (tblUpdateBitmapLow s)).regs.cell i = s.regs.cell i := by
  have hlow : (tblUpdateBitmapLow s).regs.cell i = s.regs.cell i ∧
      (tblUpdateBitmapLow s).md.aggUnit = s.md.aggUnit := by
    rw [tblUpdateBitmapLow]
    split <;> simp [Registers.cell, Function.update_of_ne hi]
  rw [← hlow.1, tblUpdateBitmapHigh]
  rw [← hlow.2] at hi
  split <;> simp [Registers.cell, Function.update_of_ne hi]

theorem tblUpdateBitmaps_aggUnit :
    (tblUpdateBitmapHigh (tblUpdateBitmapLow s)).md.aggUnit = s.md.aggUnit := by
  have hframe : ∀ (s : IngressState) (regs : Registers) (bitmap : NodeBitmap),
      ({ s with regs := regs, md := { s.md with nodeBitmap := bitmap } } : IngressState).md.aggUnit =
        s.md.aggUnit := fun _ _ _ => rfl
  rw [tblUpdateBitmapHigh_frame (g := fun s => s.md.aggUnit) _ hframe,
    tblUpdateBitmapLow_frame (g := fun s => s.md.aggUnit) _ hframe]

/-- Whatever the tables hold, a packet with a unit writes the index of its unit and number only. -/
theorem cell_apply {d : SelectAggUnit} {i : BitVec 14}
    (hpick : m.unitSelector.pick (asic.pipes pipe).unitSelector
      (unitSelectorQuery s.hdr s.md.ingressPort) = some d)
    (hi : i ≠ cellIndex d.aggUnit s.hdr.roce.psn) :
    (apply m asic pipe s).regs.cell i = s.regs.cell i := by
  have hselect : unitSelector m asic pipe s = selectAggUnit d s := by
    rw [unitSelector, hpick]
  have hunit : (selectAggUnit d s).md.aggUnit.setWidth 14 = cellIndex d.aggUnit s.hdr.roce.psn := rfl
  rw [apply, hselect, cell_aggregationUnits, checkComplete_regs, cell_tblUpdateBitmaps (hunit ▸ hi)]
  · rfl
  · rw [checkComplete_md, tblUpdateBitmaps_aggUnit]
    exact hunit ▸ hi

end Units

/-- The cell of a packet's unit after the packet was added. -/
def addedCell (d : SelectAggUnit) (s : IngressState) : Cell :=
  (s.regs.cell (cellIndex d.aggUnit s.hdr.roce.psn)).add ⟨d.nodeBitmapLow, d.nodeBitmapHigh⟩
    s.hdr.aggregate

section Selected

variable {d : SelectAggUnit} {s : IngressState}
  (hpick : m.unitSelector.pick (asic.pipes pipe).unitSelector
    (unitSelectorQuery s.hdr s.md.ingressPort) = some d)

include hpick

private theorem unitSelector_eq : unitSelector m asic pipe s = selectAggUnit d s := by
  rw [unitSelector, hpick]

theorem apply_add (hclear : s.md.aggIsClear = false)
    (hadd : ∀ j, (asic.chooseAction j).lookup ⟨d.aggUnit.setWidth 8, false⟩ = some .aggInt32Add) :
    apply m asic pipe s =
      let c := addedCell d s
      let s' := act (m.checkComplete.pick (asic.pipes pipe).checkComplete
        ⟨d.aggUnit.setWidth 8, c.bitmap, false⟩) (selectAggUnit d s)
      { s' with
        regs := s.regs.setCell (cellIndex d.aggUnit s.hdr.roce.psn) c
        hdr := { s.hdr with aggregate := c.sumsA s.hdr.aggregate }
        md := { (selectAggUnit d s).md with nodeBitmap := c.bitmap } } := by
  have hbitmaps : tblUpdateBitmapHigh (tblUpdateBitmapLow (selectAggUnit d s)) =
      { selectAggUnit d s with
        regs := { s.regs with
          stateBitmapsLow := Function.update s.regs.stateBitmapsLow
            (cellIndex d.aggUnit s.hdr.roce.psn) (addedCell d s).bitmap.low
          stateBitmapsHigh := Function.update s.regs.stateBitmapsHigh
            (cellIndex d.aggUnit s.hdr.roce.psn) (addedCell d s).bitmap.high }
        md := { (selectAggUnit d s).md with nodeBitmap := (addedCell d s).bitmap } } := by
    simp [tblUpdateBitmapHigh, tblUpdateBitmapLow, selectAggUnit, hclear, cellIndex, addedCell,
      Cell.add, Registers.cell, NodeBitmap.union]
  rw [apply, unitSelector_eq m asic pipe hpick, hbitmaps, checkComplete_eq_act, act_with,
    aggregationUnits_add]
  · simp only [checkCompleteQuery, selectAggUnit, extractLsb'_unitIndex, hclear, act_hdr]
    rfl
  · intro j
    simpa only [selectAggUnit, extractLsb'_unitIndex, hclear] using hadd j

theorem apply_clear (hclear : s.md.aggIsClear = true)
    (hzero : ∀ j, (asic.chooseAction j).lookup ⟨d.aggUnit.setWidth 8, true⟩ = some .aggInt32Clear) :
    apply m asic pipe s =
      let i := cellIndex d.aggUnit s.hdr.roce.psn
      let s' := act (m.checkComplete.pick (asic.pipes pipe).checkComplete
        ⟨d.aggUnit.setWidth 8, ⟨d.nodeBitmapLow, d.nodeBitmapHigh⟩, true⟩) (selectAggUnit d s)
      { s' with
        regs := s.regs.setCell i Cell.zero
        hdr := { s.hdr with aggregate := (s.regs.cell i).sumsB s.hdr.aggregate }
        md := (selectAggUnit d s).md } := by
  have hbitmaps : tblUpdateBitmapHigh (tblUpdateBitmapLow (selectAggUnit d s)) =
      { selectAggUnit d s with
        regs := { s.regs with
          stateBitmapsLow := Function.update s.regs.stateBitmapsLow
            (cellIndex d.aggUnit s.hdr.roce.psn) 0
          stateBitmapsHigh := Function.update s.regs.stateBitmapsHigh
            (cellIndex d.aggUnit s.hdr.roce.psn) 0 }
        md := (selectAggUnit d s).md } := by
    simp [tblUpdateBitmapHigh, tblUpdateBitmapLow, selectAggUnit, hclear, cellIndex]
  rw [apply, unitSelector_eq m asic pipe hpick, hbitmaps, checkComplete_eq_act, act_with,
    aggregationUnits_clear]
  · simp only [checkCompleteQuery, selectAggUnit, extractLsb'_unitIndex, hclear, act_hdr]
    rfl
  · intro j
    simpa only [selectAggUnit, extractLsb'_unitIndex, hclear] using hzero j

end Selected

end Collectives

/-! ### A pass on a cell -/

namespace Ingress

variable (m : Matcher) (asic : Asic) (pipe : PipeId) {port : PortId} {f : Frame} {d : SelectAggUnit}

def query (port : PortId) (f : Frame) : UnitSelectorQuery :=
  Collectives.unitSelectorQuery f port

theorem apply_of_aggregate (haggregate : IngressParser.start port f = .aggregate) :
    apply m asic pipe port f =
      forward asic pipe (Collectives.apply m asic pipe (initial asic pipe port f)) := by
  rw [apply_eq_forward, collect]
  exact congrArg _ (if_pos haggregate)

/-- A pass of a packet with a unit reads and writes the cell of its unit and number only. -/
theorem exists_cell_pass (haggregate : IngressParser.start port f = .aggregate)
    (hpick : m.unitSelector.pick (asic.pipes pipe).unitSelector (query port f) = some d)
    (hchoose : ∀ j isClear, (asic.chooseAction j).lookup ⟨d.aggUnit.setWidth 8, isClear⟩ =
      some (if isClear then .aggInt32Clear else .aggInt32Add)) :
    ∃ (new : Cell → Cell) (out : Cell → IngressState.Outcome),
      (∀ regs : PipeId → Registers,
        let i := Collectives.cellIndex d.aggUnit f.roce.psn
        let s := apply m { asic with regs := regs } pipe port f
        s.regs = (regs pipe).setCell i (new ((regs pipe).cell i)) ∧
          s.outcome = out ((regs pipe).cell i)) ∧
      (IngressParser.isRecirculationPort port = false →
        ∀ c, new c = c.add ⟨d.nodeBitmapLow, d.nodeBitmapHigh⟩ f.aggregate) := by
  have hclear : (initial asic pipe port f).md.aggIsClear =
      IngressParser.isRecirculationPort port := by
    simp [initial, IngressParser.metadata, haggregate]
  have hact : ∀ (regs : PipeId → Registers) (a : Option CheckCompleteAction) (r : Registers)
      (hdr : Frame) (md : IngressMetadata),
      ({ Collectives.act a (Collectives.selectAggUnit d (initial { asic with regs := regs } pipe port f))
        with regs := r, hdr := hdr, md := md } : IngressState) =
      { Collectives.act a (Collectives.selectAggUnit d (initial asic pipe port f))
        with regs := r, hdr := hdr, md := md } := by
    intro regs a r hdr md
    unfold Collectives.act
    split <;> rfl
  have houtcome : ∀ (s : IngressState) (regs : PipeId → Registers) (r : Registers),
      (forward { asic with regs := regs } pipe { s with regs := r }).outcome =
        (forward asic pipe s).outcome := by
    intro s regs r
    have h := congrArg IngressState.outcome (forward_withRegs asic pipe s r)
    exact h
  let s₀ := Collectives.selectAggUnit d (initial asic pipe port f)
  cases hport : IngressParser.isRecirculationPort port with
  | false =>
      let new (c : Cell) : Cell := c.add ⟨d.nodeBitmapLow, d.nodeBitmapHigh⟩ f.aggregate
      let after (c : Cell) : IngressState :=
        { Collectives.act (m.checkComplete.pick (asic.pipes pipe).checkComplete
            ⟨d.aggUnit.setWidth 8, (new c).bitmap, false⟩) s₀ with
          hdr := { f with aggregate := (new c).sumsA f.aggregate }
          md := { s₀.md with nodeBitmap := (new c).bitmap } }
      refine ⟨new, fun c => (forward asic pipe (after c)).outcome, fun regs => ?_, fun _ _ => rfl⟩
      dsimp only
      rw [apply_of_aggregate m _ pipe haggregate, Collectives.apply_add m { asic with regs := regs } pipe
        (s := initial { asic with regs := regs } pipe port f) hpick (hclear.trans hport)
        fun j => hchoose j false]
      dsimp only
      rw [hact, forward_regs]
      exact ⟨rfl, houtcome (after ((regs pipe).cell _)) regs _⟩
  | true =>
      let after (c : Cell) : IngressState :=
        { Collectives.act (m.checkComplete.pick (asic.pipes pipe).checkComplete
            ⟨d.aggUnit.setWidth 8, ⟨d.nodeBitmapLow, d.nodeBitmapHigh⟩, true⟩) s₀ with
          hdr := { f with aggregate := c.sumsB f.aggregate }
          md := s₀.md }
      refine ⟨fun _ => Cell.zero, fun c => (forward asic pipe (after c)).outcome, fun regs => ?_,
        fun hfalse => by contradiction⟩
      dsimp only
      rw [apply_of_aggregate m _ pipe haggregate, Collectives.apply_clear m { asic with regs := regs }
        pipe (s := initial { asic with regs := regs } pipe port f) hpick (hclear.trans hport)
        fun j => hchoose j true]
      dsimp only
      rw [hact, forward_regs]
      exact ⟨rfl, houtcome (after ((regs pipe).cell _)) regs _⟩

end Ingress

end Mpitofino
