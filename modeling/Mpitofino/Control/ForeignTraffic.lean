import Mpitofino.Control.Isolation
import Mpitofino.Dataplane.Egress

/-!
# Traffic that is not aggregated

The aggregation units are applied to every packet with an aggregate header. A packet without a unit
keeps the initial `agg_unit`, 65535, and the tables see eight bits of it: the unit 255.
-/

namespace Mpitofino

namespace AsicDriver

/-- A packet with an aggregate header comes in at a front-panel port, and no selector entry matches. -/
structure Foreign (asic : Asic) (a : Arrival) : Prop where
  port : a.1 ∈ frontPanelPorts
  aggregate : IngressParser.start a.1 a.2 = .aggregate
  miss : ∀ e ∈ (asic.pipes (pipeOf a.1)).unitSelector.entries, ¬ e.1.Hits (Ingress.query a.1 a.2)

/-- The packet leaves all registers unchanged, and leaves the switch with the words it came with. -/
structure Untouched (m : Matcher) (asic : Asic) (regs : PipeId → Registers) (a : Arrival) : Prop where
  registers : regsAfter m asic regs a = regs
  words : ∀ tables egressRid, (Egress.apply tables (pass m asic regs a).md.bridgeHeader egressRid
    (pass m asic regs a).hdr).aggregate = a.2.aggregate

def Notified (asic : Asic) (channels : List CollectiveChannel) (asic' : Asic) : Prop :=
  onStRepoChannels channels asic = .ok asic'

section Passes

variable (m : Matcher) {asic : Asic} {a : Arrival}

theorem exists_pass_of_miss (haggregate : IngressParser.start a.1 a.2 = .aggregate)
    (hpick : m.unitSelector.pick (asic.pipes (pipeOf a.1)).unitSelector (Ingress.query a.1 a.2) = none)
    (regs : PipeId → Registers) :
    ∃ s : IngressState, s.md.aggUnit = 65535 ∧
      s.md.aggIsClear = IngressParser.isRecirculationPort a.1 ∧ s.regs = regs (pipeOf a.1) ∧
      s.hdr = a.2 ∧ pass m asic regs a = Ingress.forward { asic with regs := regs } (pipeOf a.1)
        (Collectives.aggregationUnits { asic with regs := regs } s) := by
  let s₀ := Ingress.initial { asic with regs := regs } (pipeOf a.1) a.1 a.2
  refine ⟨Collectives.checkComplete m { asic with regs := regs } (pipeOf a.1) s₀, ?_, ?_, ?_, ?_, ?_⟩
  · rw [Collectives.checkComplete_md]
    rfl
  · rw [Collectives.checkComplete_md]
    simp [s₀, Ingress.initial, IngressParser.metadata, haggregate]
  · rw [Collectives.checkComplete_regs]
    rfl
  · rw [Collectives.checkComplete_hdr]
    rfl
  · rw [pass, Ingress.apply_of_aggregate _ _ _ haggregate]
    exact congrArg _ (Collectives.apply_of_miss m { asic with regs := regs } (pipeOf a.1) hpick rfl)

theorem pass_of_miss (haggregate : IngressParser.start a.1 a.2 = .aggregate)
    (hpick : m.unitSelector.pick (asic.pipes (pipeOf a.1)).unitSelector (Ingress.query a.1 a.2) = none)
    (hnone : ∀ j isClear, (asic.chooseAction j).lookup ⟨255, isClear⟩ = none)
    (regs : PipeId → Registers) : (pass m asic regs a).regs = regs (pipeOf a.1) ∧
      (pass m asic regs a).hdr.aggregate = a.2.aggregate := by
  obtain ⟨s, hunit, hclear, hregs, hhdr, hpass⟩ := exists_pass_of_miss m haggregate hpick regs
  have hsame : Collectives.aggregationUnits { asic with regs := regs } s = s := by
    refine Collectives.aggregationUnits_none _ fun j => ?_
    rw [hunit]
    exact hnone j _
  rw [hpass, hsame, Ingress.forward_regs, Ingress.forward_aggregate, hregs, hhdr]
  exact ⟨rfl, rfl⟩

theorem Foreign.pick_eq_none (h : Foreign asic a) :
    m.unitSelector.pick (asic.pipes (pipeOf a.1)).unitSelector (Ingress.query a.1 a.2) = none :=
  m.unitSelector.pick_eq_none h.miss

theorem Foreign.untouched (h : Foreign asic a)
    (hnone : ∀ j isClear, (asic.chooseAction j).lookup ⟨255, isClear⟩ = none)
    (regs : PipeId → Registers) : Untouched m asic regs a := by
  obtain ⟨hregs, hwords⟩ := pass_of_miss m h.aggregate (h.pick_eq_none m) hnone regs
  constructor
  · rw [regsAfter, hregs, Function.update_eq_self]
  · intro tables egressRid
    rw [Egress.apply_aggregate, hwords]

theorem Foreign.not_untouched (h : Foreign asic a) (hport : IngressParser.isRecirculationPort a.1 = false)
    (hadd : ∀ j, (asic.chooseAction j).lookup ⟨255, false⟩ = some .aggInt32Add)
    (hword : a.2.aggregate (Collectives.wordA 0) ≠ 0) (regs : PipeId → Registers) :
    ¬ Untouched m asic regs a := by
  intro hsame
  obtain ⟨s, hunit, hclear, hregs, hhdr, hpass⟩ :=
    exists_pass_of_miss m h.aggregate (h.pick_eq_none m) regs
  have hafter := congrFun hsame.registers (pipeOf a.1)
  rw [regsAfter, Function.update_self, hpass, Ingress.forward_regs, Collectives.aggregationUnits_add,
    ← hregs] at hafter
  · have hvalue := congrArg (fun r : Registers => (r.values 0 (s.md.aggUnit.setWidth 14)).low) hafter
    simp only [Function.update_self, Cell.add, Registers.cell, add_eq_left] at hvalue
    rw [hhdr] at hvalue
    exact hword hvalue
  · intro j
    rw [hunit, hclear, hport]
    exact hadd j

theorem regsAfter_of_selectedUnit_none (hsel : selectedUnit m asic a = none)
    (hnone : ∀ j isClear, (asic.chooseAction j).lookup ⟨255, isClear⟩ = none)
    (regs : PipeId → Registers) : regsAfter m asic regs a = regs := by
  have hpass : (pass m asic regs a).regs = regs (pipeOf a.1) := by
    rw [selectedUnit] at hsel
    split at hsel
    · rename_i haggregate
      exact (pass_of_miss m haggregate (Option.map_eq_none_iff.1 hsel) hnone regs).1
    · rename_i haggregate
      rw [pass, Ingress.apply_eq_forward, Ingress.forward_regs, Ingress.collect]
      refine (congrArg IngressState.regs (if_neg haggregate)).trans ?_
      split <;> rfl
  rw [regsAfter, hpass, Function.update_eq_self]

/-- The registers after the pass of a packet with a unit: whatever the tables hold, the cells of other
units stay. -/
theorem cell_regsAfter_of_selectedUnit {aggUnit : BitVec 16}
    (hsel : selectedUnit m asic a = some aggUnit) (regs : PipeId → Registers) {pipe : PipeId}
    {i : BitVec 14} (hi : i.toNat / 256 ≠ aggUnit.toNat % 64) :
    (regsAfter m asic regs a pipe).cell i = (regs pipe).cell i := by
  rw [selectedUnit] at hsel
  split at hsel
  · rename_i haggregate
    obtain ⟨d, hpick, rfl⟩ := Option.map_eq_some_iff.1 hsel
    rw [regsAfter]
    by_cases hpipe : pipe = pipeOf a.1
    · subst hpipe
      have hne : i ≠ Collectives.cellIndex d.aggUnit a.2.roce.psn := by
        rintro rfl
        rw [cellIndex_toNat] at hi
        omega
      rw [Function.update_self, pass, Ingress.apply_of_aggregate _ _ _ haggregate, Ingress.forward_regs]
      exact Collectives.cell_apply m { asic with regs := regs } (pipeOf a.1)
        (s := Ingress.initial { asic with regs := regs } (pipeOf a.1) a.1 a.2) hpick hne
    · rw [Function.update_of_ne hpipe]
  · contradiction

end Passes

/-! ### What the selectors match -/

def Addressed (k : UnitSelectorKey) : Prop :=
  (∃ rc p, k = participantKey rc p ∧ p.ip ≠ 0) ∨
    ∃ rc port, k = interPipeKey rc port ∧ port ∉ frontPanelPorts

theorem addressed_of_notified {asic asic' : Asic} {channels : List CollectiveChannel}
    (h : Notified asic channels asic')
    (hasic : ∀ pipe, ∀ e ∈ (asic.pipes pipe).unitSelector.entries, Addressed e.1) :
    ∀ pipe, ∀ e ∈ (asic'.pipes pipe).unitSelector.entries, Addressed e.1 := by
  rintro pipe ⟨k, d⟩ he
  rw [FinTable.mem_entries_iff, (onStRepoChannels_ok h).unitSelector] at he
  obtain ⟨he, -⟩ := Option.filter_eq_some_iff.1 he
  rcases Option.or_eq_some_iff.1 he with hwrite | ⟨-, hold⟩
  · obtain ⟨rc, hrc, hwrite⟩ := List.mem_flatMap.1 (FinTable.mem_of_lastWrite hwrite)
    have hknown := CollectiveChannel.allNodesKnown_iff.1 (List.mem_filter.1 hrc).2
    rcases mem_selectorWrites_cases hwrite with ⟨i, p, hp, rfl, -⟩ | ⟨-, -, ⟨rfl, -⟩ | ⟨rfl, -⟩⟩
    · exact Or.inl ⟨rc, p, rfl, hknown p (List.mem_of_mem_filter (List.mem_of_getElem? hp))⟩
    · exact Or.inr ⟨rc, 448, rfl, by decide⟩
    · exact Or.inr ⟨rc, 452, rfl, by decide⟩
  · exact hasic pipe (k, d) ((asic.pipes pipe).unitSelector.mem_entries_iff.2 hold)

/-- A packet that no station has sent. -/
def unaddressed : Arrival :=
  (0,
    { ethernet := ⟨1, 2, EtherType.ipv4⟩
      ipv4 := ⟨4, 5, 0, 300, 0, 2, 0, 64, Ipv4Protocol.udp, 0, 0, 7⟩
      udp := ⟨49152, 4791, 280, 0⟩
      roce := ⟨6, 0, 1, 0, 0, 0xffff, 0, 0x100, 0, 0, 0⟩
      aggregate := fun _ => 1
      roceAck := ⟨0, 0, 0⟩
      icrc := 0 })

theorem foreign_unaddressed {asic : Asic}
    (hasic : ∀ pipe, ∀ e ∈ (asic.pipes pipe).unitSelector.entries, Addressed e.1) :
    Foreign asic unaddressed := by
  refine ⟨by decide, by decide, fun e he hhits => ?_⟩
  rcases hasic _ e he with ⟨rc, p, hkey, hip⟩ | ⟨rc, port, hkey, hport⟩
  · rw [hkey, hits_participantKey] at hhits
    exact hip hhits.1.symm
  · rw [hkey, hits_interPipeKey] at hhits
    rw [← hhits.2.2] at hport
    exact hport (by decide)

/-! ### Every notification -/

/-- The units are programmed for the unit 255 exactly when a known channel has it. -/
theorem lookup_chooseAction_sentinel {asic asic' : Asic} {channels : List CollectiveChannel}
    (h : Notified asic channels asic') (j : Fin 32) (isClear : Bool) :
    (asic'.chooseAction j).lookup ⟨255, isClear⟩ =
      if ∃ rc ∈ knownChannels channels, rc.aggUnit = 255 then
        some (if isClear then .aggInt32Clear else .aggInt32Add)
      else none := by
  have hreconciled := onStRepoChannels_ok h
  rw [hreconciled.chooseAction]
  by_cases hunit : ∃ rc ∈ knownChannels channels, rc.aggUnit = 255
  · rw [if_pos hunit]
    obtain ⟨rc, hrc, hunit⟩ := hunit
    have hwrite : FinTable.lastWrite ⟨255, isClear⟩ (chooseActionTable channels) =
        some (if isClear then .aggInt32Clear else .aggInt32Add) := by
      refine FinTable.lastWrite_eq_some (List.mem_flatMap.2 ⟨rc, hrc, ?_⟩) fun action haction => ?_
      · cases isClear <;> simp [chooseActionWrites, hunit]
      · obtain ⟨rc', -, hmem⟩ := List.mem_flatMap.1 haction
        simp only [chooseActionWrites, List.mem_cons, List.not_mem_nil, or_false, Prod.mk.injEq,
          ChooseActionKey.mk.injEq] at hmem
        rcases hmem with ⟨⟨-, rfl⟩, rfl⟩ | ⟨⟨-, rfl⟩, rfl⟩ <;> rfl
    rw [hwrite, Option.some_or, Option.filter_some_pos]
    exact aggUnitInUse_iff.2 ⟨rc, hrc, by rw [hunit]; rfl⟩
  · rw [if_neg hunit, Option.filter_eq_none_iff]
    intro action _ hinUse
    obtain ⟨rc, hrc, heq⟩ := aggUnitInUse_iff.1 hinUse
    exact hunit ⟨rc, hrc, BitVec.eq_of_toNat_eq heq⟩

theorem untouched_iff_of_notified (m : Matcher) {asic asic' : Asic} {channels : List CollectiveChannel}
    (h : Notified asic channels asic')
    (hasic : ∀ pipe, ∀ e ∈ (asic.pipes pipe).unitSelector.entries, Addressed e.1) :
    (∀ regs a, Foreign asic' a → Untouched m asic' regs a) ↔
      ∀ rc ∈ knownChannels channels, rc.aggUnit ≠ 255 := by
  constructor
  · intro huntouched rc hrc hunit
    have hforeign := foreign_unaddressed (addressed_of_notified h hasic)
    refine hforeign.not_untouched m rfl (fun j => ?_) (by decide) (fun _ => Registers.zero)
      (huntouched _ _ hforeign)
    rw [lookup_chooseAction_sentinel h, if_pos ⟨rc, hrc, hunit⟩]
    rfl
  · intro hunits regs a hforeign
    refine hforeign.untouched m (fun j isClear => ?_) regs
    rw [lookup_chooseAction_sentinel h, if_neg]
    rintro ⟨rc, hrc, hunit⟩
    exact hunits rc hrc hunit

/-- **Foreign traffic.** After every notification, foreign packets leave all registers unchanged and
keep their words if and only if no known channel has the unit 255. -/
theorem run_untouched_iff (m : Matcher) (mac : MacAddr) (run : List (List CollectiveChannel × Asic))
    (hrun : Along Notified (initialSetup mac) run) :
    ∀ x ∈ run, (∀ regs a, Foreign x.2 a → Untouched m x.2 regs a) ↔
      ∀ rc ∈ knownChannels x.1, rc.aggUnit ≠ 255 := by
  have hstart : ∀ pipe, ∀ e ∈ ((initialSetup mac).pipes pipe).unitSelector.entries, Addressed e.1 :=
    fun _ _ he => by contradiction
  generalize initialSetup mac = asic at hrun hstart
  induction run generalizing asic with
  | nil => simp
  | cons x run ih =>
      obtain ⟨hnotified, hrun⟩ := hrun
      intro y hy
      rcases List.mem_cons.1 hy with rfl | hy
      · exact untouched_iff_of_notified m hnotified hstart
      · exact ih _ hrun (addressed_of_notified hnotified hstart) y hy

/-! ### A channel with the last unit -/

namespace LastUnit

def stray : Arrival :=
  (4, { unaddressed.2 with ipv4 := { unaddressed.2.ipv4 with srcAddr := 99, dstAddr := 77 } })

def channels (aggUnit : BitVec 16) : List CollectiveChannel := [Neighbours.channel aggUnit 0]

theorem first_untouched : ∃ asic, Notified (initialSetup 1024) (channels 0) asic ∧
    ∀ regs a, Foreign asic a → Untouched Matcher.first asic regs a := by
  obtain ⟨asic, hok⟩ := @exists_onStRepoChannels_initialSetup (channels 0) (by decide) 1024
  have hunits : ∀ rc ∈ knownChannels (channels 0), rc.aggUnit ≠ 255 := by decide
  exact ⟨asic, hok, (run_untouched_iff Matcher.first 1024 [(channels 0, asic)] ⟨hok, trivial⟩ _
    List.mem_cons_self).2 hunits⟩

theorem last_touched : ∃ asic, Notified (initialSetup 1024) (channels 255) asic ∧
    Foreign asic stray ∧ ¬ Untouched Matcher.first asic (fun _ => Registers.zero) stray := by
  obtain ⟨asic, hok⟩ := @exists_onStRepoChannels_initialSetup (channels 255) (by decide) 1024
  have hforeign : Foreign asic stray := by
    refine ⟨by decide, by decide, ?_⟩
    rintro ⟨k, d⟩ he
    rw [FinTable.mem_entries_iff, (onStRepoChannels_ok hok).unitSelector] at he
    obtain ⟨he, -⟩ := Option.filter_eq_some_iff.1 he
    rcases Option.or_eq_some_iff.1 he with hwrite | ⟨-, hold⟩
    · have hmiss : ∀ e ∈ selectorTable (channels 255) 0, ¬ e.1.Hits (Ingress.query stray.1 stray.2) := by
        decide
      exact hmiss _ (FinTable.mem_of_lastWrite hwrite)
    · contradiction
  refine ⟨asic, hok, hforeign, hforeign.not_untouched _ rfl (fun j => ?_) (by decide) _⟩
  rw [lookup_chooseAction_sentinel hok, if_pos ⟨_, List.mem_cons_self, rfl⟩]
  rfl

end LastUnit

end AsicDriver

end Mpitofino
