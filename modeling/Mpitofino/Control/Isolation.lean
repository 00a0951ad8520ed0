import Mpitofino.Control.HistoryIndependence
import Mpitofino.Control.Multicast
import Mpitofino.Control.Selection

/-!
# Isolation of channels

The registers' index of a packet is `agg_unit[7:0] ++ psn[7:0]` cut to 14 bits, so two channels with
selector entries on one pipe have cells of their own exactly when their units differ modulo 64.
`get_free_agg_unit` hands out 256 units. An entry stays on the pipe of a participant that moved away, so
it is the entries that count, not the participants.
-/

namespace Mpitofino

namespace AsicDriver

open FinTable (lastWrite)
open StateRepository (Call Called Promised WellFormed afterCall call call_ok call_eq_afterCall commonOf
  updateIn)

abbrev Arrival := PortId × Frame

section Passes

variable (m : Matcher) (asic : Asic)

/-- The unit that the selector of the port's pipe gives a packet. -/
def selectedUnit (a : Arrival) : Option (BitVec 16) :=
  if IngressParser.start a.1 a.2 = .aggregate then
    (m.unitSelector.pick (asic.pipes (pipeOf a.1)).unitSelector (Ingress.query a.1 a.2)).map
      SelectAggUnit.aggUnit
  else none

def pass (regs : PipeId → Registers) (a : Arrival) : IngressState :=
  Ingress.apply m { asic with regs := regs } (pipeOf a.1) a.1 a.2

def regsAfter (regs : PipeId → Registers) (a : Arrival) : PipeId → Registers :=
  Function.update regs (pipeOf a.1) (pass m asic regs a).regs

/-- What the passes of the packets of one unit among all arrivals put out. -/
def outcomesOf (aggUnit : BitVec 16) : (PipeId → Registers) → List Arrival → List IngressState.Outcome
  | _, [] => []
  | regs, a :: as =>
      if selectedUnit m asic a = some aggUnit then
        (pass m asic regs a).outcome :: outcomesOf aggUnit (regsAfter m asic regs a) as
      else outcomesOf aggUnit (regsAfter m asic regs a) as

/-- Registers that hold the same in every cell but one. -/
def SameExcept (pipe : PipeId) (i : BitVec 14) (regs regs' : PipeId → Registers) : Prop :=
  ∀ pipe' i', (pipe', i') ≠ (pipe, i) → (regs pipe').cell i' = (regs' pipe').cell i'

/-- The pass writes a cell, or what it puts out or writes elsewhere depends on it. -/
def Uses (a : Arrival) (pipe : PipeId) (i : BitVec 14) : Prop :=
  (∃ regs, (regsAfter m asic regs a pipe).cell i ≠ (regs pipe).cell i) ∨
    ∃ regs regs', SameExcept pipe i regs regs' ∧
      ((pass m asic regs a).outcome ≠ (pass m asic regs' a).outcome ∨
        ¬ SameExcept pipe i (regsAfter m asic regs a) (regsAfter m asic regs' a))

/-- No cell is used by packets of two channels, and what the packets of a channel put out does not
depend on the packets of the others. -/
structure Isolated (channels : List CollectiveChannel) : Prop where
  cells : ∀ rc ∈ channels, ∀ rc' ∈ channels, rc.aggUnit ≠ rc'.aggUnit → ∀ a a',
    selectedUnit m asic a = some rc.aggUnit → selectedUnit m asic a' = some rc'.aggUnit →
      ∀ pipe i, ¬ (Uses m asic a pipe i ∧ Uses m asic a' pipe i)
  outcomes : ∀ rc ∈ channels, ∀ (as as' : List Arrival),
    (∀ a ∈ as ++ as', ∃ rc' ∈ channels, selectedUnit m asic a = some rc'.aggUnit) →
      (as.filter fun a => selectedUnit m asic a = some rc.aggUnit) =
        (as'.filter fun a => selectedUnit m asic a = some rc.aggUnit) →
        ∀ regs, outcomesOf m asic rc.aggUnit regs as = outcomesOf m asic rc.aggUnit regs as'

end Passes

/-- The unit selector of a pipe has an entry with the unit of the channel. -/
def HasSelector (asic : Asic) (rc : CollectiveChannel) (pipe : PipeId) : Prop :=
  ∃ e ∈ (asic.pipes pipe).unitSelector.entries, e.2.aggUnit = rc.aggUnit

instance (asic : Asic) (rc : CollectiveChannel) (pipe : PipeId) : Decidable (HasSelector asic rc pipe) :=
  inferInstanceAs (Decidable (∃ e ∈ _, _))

/-- Channels with selector entries on a common pipe have units that differ modulo 64. -/
def SeparateUnits (asic : Asic) (channels : List CollectiveChannel) : Prop :=
  ∀ rc ∈ channels, ∀ rc' ∈ channels, rc.aggUnit ≠ rc'.aggUnit →
    ∀ pipe, HasSelector asic rc pipe → HasSelector asic rc' pipe →
      rc.aggUnit.toNat % 64 ≠ rc'.aggUnit.toNat % 64

instance (asic : Asic) (channels : List CollectiveChannel) : Decidable (SeparateUnits asic channels) :=
  inferInstanceAs (Decidable (∀ rc ∈ channels, ∀ rc' ∈ channels, _ → ∀ _ : PipeId, _ → _ → _))

/-! ### The cells of a channel -/

theorem cellIndex_toNat (aggUnit : BitVec 16) (psn : IbPsn) :
    (Collectives.cellIndex aggUnit psn).toNat = aggUnit.toNat % 64 * 256 + psn.toNat % 256 := by
  have hlow : (aggUnit.extractLsb' 0 8).toNat = aggUnit.toNat % 256 := by
    rw [BitVec.extractLsb'_toNat, Nat.shiftRight_zero]
  have hpsn : (psn.extractLsb' 0 8).toNat = psn.toNat % 256 := by
    rw [BitVec.extractLsb'_toNat, Nat.shiftRight_zero]
  have happend : (Collectives.unitIndex aggUnit psn).toNat =
      aggUnit.toNat % 256 * 256 + psn.toNat % 256 := by
    refine (BitVec.toNat_append ..).trans ?_
    rw [hlow, hpsn, Nat.shiftLeft_eq, Nat.mul_comm,
      ← Nat.two_pow_add_eq_or_of_lt (Nat.mod_lt _ (by decide))]
  rw [Collectives.cellIndex, BitVec.toNat_setWidth, happend]
  omega

theorem cellIndex_eq_iff {aggUnit aggUnit' : BitVec 16} {psn psn' : IbPsn} :
    Collectives.cellIndex aggUnit psn = Collectives.cellIndex aggUnit' psn' ↔
      aggUnit.toNat % 64 = aggUnit'.toNat % 64 ∧ psn.toNat % 256 = psn'.toNat % 256 := by
  rw [BitVec.toNat_eq, cellIndex_toNat, cellIndex_toNat]
  omega

/-! ### The selector entries over the calls -/

/-- Every selector entry matches packets of the channel with its unit only, and a channel with an entry
on a pipe has one there that is, or was, of a participant. -/
structure Selecting (channels : List CollectiveChannel) (asic : Asic) : Prop where
  outer : ∀ pipe, ∀ e ∈ (asic.pipes pipe).unitSelector.entries, isOuter pipe = true
  owner : ∀ pipe, ∀ e ∈ (asic.pipes pipe).unitSelector.entries, ∃ rc ∈ knownChannels channels,
    e.2.aggUnit = rc.aggUnit ∧ ∀ q, e.1.Hits q → commonOf q.dstQp = rc.fabricQpCommon
  participant : ∀ pipe, ∀ rc ∈ knownChannels channels, HasSelector asic rc pipe →
    ∃ p d, commonOf p.fabricQp = rc.fabricQpCommon ∧
      (participantKey rc p, d) ∈ (asic.pipes pipe).unitSelector.entries
  chooseAction : ∀ rc ∈ knownChannels channels, ∀ j isClear,
    (asic.chooseAction j).lookup ⟨rc.aggUnit.setWidth 8, isClear⟩ =
      some (if isClear then .aggInt32Clear else .aggInt32Add)

theorem selecting_initialSetup (mac : MacAddr) : Selecting [] (initialSetup mac) where
  outer _ _ he := by contradiction
  owner _ _ he := by contradiction
  participant _ _ hrc := by contradiction
  chooseAction _ hrc := by contradiction

/-- A packet of a channel gets the unit of the channel, whichever entry it hits. -/
theorem Selecting.aggUnit_of_hits {channels : List CollectiveChannel} {asic : Asic}
    (h : Selecting channels asic) (hsep : Separate channels) {rc : CollectiveChannel}
    (hrc : rc ∈ knownChannels channels) {pipe : PipeId} {k : UnitSelectorKey} {d : SelectAggUnit}
    (hmem : (k, d) ∈ (asic.pipes pipe).unitSelector.entries) {q : UnitSelectorQuery} (hhits : k.Hits q)
    (hqp : commonOf q.dstQp = rc.fabricQpCommon) : d.aggUnit = rc.aggUnit := by
  obtain ⟨rc', hrc', hunit, howner⟩ := h.owner pipe _ hmem
  obtain rfl := hsep.commons rc' hrc' rc hrc ((howner q hhits).symm.trans hqp)
  exact hunit

def participantQuery (rc : CollectiveChannel) (p : Participant) : UnitSelectorQuery :=
  ⟨p.ip, rc.fabricIp, p.fabricQp, 0⟩

/-- A channel that keeps its unit keeps its address and its common part. -/
def Kept (old new : List CollectiveChannel) : Prop :=
  ∀ rc ∈ knownChannels old, ∀ rc' ∈ knownChannels new, rc'.aggUnit = rc.aggUnit →
    rc'.fabricIp = rc.fabricIp ∧ rc'.fabricQpCommon = rc.fabricQpCommon

section Notified

variable {old new : List CollectiveChannel} {asic asic' : Asic} {pipe : PipeId} {k : UnitSelectorKey}
  {d : SelectAggUnit}

/-- An entry after a notification is one that the notification wrote, or an older one whose unit is
in use. -/
theorem Reconciled.mem_unitSelector (h : Reconciled new asic asic')
    (hmem : (k, d) ∈ (asic'.pipes pipe).unitSelector.entries) :
    (∃ rc ∈ knownChannels new, (k, d) ∈ selectorWrites rc pipe) ∨
      (k, d) ∈ (asic.pipes pipe).unitSelector.entries ∧
        (isOuter pipe = true → aggUnitInUse new d.aggUnit = true) := by
  rw [FinTable.mem_entries_iff, h.unitSelector, Option.filter_eq_some_iff] at hmem
  obtain ⟨hor, hkeep⟩ := hmem
  cases hlast : lastWrite k (selectorTable new pipe) with
  | some d' =>
      rw [hlast, Option.some_or] at hor
      obtain rfl := Option.some.inj hor
      exact Or.inl (List.mem_flatMap.1 (FinTable.mem_of_lastWrite hlast))
  | none =>
      rw [hlast, Option.none_or] at hor
      exact Or.inr ⟨(FinTable.mem_entries_iff ..).2 hor, fun houter => by simpa [houter] using hkeep⟩

theorem Reconciled.exists_mem_unitSelector (h : Reconciled new asic asic')
    (hkey : (∃ rc ∈ knownChannels new, (k, d) ∈ selectorWrites rc pipe) ∨
      (k, d) ∈ (asic.pipes pipe).unitSelector.entries ∧ aggUnitInUse new d.aggUnit = true) :
    ∃ d', (k, d') ∈ (asic'.pipes pipe).unitSelector.entries := by
  cases hlast : lastWrite k (selectorTable new pipe) with
  | some d' =>
      refine ⟨d', ?_⟩
      obtain ⟨rc, hrc, hwrite⟩ := List.mem_flatMap.1 (FinTable.mem_of_lastWrite hlast)
      rw [FinTable.mem_entries_iff, h.unitSelector, hlast, Option.some_or, Option.filter_some_pos]
      rw [aggUnit_of_mem_selectorWrites hwrite, aggUnitInUse_iff.2 ⟨rc, hrc, rfl⟩, Bool.or_true]
  | none =>
      rcases hkey with ⟨rc, hrc, hwrite⟩ | ⟨hold, huse⟩
      · have hmem : (k, d) ∈ selectorTable new pipe := List.mem_flatMap.2 ⟨rc, hrc, hwrite⟩
        exact absurd (List.mem_map_of_mem hmem) (FinTable.lastWrite_eq_none_iff.1 hlast)
      · refine ⟨d, ?_⟩
        rw [FinTable.mem_entries_iff, h.unitSelector, hlast, Option.none_or,
          (FinTable.mem_entries_iff ..).1 hold, Option.filter_some_pos]
        rw [huse, Bool.or_true]

theorem exists_participant_of_mem_selectorWrites {rc : CollectiveChannel}
    (hwrite : (k, d) ∈ selectorWrites rc pipe) :
    ∃ p ∈ rc.members, ∃ d', (participantKey rc p, d') ∈ selectorWrites rc pipe := by
  have hcount : 0 < rc.count pipe := by
    rcases mem_selectorWrites_cases hwrite with ⟨i, p, hp, -⟩ | ⟨hpipe, hconnected, -⟩
    · exact (Nat.zero_le i).trans_lt (List.getElem?_eq_some_iff.1 hp).1
    · rw [hpipe]
      simp only [CollectiveChannel.connected, Bool.and_eq_true, decide_eq_true_eq] at hconnected
      exact hconnected.2
  obtain ⟨p, hp⟩ := List.exists_mem_of_length_pos hcount
  obtain ⟨i, hi⟩ := List.mem_iff_getElem?.1 hp
  exact ⟨p, List.mem_of_mem_filter hp, _, List.mem_append_left _
    (List.mem_map.2 ⟨(p, i), List.mk_mem_zipIdx_iff_getElem?.2 hi, rfl⟩)⟩

/-- A notification keeps the selector entries in order. -/
theorem Selecting.reconciled (h : Selecting old asic) (hsep : Separate old) (hsep' : Separate new)
    (hkept : Kept old new) (hr : Reconciled new asic asic') : Selecting new asic' := by
  have hinUse : ∀ {pipe k d}, (k, d) ∈ (asic.pipes pipe).unitSelector.entries →
      aggUnitInUse new d.aggUnit = true → ∃ rc ∈ knownChannels old, ∃ rc' ∈ knownChannels new,
        d.aggUnit = rc.aggUnit ∧ rc'.aggUnit = rc.aggUnit ∧
          ∀ q, k.Hits q → commonOf q.dstQp = rc.fabricQpCommon := by
    intro pipe k d hold huse
    obtain ⟨rc, hrc, hunit, howner⟩ := h.owner pipe _ hold
    obtain ⟨rc', hrc', heq⟩ := aggUnitInUse_iff.1 huse
    exact ⟨rc, hrc, rc', hrc', hunit, (BitVec.eq_of_toNat_eq heq).trans hunit, howner⟩
  have houter : ∀ {pipe k d}, (k, d) ∈ (asic'.pipes pipe).unitSelector.entries →
      isOuter pipe = true := by
    intro pipe k d hmem
    rcases hr.mem_unitSelector hmem with ⟨rc, hrc, hwrite⟩ | ⟨hold, -⟩
    · by_contra hinner
      rw [selectorWrites_inner (hr.fits rc hrc) (Bool.eq_false_iff.2 hinner)] at hwrite
      contradiction
    · exact h.outer pipe _ hold
  refine ⟨fun pipe e he => houter he, fun pipe e he => ?_, fun pipe rc' hrc' hentry => ?_,
    fun rc hrc j isClear => ?_⟩
  · rcases hr.mem_unitSelector he with ⟨rc, hrc, hwrite⟩ | ⟨hold, huse⟩
    · exact ⟨rc, hrc, aggUnit_of_mem_selectorWrites hwrite,
        fun q hhits => commonOf_of_hits (hsep'.fabricQps rc hrc) hwrite hhits⟩
    · obtain ⟨rc, hrc, rc', hrc', hunit, hsame, howner⟩ := hinUse hold (huse (houter he))
      exact ⟨rc', hrc', hunit.trans hsame.symm,
        fun q hhits => (howner q hhits).trans (hkept rc hrc rc' hrc' hsame).2.symm⟩
  · obtain ⟨⟨k, d⟩, he, hunit⟩ := hentry
    rcases hr.mem_unitSelector he with ⟨rc, hrc, hwrite⟩ | ⟨hold, huse⟩
    · -- the entry is new: its channel wrote one of a participant as well
      obtain rfl := eq_of_aggUnit hsep'.aggUnits hrc hrc'
        ((aggUnit_of_mem_selectorWrites hwrite).symm.trans hunit)
      obtain ⟨p, hp, d', hwrite'⟩ := exists_participant_of_mem_selectorWrites hwrite
      obtain ⟨d'', hmem⟩ := hr.exists_mem_unitSelector (Or.inl ⟨rc, hrc, hwrite'⟩)
      exact ⟨p, d'', hsep'.fabricQps rc hrc p hp, hmem⟩
    · -- the entry is an old one: so is one of a participant, and both stay
      obtain ⟨rc, hrc, rc'', hrc'', hold_unit, hsame, -⟩ := hinUse hold (huse (houter he))
      obtain rfl := eq_of_aggUnit hsep'.aggUnits hrc'' hrc'
        (hsame.trans (hold_unit.symm.trans hunit))
      obtain ⟨p, d', hqp, hmem⟩ := h.participant pipe rc hrc ⟨_, hold, hold_unit⟩
      obtain ⟨hip, hcommon⟩ := hkept rc hrc rc'' hrc'' hsame
      have hunit' : d'.aggUnit = rc.aggUnit := h.aggUnit_of_hits hsep hrc hmem
        (q := participantQuery rc p) (hits_participantKey.2 ⟨rfl, rfl, rfl⟩) hqp
      obtain ⟨d'', hmem'⟩ := hr.exists_mem_unitSelector (Or.inr ⟨hmem,
        aggUnitInUse_iff.2 ⟨rc'', hrc'', by rw [hsame, hunit']⟩⟩)
      refine ⟨p, d'', hqp.trans hcommon.symm, ?_⟩
      rwa [participantKey, hip]
  · rw [hr.chooseAction, lastWrite_chooseAction hrc, Option.some_or, Option.filter_some_pos]
    exact aggUnitInUse_iff.2 ⟨rc, hrc, (toNat_setWidth_aggUnit (hr.fits rc hrc)).symm⟩

end Notified

theorem separate_of_wellFormed {r : StateRepository} (hr : WellFormed r) : Separate r.getChannels where
  aggUnits := distinct_of_wellFormed hr
  commons rc hrc rc' hrc' heq := by
    obtain ⟨t, ht, -⟩ := mem_knownChannels.1 hrc
    obtain ⟨t', ht', -⟩ := mem_knownChannels.1 hrc'
    exact congrArg Prod.snd (hr.commons _ ht _ ht' heq)
  fabricQps rc hrc p hp := by
    obtain ⟨t, ht, hknown⟩ := mem_knownChannels.1 hrc
    exact hr.fabricQps _ ht p hp (CollectiveChannel.allNodesKnown_iff.1 hknown p hp)

theorem kept_of_called {rs rs' : StateRepository × Asic} {c : Call} (h : WellFormed rs.1)
    (hpromised : Promised rs.1 c) (hcalled : Called onStRepoChannels rs c rs') :
    Kept rs.1.getChannels rs'.1.getChannels := by
  have hsame : ∀ rc ∈ knownChannels rs.1.getChannels, ∀ t rc', (t, rc') ∈ rs.1.channels.entries →
      rc'.aggUnit = rc.aggUnit → rc' = rc := by
    intro rc hrc t rc' hrc' heq
    obtain ⟨t', ht', -⟩ := mem_knownChannels.1 hrc
    exact congrArg Prod.snd (h.aggUnits _ hrc' _ ht' heq)
  intro rc hrc rc' hrc' heq
  obtain ⟨t, ht, -⟩ := mem_knownChannels.1 hrc'
  cases hcalled with
  | @added c s' hnew hnotify =>
      rcases (OrderedMap.mem_insert hnew).1 ht with hmem | hold
      · obtain ⟨-, rfl⟩ := Prod.mk.inj hmem
        obtain ⟨t', ht', -⟩ := mem_knownChannels.1 hrc
        exact absurd heq.symm (hpromised.1 rc (OrderedMap.mem_values.2 ⟨t', ht'⟩)).1
      · rw [hsame rc hrc t rc' hold heq]
        exact ⟨rfl, rfl⟩
  | @updated tag clientId u c p s' hc hp hchanges hnotify =>
      obtain ⟨rc₀, hrc₀, rfl⟩ := OrderedMap.mem_modify.1 ht
      have hfields : ∀ rc₁ : CollectiveChannel, rc₁ = (if t = tag then updateIn clientId u rc₀ else rc₀) →
          rc₁.aggUnit = rc₀.aggUnit ∧ rc₁.fabricIp = rc₀.fabricIp ∧
            rc₁.fabricQpCommon = rc₀.fabricQpCommon := by
        rintro rc₁ rfl
        split <;> exact ⟨rfl, rfl, rfl⟩
      obtain ⟨hunit, hip, hcommon⟩ := hfields _ rfl
      obtain rfl := hsame rc hrc t rc₀ hrc₀ (hunit.symm.trans heq)
      exact ⟨hip, hcommon⟩
  | unchanged _ _ _ =>
      rw [hsame rc hrc t rc' ht heq]
      exact ⟨rfl, rfl⟩
  | removed hnotify =>
      rw [hsame rc hrc t rc' (OrderedMap.mem_erase.1 ht).1 heq]
      exact ⟨rfl, rfl⟩

section Passes

variable {channels : List CollectiveChannel} {asic : Asic} (m : Matcher)
  (h : Selecting channels asic)

/-- A packet with a unit came to a pipe with an entry of it. -/
theorem hasSelector_of_selected {a : Arrival} {rc : CollectiveChannel}
    (hsel : selectedUnit m asic a = some rc.aggUnit) : HasSelector asic rc (pipeOf a.1) := by
  rw [selectedUnit] at hsel
  split at hsel
  · obtain ⟨d, hpick, hunit⟩ := Option.map_eq_some_iff.1 hsel
    obtain ⟨k, hmem, -⟩ := m.unitSelector.hit_of_pick hpick
    exact ⟨_, hmem, hunit⟩
  · contradiction

include h

theorem exists_cell_pass {a : Arrival} {rc : CollectiveChannel}
    (hrc : rc ∈ knownChannels channels) (hsel : selectedUnit m asic a = some rc.aggUnit) :
    ∃ (new : Cell → Cell) (out : Cell → IngressState.Outcome),
      (∀ regs,
        let c := (regs (pipeOf a.1)).cell (Collectives.cellIndex rc.aggUnit a.2.roce.psn)
        (pass m asic regs a).regs = (regs (pipeOf a.1)).setCell
            (Collectives.cellIndex rc.aggUnit a.2.roce.psn) (new c) ∧
          (pass m asic regs a).outcome = out c) ∧
      (IngressParser.isRecirculationPort a.1 = false →
        ∃ bitmap, ∀ c, new c = c.add bitmap a.2.aggregate) := by
  rw [selectedUnit] at hsel
  split at hsel
  · rename_i haggregate
    obtain ⟨d, hpick, hunit⟩ := Option.map_eq_some_iff.1 hsel
    have hchoose : ∀ j isClear, (asic.chooseAction j).lookup ⟨d.aggUnit.setWidth 8, isClear⟩ =
        some (if isClear then .aggInt32Clear else .aggInt32Add) := by
      intro j isClear
      rw [hunit]
      exact h.chooseAction rc hrc j isClear
    obtain ⟨new, out, hpass, hadd⟩ := Ingress.exists_cell_pass m asic (pipeOf a.1) haggregate hpick
      hchoose
    rw [hunit] at hpass
    exact ⟨new, out, hpass, fun hport => ⟨_, hadd hport⟩⟩
  · contradiction

theorem regsAfter_cell {a : Arrival} {rc : CollectiveChannel} (hrc : rc ∈ knownChannels channels)
    (hsel : selectedUnit m asic a = some rc.aggUnit) : ∃ new : Cell → Cell, ∀ regs pipe i,
      (regsAfter m asic regs a pipe).cell i =
        if pipe = pipeOf a.1 ∧ i = Collectives.cellIndex rc.aggUnit a.2.roce.psn then
          new ((regs pipe).cell i)
        else (regs pipe).cell i := by
  obtain ⟨new, out, hpass, -⟩ := exists_cell_pass m h hrc hsel
  refine ⟨new, fun regs pipe i => ?_⟩
  rw [regsAfter, (hpass regs).1]
  by_cases hpipe : pipe = pipeOf a.1
  · subst hpipe
    rw [Function.update_self]
    by_cases hi : i = Collectives.cellIndex rc.aggUnit a.2.roce.psn
    · rw [if_pos ⟨rfl, hi⟩, hi, Registers.cell_setCell]
    · rw [if_neg fun hboth => hi hboth.2, Registers.cell_setCell_of_ne _ _ hi]
  · rw [if_neg fun hboth => hpipe hboth.1, Function.update_of_ne hpipe]

theorem eq_of_uses {a : Arrival} {rc : CollectiveChannel} (hrc : rc ∈ knownChannels channels)
    (hsel : selectedUnit m asic a = some rc.aggUnit) {pipe : PipeId} {i : BitVec 14}
    (huses : Uses m asic a pipe i) :
    pipe = pipeOf a.1 ∧ i = Collectives.cellIndex rc.aggUnit a.2.roce.psn := by
  obtain ⟨new, hafter⟩ := regsAfter_cell m h hrc hsel
  obtain ⟨_, out, hpass, -⟩ := exists_cell_pass m h hrc hsel
  by_contra hne
  rcases huses with ⟨regs, hwrite⟩ | ⟨regs, regs', hsame, hread | hread⟩
  · rw [hafter, if_neg hne] at hwrite
    exact hwrite rfl
  · have hcell := hsame (pipeOf a.1) (Collectives.cellIndex rc.aggUnit a.2.roce.psn)
      fun heq => hne ⟨(Prod.mk.inj heq).1.symm, (Prod.mk.inj heq).2.symm⟩
    rw [(hpass regs).2, (hpass regs').2, hcell] at hread
    exact hread rfl
  · refine hread fun pipe' i' hother => ?_
    rw [hafter, hafter, hsame pipe' i' hother]

/-! ### Separate units isolate -/

/-- Registers that agree on the cells of a channel, on the pipes with entries of it. -/
def Agree (asic : Asic) (rc : CollectiveChannel) (regs regs' : PipeId → Registers) : Prop :=
  ∀ pipe, HasSelector asic rc pipe → ∀ psn,
    (regs pipe).cell (Collectives.cellIndex rc.aggUnit psn) =
      (regs' pipe).cell (Collectives.cellIndex rc.aggUnit psn)

variable {m} {rc : CollectiveChannel} (hrc : rc ∈ knownChannels channels)

include hrc

theorem agree_regsAfter (hunits : SeparateUnits asic (knownChannels channels)) {a : Arrival}
    {rc' : CollectiveChannel} (hrc' : rc' ∈ knownChannels channels)
    (hne : rc.aggUnit ≠ rc'.aggUnit) (hsel : selectedUnit m asic a = some rc'.aggUnit)
    {regs regs' : PipeId → Registers} (hagree : Agree asic rc regs regs') :
    Agree asic rc (regsAfter m asic regs a) regs' := by
  intro pipe hentry psn
  obtain ⟨new, hafter⟩ := regsAfter_cell m h hrc' hsel
  rw [hafter, if_neg, hagree pipe hentry psn]
  rintro ⟨rfl, hindex⟩
  exact hunits rc hrc rc' hrc' hne _ hentry (hasSelector_of_selected m hsel)
    (cellIndex_eq_iff.1 hindex).1

theorem pass_of_agree {a : Arrival} (hsel : selectedUnit m asic a = some rc.aggUnit)
    {regs regs' : PipeId → Registers} (hagree : Agree asic rc regs regs') :
    (pass m asic regs a).outcome = (pass m asic regs' a).outcome ∧
      Agree asic rc (regsAfter m asic regs a) (regsAfter m asic regs' a) := by
  obtain ⟨new, hafter⟩ := regsAfter_cell m h hrc hsel
  obtain ⟨_, out, hpass, -⟩ := exists_cell_pass m h hrc hsel
  constructor
  · rw [(hpass regs).2, (hpass regs').2, hagree _ (hasSelector_of_selected m hsel) a.2.roce.psn]
  · intro pipe hentry psn
    rw [hafter, hafter, hagree pipe hentry psn]

/-- The outcomes of a channel are those of its own packets alone. -/
theorem outcomesOf_filter (hunits : SeparateUnits asic (knownChannels channels)) {as : List Arrival}
    (hknown : ∀ a ∈ as, ∃ rc' ∈ knownChannels channels, selectedUnit m asic a = some rc'.aggUnit)
    {regs regs' : PipeId → Registers} (hagree : Agree asic rc regs regs') :
    outcomesOf m asic rc.aggUnit regs as = outcomesOf m asic rc.aggUnit regs'
      (as.filter fun a => selectedUnit m asic a = some rc.aggUnit) := by
  induction as generalizing regs regs' with
  | nil => rfl
  | cons a as ih =>
      have htail := fun b hb => hknown b (List.mem_cons_of_mem a hb)
      by_cases hsel : selectedUnit m asic a = some rc.aggUnit
      · obtain ⟨hout, hafter⟩ := pass_of_agree h hrc hsel hagree
        rw [List.filter_cons, if_pos (decide_eq_true hsel), outcomesOf, if_pos hsel, outcomesOf,
          if_pos hsel, hout, ih htail hafter]
      · obtain ⟨rc', hrc', hsel'⟩ := hknown a List.mem_cons_self
        have hne : rc.aggUnit ≠ rc'.aggUnit := by
          intro heq
          rw [heq] at hsel
          exact hsel hsel'
        rw [List.filter_cons, if_neg (by simpa using hsel), outcomesOf, if_neg hsel]
        exact ih htail (agree_regsAfter h hrc hunits hrc' hne hsel' hagree)

/-! ### Units that do not differ modulo 64 -/

def probe (rc : CollectiveChannel) (p : Participant) (pipe : PipeId) : Arrival :=
  (BitVec.ofNat 9 (pipe.val * 128),
    { ethernet := ⟨rc.fabricMac, p.mac, EtherType.ipv4⟩
      ipv4 := ⟨4, 5, 0, 300, 0, 2, 0, 64, Ipv4Protocol.udp, 0, p.ip, rc.fabricIp⟩
      udp := ⟨49152, 4791, 280, 0⟩
      roce := ⟨6, 0, 1, 0, 0, 0xffff, 0, p.fabricQp, 0, 0, 0⟩
      aggregate := fun _ => 1
      roceAck := ⟨0, 0, 0⟩
      icrc := 0 })

omit h hrc in
private theorem first_port (pipe : PipeId) : pipeOf (BitVec.ofNat 9 (pipe.val * 128)) = pipe ∧
    IngressParser.isRecirculationPort (BitVec.ofNat 9 (pipe.val * 128)) = false := by
  revert pipe
  decide

theorem uses_probe (hsep : Separate channels) {pipe : PipeId} (hentry : HasSelector asic rc pipe) :
    ∃ a, selectedUnit m asic a = some rc.aggUnit ∧
      Uses m asic a pipe (Collectives.cellIndex rc.aggUnit 0) := by
  obtain ⟨p, d₀, hqp, hmem⟩ := h.participant pipe rc hrc hentry
  have houter : pipe = 0 ∨ pipe = 3 := by simpa [isOuter] using h.outer pipe _ hmem
  have hport : pipeOf (probe rc p pipe).1 = pipe ∧
      IngressParser.isRecirculationPort (probe rc p pipe).1 = false :=
    first_port pipe
  have hstart : IngressParser.start (probe rc p pipe).1 (probe rc p pipe).2 = .aggregate :=
    IngressParser.start_of_isAggregate ⟨rfl, rfl, rfl, rfl⟩ (by rw [hport.1]; exact houter)
  let q := Ingress.query (probe rc p pipe).1 (probe rc p pipe).2
  have hhits : (participantKey rc p).Hits q := hits_participantKey.2 ⟨rfl, rfl, rfl⟩
  obtain ⟨d, hd⟩ := Option.ne_none_iff_exists'.1 fun hnone =>
    m.unitSelector.miss_of_pick hnone _ hmem hhits
  obtain ⟨k, hk, hkhits⟩ := m.unitSelector.hit_of_pick hd
  have hsel : selectedUnit m asic (probe rc p pipe) = some rc.aggUnit := by
    rw [selectedUnit, if_pos hstart, hport.1, hd, Option.map_some,
      h.aggUnit_of_hits hsep hrc hk hkhits hqp]
  refine ⟨_, hsel, Or.inl ⟨fun _ => Registers.zero, ?_⟩⟩
  obtain ⟨new, _, hpass, hadd⟩ := exists_cell_pass m h hrc hsel
  obtain ⟨bitmap, hnew⟩ := hadd hport.2
  have hafter := (hpass fun _ => Registers.zero).1
  rw [regsAfter, hport.1, Function.update_self, hafter,
    show (probe rc p pipe).2.roce.psn = 0 from rfl, Registers.cell_setCell, hnew]
  intro heq
  have hlow := congrArg (fun c : Cell => (c.values 0).low) heq
  simp [Cell.add, probe] at hlow

end Passes

section Isolation

variable {channels : List CollectiveChannel} {asic : Asic} {m : Matcher}
  (h : Selecting channels asic)

include h

theorem isolated_of_separateUnits (hunits : SeparateUnits asic (knownChannels channels)) :
    Isolated m asic (knownChannels channels) := by
  refine ⟨fun rc hrc rc' hrc' hne a a' hsel hsel' pipe i huses => ?_,
    fun rc hrc as as' hknown hsame regs => ?_⟩
  · obtain ⟨rfl, rfl⟩ := eq_of_uses m h hrc hsel huses.1
    obtain ⟨hpipe, hindex⟩ := eq_of_uses m h hrc' hsel' huses.2
    refine hunits rc hrc rc' hrc' hne _ (hasSelector_of_selected m hsel) ?_ (cellIndex_eq_iff.1 hindex).1
    rw [hpipe]
    exact hasSelector_of_selected m hsel'
  · have hagree : Agree asic rc regs regs := fun _ _ _ => rfl
    rw [outcomesOf_filter h hrc hunits (fun a ha => hknown a (List.mem_append_left _ ha)) hagree,
      hsame, ← outcomesOf_filter h hrc hunits
        (fun a ha => hknown a (List.mem_append_right _ ha)) hagree]

/-- Without separate units two channels share a cell. -/
theorem separateUnits_of_isolated (hsep : Separate channels)
    (hisolated : Isolated m asic (knownChannels channels)) :
    SeparateUnits asic (knownChannels channels) := by
  intro rc hrc rc' hrc' hne pipe hentry hentry' hmod
  obtain ⟨a, hsel, huses⟩ := uses_probe h (m := m) hrc hsep hentry
  obtain ⟨a', hsel', huses'⟩ := uses_probe h (m := m) hrc' hsep hentry'
  rw [← cellIndex_eq_iff.2 ⟨hmod, rfl⟩] at huses'
  exact hisolated.cells rc hrc rc' hrc' hne a a' hsel hsel' pipe _ ⟨huses, huses'⟩

end Isolation

/-! ### Runs -/

private structure Ordered (rs : StateRepository × Asic) : Prop where
  wellFormed : WellFormed rs.1
  selecting : Selecting rs.1.getChannels rs.2

private theorem Ordered.called {rs rs' : StateRepository × Asic} {c : Call} (h : Ordered rs)
    (hpromised : Promised rs.1 c) (hcalled : Called onStRepoChannels rs c rs') : Ordered rs' := by
  have h' := h.wellFormed.called hpromised hcalled
  have hkept := kept_of_called h.wellFormed hpromised hcalled
  have hreconciled : ∀ {channels asic'}, onStRepoChannels channels rs.2 = .ok asic' →
      Separate channels → Kept rs.1.getChannels channels → Selecting channels asic' :=
    fun hnotify hsep hkept => h.selecting.reconciled (separate_of_wellFormed h.wellFormed) hsep hkept
      (onStRepoChannels_ok hnotify)
  cases hcalled with
  | added _ hnotify => exact ⟨h', hreconciled hnotify (separate_of_wellFormed h') hkept⟩
  | updated _ _ _ hnotify => exact ⟨h', hreconciled hnotify (separate_of_wellFormed h') hkept⟩
  | unchanged _ _ _ => exact h
  | removed hnotify => exact ⟨h', hreconciled hnotify (separate_of_wellFormed h') hkept⟩

private theorem ordered_startup (baseMac : MacAddr) (ip : IPv4Addr) : Ordered (startup baseMac ip) :=
  ⟨StateRepository.wellFormed_initial baseMac ip, selecting_initialSetup _⟩

/-- **Isolation.** In a run of calls the programmed channels are always isolated from each other if and
only if those with selector entries on a common pipe, of whatever time, have units that differ modulo
64. -/
theorem run_isolated_iff (baseMac : MacAddr) (ip : IPv4Addr)
    (run : List (Call × (StateRepository × Asic)))
    (hrun : Along (fun rs c rs' => call onStRepoChannels rs c = .ok rs' ∧ Promised rs.1 c)
      (startup baseMac ip) run) (m : Matcher) :
    ∀ x ∈ run, Isolated m x.2.2 (knownChannels x.2.1.getChannels) ↔
      SeparateUnits x.2.2 (knownChannels x.2.1.getChannels) := by
  intro x hx
  have hx := hrun.invariant (I := Ordered) (fun rs c rs' h hstep =>
    h.called hstep.2 (call_ok hstep.1)) (ordered_startup baseMac ip) x hx
  exact ⟨separateUnits_of_isolated hx.selecting (separate_of_wellFormed hx.wellFormed),
    isolated_of_separateUnits hx.selecting⟩

/-! ### Many channels on one pipe -/

/-- New channels get their unit from `get_free_agg_unit`. -/
def Allocates (r : StateRepository) : Call → Prop
  | .addChannel c => r.getFreeAggUnit = .ok c.aggUnit
  | _ => True

instance (r : StateRepository) : ∀ c, Decidable (Allocates r c)
  | .addChannel _ => inferInstanceAs (Decidable (_ = _))
  | .updateChannelParticipant _ _ _ => isTrue trivial
  | .removeChannel _ => isTrue trivial

namespace Crowd

/-- A channel with a single participant. -/
def solo (n : Nat) : CollectiveChannel where
  tag := n
  fabricIp := 1
  fabricQpCommon := BitVec.ofNat 16 (n + 1)
  fabricMac := 1024
  aggUnit := BitVec.ofNat 16 n
  participants := OrderedMap.empty.insert 7 { clientId := 7 }

def fromPort (n : Nat) (port : PortId) : Call :=
  .updateChannelParticipant n 7 ⟨10, 5, 6, port, BitVec.ofNat 24 ((n + 1) * 256)⟩

/-- Two channels at one port, and the participant of the first one moves to the other pipe. -/
def leavingPipe : List Call :=
  [.addChannel (solo 0), .addChannel (solo 1), fromPort 0 0, fromPort 1 0, fromPort 0 384]

/-- The first channel keeps an entry on the pipe it left, and is isolated from the second one there. -/
theorem leavingPipe_isolated :
    (∃ x ∈ runOfCalls leavingPipe, ∃ rc ∈ knownChannels x.2.1.getChannels,
      rc.count 0 = 0 ∧ HasSelector x.2.2 rc 0) ∧
    ∀ x ∈ runOfCalls leavingPipe,
      Isolated Matcher.first x.2.2 (knownChannels x.2.1.getChannels) := by
  have hrun : Along (fun rs c rs' => call onStRepoChannels rs c = .ok rs' ∧ Promised rs.1 c)
      (startup 0 1) (runOfCalls leavingPipe) := along_afterCall (by decide +kernel)
  have hunits : ∀ x ∈ runOfCalls leavingPipe,
      SeparateUnits x.2.2 (knownChannels x.2.1.getChannels) := by
    decide +kernel
  exact ⟨by decide +kernel, fun x hx => (run_isolated_iff 0 1 _ hrun _ x hx).2 (hunits x hx)⟩

/-- 65 channels; the participants of the first and of the last one are known. -/
def crowded : List Call :=
  (List.range 65).map (fun n => .addChannel (solo n)) ++ [fromPort 0 0, fromPort 64 0]

/-- The units 0 and 64 have the same cells. -/
theorem crowded_not_isolated :
    Along (fun rs c rs' => call onStRepoChannels rs c = .ok rs' ∧ Promised rs.1 c ∧ Allocates rs.1 c)
      (startup 0 1) (runOfCalls crowded) ∧
    ¬ ∀ x ∈ runOfCalls crowded, Isolated Matcher.first x.2.2 (knownChannels x.2.1.getChannels) := by
  have hrun : Along (fun rs c rs' => call onStRepoChannels rs c = .ok rs' ∧
      (Promised rs.1 c ∧ Allocates rs.1 c)) (startup 0 1) (runOfCalls crowded) :=
    along_afterCall (P := fun r c => Promised r c ∧ Allocates r c) (by decide +kernel)
  refine ⟨hrun, fun hisolated => ?_⟩
  have hordered := hrun.invariant (I := Ordered) (fun rs c rs' h hstep =>
    h.called hstep.2.1 (call_ok hstep.1)) (ordered_startup 0 1)
  have hunits : ∀ x ∈ runOfCalls crowded, SeparateUnits x.2.2 (knownChannels x.2.1.getChannels) :=
    fun x hx => separateUnits_of_isolated (hordered x hx).selecting
      (separate_of_wellFormed (hordered x hx).wellFormed) (hisolated x hx)
  exact absurd hunits (by decide +kernel)

end Crowd

end AsicDriver

end Mpitofino
