import Mpitofino.Control.Callback
import Mpitofino.Control.ForeignTraffic

/-!
# Units start clean

Packets go through the ASIC between the operations of the callback. The units to clear are those of the
selector entries it deletes, and it clears them when no packet can reach their cells anymore. With at
most 64 channels at once no two units share cells, so a unit that is handed out again has empty cells
up to its first selector entry.
-/

namespace Mpitofino

namespace AsicDriver

open StateRepository (WellFormed Promised Call Called call commonOf)

def Selects (asic : Asic) (aggUnit : BitVec 16) : Prop :=
  ∃ pipe, ∃ e ∈ (asic.pipes pipe).unitSelector.entries, e.2.aggUnit = aggUnit

/-- The repository and the ASIC, with the operations the callback still has to carry out. -/
structure Reconfiguration where
  stRepo : StateRepository
  asic : Asic
  pending : List Op

namespace Reconfiguration

/-- A call of the repository, the next operation of the callback, or the pass of a packet. -/
inductive Event where
  | call (c : Call)
  | operation
  | packet (a : Arrival)

/-- The notification of the driver. -/
def schedule (channels : List CollectiveChannel) (s : Asic × List Op) :
    Except String (Asic × List Op) :=
  .ok (s.1, callback channels s.1)

/-- Calls wait for the callback, which ends with its first exception. -/
def Steps (m : Matcher) (t : Reconfiguration) : Event → Reconfiguration → Prop
  | .call c, t' => t.pending = [] ∧ Promised t.stRepo c ∧ Allocates t.stRepo c ∧
      call schedule (t.stRepo, t.asic, t.pending) c = .ok (t'.stRepo, t'.asic, t'.pending) ∧
      t'.stRepo.getChannels.length ≤ 64
  | .operation, t' => ∃ op, t.pending = op :: t'.pending ∧ op.apply t.asic = .ok t'.asic ∧
      t'.stRepo = t.stRepo
  | .packet a, t' => t' = { t with
      asic := { t.asic with regs := regsAfter m t.asic t.asic.regs a } }

/-- When a channel is new, its unit is not installed. When the first selector entry of a unit is
installed, its cells are empty in all pipes. No operation writes a cell of a programmed channel. -/
def Clean (t : Reconfiguration) : Event → Reconfiguration → Prop
  | .call _, t' => ∀ rc ∈ knownChannels t'.stRepo.getChannels,
      (∀ rc' ∈ knownChannels t.stRepo.getChannels, rc'.aggUnit ≠ rc.aggUnit) →
        ¬ Selects t'.asic rc.aggUnit
  | .operation, t' =>
      (∀ pipe k d, t.pending.head? = some (.putUnitSelector pipe k d) → ¬ Selects t.asic d.aggUnit →
        ∀ pipe' psn, (t.asic.regs pipe').cell (Collectives.cellIndex d.aggUnit psn) = Cell.zero) ∧
      ∀ rc ∈ knownChannels t.stRepo.getChannels, ∀ pipe psn,
        (t'.asic.regs pipe).cell (Collectives.cellIndex rc.aggUnit psn) =
          (t.asic.regs pipe).cell (Collectives.cellIndex rc.aggUnit psn)
  | .packet _, _ => True

end Reconfiguration

/-! ### What an operation does -/

namespace Op

/-- The index of a cleared register cell. -/
def cleared : Op → Option Nat
  | clearValues _ i => some i
  | clearStateBitmapLow i => some i
  | clearStateBitmapHigh i => some i
  | _ => none

/-- What the clearing of a register cell is for. -/
def Done (regs : Registers) : Op → Prop
  | clearValues j i => regs.values j (BitVec.ofNat 14 i) = ⟨0, 0⟩
  | clearStateBitmapLow i => regs.stateBitmapsLow (BitVec.ofNat 14 i) = 0
  | clearStateBitmapHigh i => regs.stateBitmapsHigh (BitVec.ofNat 14 i) = 0
  | _ => True

section Spec

variable {op : Op} {asic asic' : Asic}

theorem delete_ok {K V : Type} [DecidableEq K] {t : FinTable K V} {k : K} {set : FinTable K V → Asic}
    (h : delete t k set = .ok asic') : ∃ t', t.erase? k = some t' ∧ asic' = set t' := by
  rw [delete] at h
  split at h
  · rename_i t' ht'
    exact ⟨t', ht', (Except.ok.inj h).symm⟩
  · contradiction

theorem clear_ok {i : Nat} {message : String} {set : BitVec 14 → Registers → Registers}
    (h : clear asic i message set = .ok asic') : i < 16384 ∧
      asic' = { asic with regs := fun pipe => set (BitVec.ofNat 14 i) (asic.regs pipe) } := by
  rw [clear] at h
  split at h
  · rename_i hi
    exact ⟨hi, (Except.ok.inj h).symm⟩
  · contradiction

theorem lookup_unitSelector (h : op.apply asic = .ok asic') (pipe : PipeId) (k : UnitSelectorKey) :
    (asic'.pipes pipe).unitSelector.lookup k = match op with
      | putUnitSelector pipe' k' d =>
          if pipe = pipe' ∧ k = k' then some d else (asic.pipes pipe).unitSelector.lookup k
      | delUnitSelector pipe' k' =>
          if pipe = pipe' ∧ k = k' then none else (asic.pipes pipe).unitSelector.lookup k
      | _ => (asic.pipes pipe).unitSelector.lookup k := by
  cases op with
  | putPreNode | putPreMgid | putChooseAction =>
      obtain rfl := Except.ok.inj h
      rfl
  | putOutputAddress | putRoceAckReflector | putCheckComplete =>
      obtain rfl := Except.ok.inj h
      simp [Asic.putOutputAddress, Asic.putRoceAckReflector, Asic.putCheckComplete,
        Asic.unitSelector_onPipe]
  | putUnitSelector pipe' k' d =>
      obtain rfl := Except.ok.inj h
      by_cases hpipe : pipe = pipe'
      · subst hpipe
        simp [Asic.putUnitSelector, Asic.onPipe, FinTable.lookup_put]
      · simp [Asic.putUnitSelector, Asic.onPipe, hpipe]
  | delUnitSelector pipe' k' =>
      obtain ⟨t, ht, rfl⟩ := delete_ok h
      by_cases hpipe : pipe = pipe'
      · subst hpipe
        simp [Asic.onPipe, FinTable.lookup_erase? ht]
      · simp [Asic.onPipe, hpipe]
  | delCheckComplete | delOutputAddress | delRoceAckReflector =>
      obtain ⟨t, -, rfl⟩ := delete_ok h
      simp [Asic.unitSelector_onPipe]
  | delChooseAction | delPreMgid | delPreNode =>
      obtain ⟨t, -, rfl⟩ := delete_ok h
      rfl
  | clearValues | clearStateBitmapLow | clearStateBitmapHigh =>
      rw [apply] at h
      obtain ⟨hlt, rfl⟩ := clear_ok h
      rfl
  | fail message => contradiction

theorem lookup_chooseAction (h : op.apply asic = .ok asic') {j : Fin 32} {k : ChooseActionKey}
    {a : ChooseAction} (hlookup : (asic'.chooseAction j).lookup k = some a) :
    (asic.chooseAction j).lookup k = some a ∨ op = putChooseAction j k a := by
  cases op with
  | putChooseAction j' k' a' =>
      obtain rfl := Except.ok.inj h
      by_cases hj : j = j'
      · subst hj
        simp only [Function.update_self, FinTable.lookup_put] at hlookup
        split at hlookup
        · rename_i hk
          obtain rfl := Option.some.inj hlookup
          exact Or.inr (by rw [hk])
        · exact Or.inl hlookup
      · simp only [Function.update_of_ne hj] at hlookup
        exact Or.inl hlookup
  | delChooseAction j' k' =>
      obtain ⟨t, ht, rfl⟩ := delete_ok h
      by_cases hj : j = j'
      · subst hj
        simp only [Function.update_self, FinTable.lookup_erase? ht] at hlookup
        split at hlookup
        · contradiction
        · exact Or.inl hlookup
      · simp only [Function.update_of_ne hj] at hlookup
        exact Or.inl hlookup
  | putPreNode | putPreMgid | putUnitSelector | putOutputAddress | putRoceAckReflector
      | putCheckComplete =>
      obtain rfl := Except.ok.inj h
      exact Or.inl hlookup
  | delUnitSelector | delCheckComplete | delOutputAddress | delRoceAckReflector | delPreMgid
      | delPreNode =>
      obtain ⟨t, -, rfl⟩ := delete_ok h
      exact Or.inl hlookup
  | clearValues | clearStateBitmapLow | clearStateBitmapHigh =>
      rw [apply] at h
      obtain ⟨hlt, rfl⟩ := clear_ok h
      exact Or.inl hlookup
  | fail message => contradiction

theorem regs_apply (h : op.apply asic = .ok asic') (hop : op.cleared = none) :
    asic'.regs = asic.regs := by
  cases op with
  | putPreNode | putPreMgid | putUnitSelector | putOutputAddress | putRoceAckReflector
      | putCheckComplete | putChooseAction =>
      obtain rfl := Except.ok.inj h
      rfl
  | delUnitSelector | delCheckComplete | delOutputAddress | delRoceAckReflector | delChooseAction
      | delPreMgid | delPreNode =>
      obtain ⟨t, -, rfl⟩ := delete_ok h
      rfl
  | clearValues | clearStateBitmapLow | clearStateBitmapHigh => contradiction
  | fail message => contradiction

theorem cell_apply (h : op.apply asic = .ok asic') {pipe : PipeId} {i : BitVec 14}
    (hi : op.cleared ≠ some i.toNat) : (asic'.regs pipe).cell i = (asic.regs pipe).cell i := by
  have hne : ∀ n < 16384, op.cleared = some n → i ≠ BitVec.ofNat 14 n := by
    rintro n hlt hn rfl
    rw [BitVec.toNat_ofNat, Nat.mod_eq_of_lt hlt] at hi
    exact hi hn
  cases op with
  | clearValues j n =>
      rw [apply] at h
      obtain ⟨hlt, rfl⟩ := clear_ok h
      simp only [Registers.cell, Cell.mk.injEq, and_true]
      funext j'
      by_cases hj : j' = j
      · subst hj
        rw [Function.update_self, Function.update_of_ne (hne n hlt rfl)]
      · rw [Function.update_of_ne hj]
  | clearStateBitmapLow n =>
      rw [apply] at h
      obtain ⟨hlt, rfl⟩ := clear_ok h
      simp only [Registers.cell, Function.update_of_ne (hne n hlt rfl)]
  | clearStateBitmapHigh n =>
      rw [apply] at h
      obtain ⟨hlt, rfl⟩ := clear_ok h
      simp only [Registers.cell, Function.update_of_ne (hne n hlt rfl)]
  | _ => rw [regs_apply h rfl]

theorem done_apply (h : op.apply asic = .ok asic') (pipe : PipeId) : op.Done (asic'.regs pipe) := by
  cases op with
  | clearValues j n =>
      rw [apply] at h
      obtain ⟨hlt, rfl⟩ := clear_ok h
      simp [Done]
  | clearStateBitmapLow n =>
      rw [apply] at h
      obtain ⟨hlt, rfl⟩ := clear_ok h
      simp [Done]
  | clearStateBitmapHigh n =>
      rw [apply] at h
      obtain ⟨hlt, rfl⟩ := clear_ok h
      simp [Done]
  | _ => trivial

/-- What is cleared stays so while the driver works. -/
theorem Done.apply {op' : Op} {pipe : PipeId} (hdone : op'.Done (asic.regs pipe))
    (h : op.apply asic = .ok asic') : op'.Done (asic'.regs pipe) := by
  cases op with
  | clearValues j n =>
      rw [Op.apply] at h
      obtain ⟨hlt, rfl⟩ := clear_ok h
      cases op' with
      | clearValues j' i =>
          by_cases hj : j' = j
          · subst hj
            by_cases hi : BitVec.ofNat 14 i = BitVec.ofNat 14 n
            · simp [Done, hi]
            · simpa [Done, Function.update_of_ne hi] using hdone
          · simpa [Done, Function.update_of_ne hj] using hdone
      | _ => exact hdone
  | clearStateBitmapLow n =>
      rw [Op.apply] at h
      obtain ⟨hlt, rfl⟩ := clear_ok h
      cases op' with
      | clearStateBitmapLow i =>
          by_cases hi : BitVec.ofNat 14 i = BitVec.ofNat 14 n
          · simp [Done, hi]
          · simpa [Done, Function.update_of_ne hi] using hdone
      | _ => exact hdone
  | clearStateBitmapHigh n =>
      rw [Op.apply] at h
      obtain ⟨hlt, rfl⟩ := clear_ok h
      cases op' with
      | clearStateBitmapHigh i =>
          by_cases hi : BitVec.ofNat 14 i = BitVec.ofNat 14 n
          · simp [Done, hi]
          · simpa [Done, Function.update_of_ne hi] using hdone
      | _ => exact hdone
  | _ => rwa [regs_apply h rfl]

end Spec

end Op

theorem cell_eq_zero_iff {regs : Registers} {i : BitVec 14} :
    regs.cell i = Cell.zero ↔ ∀ op ∈ clearIndex i.toNat, op.Done regs := by
  have hi : BitVec.ofNat 14 i.toNat = i := by simp
  constructor
  · intro hzero op hop
    rcases List.mem_append.1 hop with hop | hop
    · obtain ⟨j, -, rfl⟩ := List.mem_map.1 hop
      rw [Op.Done, hi]
      exact congrFun (congrArg Cell.values hzero) j
    · simp only [List.mem_cons, List.not_mem_nil, or_false] at hop
      rcases hop with rfl | rfl
      · rw [Op.Done, hi]
        exact congrArg (fun c => c.bitmap.low) hzero
      · rw [Op.Done, hi]
        exact congrArg (fun c => c.bitmap.high) hzero
  · intro hdone
    have hvalues : ∀ j, regs.values j i = ⟨0, 0⟩ := by
      intro j
      have h := hdone (Op.clearValues j i.toNat) (List.mem_append_left _
        (List.mem_map_of_mem (List.mem_finRange j)))
      rwa [Op.Done, hi] at h
    have hlow : regs.stateBitmapsLow (BitVec.ofNat 14 i.toNat) = 0 :=
      hdone (.clearStateBitmapLow i.toNat) (List.mem_append_right _ List.mem_cons_self)
    have hhigh : regs.stateBitmapsHigh (BitVec.ofNat 14 i.toNat) = 0 :=
      hdone (.clearStateBitmapHigh i.toNat)
        (List.mem_append_right _ (List.mem_cons_of_mem _ List.mem_cons_self))
    rw [hi] at hlow hhigh
    rw [Registers.cell, Cell.zero, hlow, hhigh, NodeBitmap.none]
    exact congrArg (Cell.mk · _) (funext hvalues)

/-! ### The operations of the callback -/

def Fails (ops : List Op) : Prop := ∃ message, Op.fail message ∈ ops

/-- The channel's part of the QP that a key matches. -/
def keyCommon (k : UnitSelectorKey) : BitVec 16 := commonOf k.dstQp.value

/-- What the operations that install a channel write. A selector of an inner pipe is written in front
of an exception. -/
def Installs (rc : CollectiveChannel) (ops : List Op) : Op → Prop
  | .putUnitSelector pipe k d => d.aggUnit = rc.aggUnit ∧ keyCommon k = rc.fabricQpCommon ∧
      (pipe = 0 ∨ pipe = 3 ∨ Fails ops)
  | .putChooseAction _ k _ => k.aggUnit = rc.aggUnit.setWidth 8 ∧ rc.aggUnit.toNat < 256
  | .putPreNode _ _ | .putPreMgid _ _ | .putOutputAddress _ _ _ | .putRoceAckReflector _ _ _ => True
  | .putCheckComplete _ _ _ | .fail _ => True
  | _ => False

section Installing

variable {rc : CollectiveChannel}

theorem Fails.mono {ops ops' : List Op} (h : Fails ops) (hsub : ops ⊆ ops') : Fails ops' := by
  obtain ⟨message, hmem⟩ := h
  exact ⟨message, hsub hmem⟩

theorem Installs.mono {ops ops' : List Op} {op : Op} (h : Installs rc ops op) (hsub : ops ⊆ ops') :
    Installs rc ops' op := by
  cases op with
  | putUnitSelector pipe k d =>
      obtain ⟨hunit, hcommon, hpipe⟩ := h
      exact ⟨hunit, hcommon, hpipe.imp_right (Or.imp_right fun hfails => hfails.mono hsub)⟩
  | _ => exact h

theorem Installs.cleared_eq_none {ops : List Op} {op : Op} (h : Installs rc ops op) :
    op.cleared = none := by
  cases op with
  | clearValues | clearStateBitmapLow | clearStateBitmapHigh => contradiction
  | _ => rfl

theorem keyCommon_interPipeKey (port : PortId) :
    keyCommon (interPipeKey rc port) = rc.fabricQpCommon :=
  matches_common.1 rfl

theorem installs_participantOps {b : WorkerBitmaps} {pos : Nat} {part : Participant}
    (hqp : commonOf part.fabricQp = rc.fabricQpCommon) :
    ∀ op ∈ participantOps rc b pos part, Installs rc (participantOps rc b pos part) op := by
  intro op hop
  rw [participantOps] at hop ⊢
  split at hop
  · obtain rfl := List.mem_singleton.1 hop
    trivial
  · rename_i hroom
    rw [if_neg hroom]
    rcases List.mem_cons.1 hop with rfl | hop
    · refine ⟨rfl, hqp, ?_⟩
      rw [recircPipe]
      split_ifs with h0 h3
      · exact Or.inl h0
      · exact Or.inr (Or.inl h3)
      · exact Or.inr (Or.inr ⟨_, List.mem_cons_of_mem _ (List.mem_singleton.2 rfl)⟩)
    · split at hop
      · obtain rfl := List.mem_singleton.1 hop
        trivial
      · rcases List.mem_pair.1 hop with rfl | rfl <;> trivial

theorem installs_participantsOps {parts : List Participant} {b : WorkerBitmaps} {pos : Nat}
    (hqps : ∀ p ∈ parts, commonOf p.fabricQp = rc.fabricQpCommon) :
    ∀ op ∈ participantsOps rc parts b pos, Installs rc (participantsOps rc parts b pos) op := by
  induction parts generalizing b pos with
  | nil => intro op hop; contradiction
  | cons part parts ih =>
      intro op hop
      rw [participantsOps] at hop ⊢
      rcases List.mem_append.1 hop with hop | hop
      · exact (installs_participantOps (hqps part List.mem_cons_self) op hop).mono
          (List.subset_append_left _ _)
      · exact (ih (fun p hp => hqps p (List.mem_cons_of_mem _ hp)) op hop).mono
          (List.subset_append_right _ _)

theorem installs_connectOps {b : WorkerBitmaps} {ops : List Op} :
    ∀ op ∈ (connectOps rc b).1, Installs rc ops op := by
  have haccept : ∀ (pipes : List PipeId) (s : List Op × WorkerBitmaps),
      (∀ op ∈ s.1, Installs rc ops op) →
        ∀ op ∈ (pipes.foldl (acceptOps rc) s).1, Installs rc ops op := by
    intro pipes
    induction pipes with
    | nil => exact fun _ hs => hs
    | cons pipe pipes ih =>
        intro s hs
        refine ih _ ?_
        rw [acceptOps]
        split
        · exact hs
        · intro op hop
          rcases List.mem_append.1 hop with hop | hop
          · exact hs op hop
          · obtain rfl := List.mem_singleton.1 hop
            exact ⟨rfl, keyCommon_interPipeKey _, Or.inr (Or.inl rfl)⟩
  rw [connectOps]
  split
  · intro op hop
    rcases List.mem_append.1 hop with hop | hop
    · exact haccept _ _ (fun _ hnone => by contradiction) op hop
    · obtain rfl := List.mem_singleton.1 hop
      exact ⟨rfl, keyCommon_interPipeKey _, Or.inr (Or.inl rfl)⟩
  · intro op hop
    contradiction

theorem installs_unitOps {connected : Bool} {full : PipeId → NodeBitmap} {ops : List Op} :
    ∀ op ∈ unitOps rc connected full, Installs rc ops op := by
  intro op hop
  rw [unitOps] at hop
  split at hop
  · rename_i aggUnit hkey
    obtain ⟨hlt, rfl⟩ := aggUnitKey_ok hkey
    rcases List.mem_append.1 hop with hop | hop
    · obtain ⟨pipe, -, hop⟩ := List.mem_flatMap.1 hop
      rw [completionOps] at hop
      split at hop
      · contradiction
      · rcases List.mem_pair.1 hop with rfl | rfl <;> trivial
    · obtain ⟨j, -, hop⟩ := List.mem_flatMap.1 hop
      rcases List.mem_pair.1 hop with rfl | rfl <;> exact ⟨rfl, hlt⟩
  · obtain rfl := List.mem_singleton.1 hop
    trivial

theorem installs_channelOps (hqps : ∀ p ∈ rc.members, commonOf p.fabricQp = rc.fabricQpCommon) :
    ∀ op ∈ channelOps rc, Installs rc (channelOps rc) op := by
  intro op hop
  rw [channelOps] at hop ⊢
  rcases List.mem_append.1 hop with hop | hop
  · rcases List.mem_append.1 hop with hop | hop
    · obtain ⟨g, -, rfl⟩ := List.mem_map.1 hop
      trivial
    · obtain rfl := List.mem_singleton.1 hop
      trivial
  · rcases List.mem_append.1 hop with hop | hop
    · exact (installs_participantsOps hqps op hop).mono fun op' hop' =>
        List.mem_append_right _ (List.mem_append_left _ hop')
    · rcases List.mem_append.1 hop with hop | hop
      · exact installs_connectOps op hop
      · exact installs_unitOps op hop

end Installing

/-- What the operations that delete are about. -/
def Sweeps (channels : List CollectiveChannel) (asic : Asic) : Op → Prop
  | .delUnitSelector pipe k => ∃ d, (asic.pipes pipe).unitSelector.lookup k = some d ∧
      aggUnitInUse channels d.aggUnit = false
  | .delCheckComplete _ _ | .delOutputAddress _ _ | .delRoceAckReflector _ _ => True
  | .delChooseAction _ _ | .delPreMgid _ | .delPreNode _ => True
  | _ => False

section Callback

variable {channels : List CollectiveChannel} {asic asic' : Asic}

theorem Sweeps.cleared_eq_none {op : Op}
    (h : Sweeps channels asic op) : op.cleared = none := by
  cases op with
  | clearValues | clearStateBitmapLow | clearStateBitmapHigh => contradiction
  | _ => rfl

theorem sweeps_sweepPipe {pipe recirc : PipeId} :
    ∀ op ∈ sweepPipe channels asic pipe recirc, Sweeps channels asic op := by
  intro op hop
  rcases List.mem_append.1 hop with hop | hop
  · obtain ⟨k, hk, rfl⟩ := List.mem_map.1 hop
    obtain ⟨⟨k, d⟩, he, rfl⟩ := List.mem_map.1 hk
    obtain ⟨hentry, hdrop⟩ := List.mem_filter.1 he
    exact ⟨d, (FinTable.mem_entries_iff _).1 hentry, by simpa using hdrop⟩
  · rcases List.mem_append.1 hop with hop | hop
    · obtain ⟨k, -, rfl⟩ := List.mem_map.1 hop
      trivial
    · rcases List.mem_append.1 hop with hop | hop <;> obtain ⟨k, -, rfl⟩ := List.mem_map.1 hop <;>
        trivial

theorem sweeps_sweepTables : ∀ op ∈ sweepTables channels asic, Sweeps channels asic op := by
  intro op hop
  rcases List.mem_append.1 hop with hop | hop
  · exact sweeps_sweepPipe op hop
  · rcases List.mem_append.1 hop with hop | hop
    · exact sweeps_sweepPipe op hop
    · rcases List.mem_append.1 hop with hop | hop
      · obtain ⟨j, -, hop⟩ := List.mem_flatMap.1 hop
        obtain ⟨k, -, rfl⟩ := List.mem_map.1 hop
        trivial
      · rcases List.mem_append.1 hop with hop | hop <;> obtain ⟨k, -, rfl⟩ := List.mem_map.1 hop <;>
          trivial

theorem mem_clearOps {op : Op} {aggUnit : BitVec 16} : op ∈ clearOps aggUnit ↔
    ∃ i, i / 256 = aggUnit.toNat ∧ op ∈ clearIndex i := by
  rw [clearOps, List.mem_flatMap]
  constructor
  · rintro ⟨n, hn, hop⟩
    have hlt := List.mem_range.1 hn
    exact ⟨_, by omega, hop⟩
  · rintro ⟨i, hi, hop⟩
    refine ⟨i % 256, List.mem_range.2 (Nat.mod_lt _ (by decide)), ?_⟩
    rwa [show aggUnit.toNat * 256 + i % 256 = i by omega]

theorem cleared_of_mem_clearIndex {op : Op} {i : Nat} (h : op ∈ clearIndex i) :
    op.cleared = some i := by
  rcases List.mem_append.1 h with h | h
  · obtain ⟨j, -, rfl⟩ := List.mem_map.1 h
    rfl
  · rcases List.mem_pair.1 h with rfl | rfl <;> rfl

theorem mem_ascending {units : List (BitVec 16)} {unit : BitVec 16} :
    unit ∈ ascending units ↔ unit ∈ units := by
  rw [ascending, List.mem_insertionSort, List.mem_dedup]

/-- The first part of the callback. -/
def installOps (channels : List CollectiveChannel) : List Op :=
  (knownChannels channels).flatMap channelOps

theorem installs_installOps
    (hqps : ∀ rc ∈ knownChannels channels, ∀ p ∈ rc.members, commonOf p.fabricQp = rc.fabricQpCommon) :
    ∀ op ∈ installOps channels, ∃ rc ∈ knownChannels channels, Installs rc (installOps channels) op := by
  intro op hop
  obtain ⟨rc, hrc, hop⟩ := List.mem_flatMap.1 hop
  exact ⟨rc, hrc, (installs_channelOps (hqps rc hrc) op hop).mono fun op' hop' =>
    List.mem_flatMap.2 ⟨rc, hrc, hop'⟩⟩

theorem callback_cases (hqps : ∀ rc ∈ knownChannels channels, ∀ p ∈ rc.members,
      commonOf p.fabricQp = rc.fabricQpCommon) :
    (callback channels asic = installOps channels ∧ Fails (installOps channels)) ∨
      ∃ installed, carryOut (installOps channels) asic = .ok installed ∧
        callback channels asic = installOps channels ++ (sweepTables channels installed ++
          (ascending (aggUnitsToClear channels installed)).flatMap clearOps) := by
  cases hinstall : carryOut (installOps channels) asic with
  | ok installed =>
      refine Or.inr ⟨installed, rfl, ?_⟩
      change carryOut ((knownChannels channels).flatMap channelOps) asic = _ at hinstall
      rw [callback, hinstall]
      rfl
  | error message =>
      refine Or.inl ⟨?_, ?_⟩
      · change carryOut ((knownChannels channels).flatMap channelOps) asic = _ at hinstall
        rw [callback, hinstall]
        rfl
      · by_contra hfails
        obtain ⟨asic', hok⟩ := @Fallible.exists_foldlM _ _ _ Op.apply (installOps channels)
          (fun asic op hop => by
            obtain ⟨rc, hrc, hinstalls⟩ := installs_installOps hqps op hop
            cases op with
            | fail message => exact absurd ⟨message, hop⟩ hfails
            | putPreNode | putPreMgid | putUnitSelector | putOutputAddress | putRoceAckReflector
                | putCheckComplete | putChooseAction => exact ⟨_, rfl⟩
            | _ => contradiction) asic
        rw [carryOut, hok] at hinstall
        contradiction

/-- The selector entries in front of the deletions: those from before, and those of programmed
channels. -/
theorem lookup_installed (hqps : ∀ rc ∈ knownChannels channels, ∀ p ∈ rc.members,
      commonOf p.fabricQp = rc.fabricQpCommon)
    (h : carryOut (installOps channels) asic = .ok asic') (pipe : PipeId) (k : UnitSelectorKey) :
    ((asic'.pipes pipe).unitSelector.lookup k = (asic.pipes pipe).unitSelector.lookup k) ∨
      ∃ rc ∈ knownChannels channels, keyCommon k = rc.fabricQpCommon ∧
        ∀ d, (asic'.pipes pipe).unitSelector.lookup k = some d → d.aggUnit = rc.aggUnit := by
  refine Fallible.foldlM_invariant (I := fun asic' : Asic =>
    ((asic'.pipes pipe).unitSelector.lookup k = (asic.pipes pipe).unitSelector.lookup k) ∨
      ∃ rc ∈ knownChannels channels, keyCommon k = rc.fabricQpCommon ∧
        ∀ d, (asic'.pipes pipe).unitSelector.lookup k = some d → d.aggUnit = rc.aggUnit)
    h (Or.inl rfl) fun asic₁ op asic₂ hop hasic₁ happly => ?_
  have hlookup := Op.lookup_unitSelector happly pipe k
  obtain ⟨rc, hrc, hinstalls⟩ := installs_installOps hqps op hop
  cases op with
  | putUnitSelector pipe' k' d' =>
      dsimp only at hlookup
      split at hlookup
      · rename_i hkey
        obtain ⟨-, rfl⟩ := hkey
        refine Or.inr ⟨rc, hrc, hinstalls.2.1, fun d hd => ?_⟩
        rw [hlookup] at hd
        obtain rfl := Option.some.inj hd
        exact hinstalls.1
      · rwa [hlookup]
  | putPreNode | putPreMgid | putOutputAddress | putRoceAckReflector | putCheckComplete
      | putChooseAction | fail =>
      dsimp only at hlookup
      rwa [hlookup]
  | _ => contradiction

end Callback

namespace Reconfiguration

/-! ### What holds between the operations -/

/-- What the pending operations may be, while some channels are programmed. -/
def Admitted (known : List CollectiveChannel) (ops : List Op) : Op → Prop
  | .putUnitSelector pipe k d => (∃ rc ∈ known, d.aggUnit = rc.aggUnit ∧
      keyCommon k = rc.fabricQpCommon) ∧ (pipe = 0 ∨ pipe = 3 ∨ Fails ops)
  | .putChooseAction _ k _ => k.aggUnit ≠ 255
  | .delUnitSelector _ k => (∀ rc ∈ known, keyCommon k ≠ rc.fabricQpCommon) ∧ ¬ Fails ops
  | op => ∀ i, op.cleared = some i → ∀ rc ∈ known, i / 256 ≠ rc.aggUnit.toNat

/-- An entry of a unit that is not in use is going to be deleted, and the unit cleared after that. A
cell of a unit that no selector gives is empty or going to be cleared. -/
structure Inv (t : Reconfiguration) : Prop where
  wellFormed : WellFormed t.stRepo
  units : ∀ c ∈ t.stRepo.getChannels, c.aggUnit.toNat < 64
  selectors : ∀ pipe k d, (t.asic.pipes pipe).unitSelector.lookup k = some d →
    d.aggUnit.toNat < 64 ∧ (pipe = 0 ∨ pipe = 3 ∨ Fails t.pending) ∧
      ∀ rc ∈ knownChannels t.stRepo.getChannels,
        keyCommon k = rc.fabricQpCommon ↔ d.aggUnit = rc.aggUnit
  unused : ∀ pipe k d, (t.asic.pipes pipe).unitSelector.lookup k = some d →
    (∃ rc ∈ knownChannels t.stRepo.getChannels, d.aggUnit = rc.aggUnit) ∨ Fails t.pending ∨
      (.delUnitSelector pipe k ∈ t.pending ∧ ∀ op ∈ clearOps d.aggUnit, op ∈ t.pending)
  actions : ∀ j k a, (t.asic.chooseAction j).lookup k = some a → k.aggUnit ≠ 255
  admitted : ∀ op ∈ t.pending, Admitted (knownChannels t.stRepo.getChannels) t.pending op
  ordered : t.pending.Pairwise fun op op' => op.cleared ≠ none →
    ∀ pipe k, op' ≠ .delUnitSelector pipe k
  empty : ∀ pipe (i : BitVec 14), (∀ unit, unit.toNat = i.toNat / 256 → ¬ Selects t.asic unit) →
    ∀ op ∈ clearIndex i.toNat, op.Done (t.asic.regs pipe) ∨ op ∈ t.pending

theorem selects_iff {asic : Asic} {aggUnit : BitVec 16} : Selects asic aggUnit ↔
    ∃ pipe k d, (asic.pipes pipe).unitSelector.lookup k = some d ∧ d.aggUnit = aggUnit := by
  simp only [Selects, Prod.exists, FinTable.mem_entries_iff]

theorem common_iff_unit {r : StateRepository} (h : WellFormed r) {rc rc' : CollectiveChannel}
    (hrc : rc ∈ knownChannels r.getChannels) (hrc' : rc' ∈ knownChannels r.getChannels) :
    rc.fabricQpCommon = rc'.fabricQpCommon ↔ rc.aggUnit = rc'.aggUnit := by
  obtain ⟨tag, hmem, -⟩ := mem_knownChannels.1 hrc
  obtain ⟨tag', hmem', -⟩ := mem_knownChannels.1 hrc'
  constructor
  · intro heq
    exact congrArg (fun e => e.2.aggUnit) (h.commons _ hmem _ hmem' heq)
  · intro heq
    exact congrArg (fun e => e.2.fabricQpCommon) (h.aggUnits _ hmem _ hmem' heq)

section Operation

variable {t t' : Reconfiguration} {op : Op}

theorem Fails.tail {asic asic' : Asic} {ops : List Op} (happly : op.apply asic = .ok asic')
    (h : Fails (op :: ops)) : Fails ops := by
  obtain ⟨message, hmem⟩ := h
  rcases List.mem_cons.1 hmem with rfl | hmem
  · contradiction
  · exact ⟨message, hmem⟩

theorem Admitted.tail {known : List CollectiveChannel} {asic asic' : Asic} {ops : List Op}
    (happly : op.apply asic = .ok asic') {op' : Op} (h : Admitted known (op :: ops) op') :
    Admitted known ops op' := by
  cases op' with
  | putUnitSelector pipe k d =>
      exact ⟨h.1, h.2.imp_right (Or.imp_right fun hfails => Fails.tail happly hfails)⟩
  | delUnitSelector pipe k =>
      exact ⟨h.1, fun hfails => h.2 (hfails.mono (List.subset_cons_self _ _))⟩
  | _ => exact h

/-- A selector entry after an operation was written by it, or was there and is not deleted. -/
theorem lookup_operation {asic asic' : Asic} (happly : op.apply asic = .ok asic') {pipe : PipeId}
    {k : UnitSelectorKey} {d : SelectAggUnit}
    (hlookup : (asic'.pipes pipe).unitSelector.lookup k = some d) :
    (op = .putUnitSelector pipe k d) ∨
      ((asic.pipes pipe).unitSelector.lookup k = some d ∧ op ≠ .delUnitSelector pipe k) := by
  rw [Op.lookup_unitSelector happly] at hlookup
  cases op with
  | putUnitSelector pipe' k' d' =>
      dsimp only at hlookup
      split at hlookup
      · rename_i hkey
        obtain ⟨rfl, rfl⟩ := hkey
        obtain rfl := Option.some.inj hlookup
        exact Or.inl rfl
      · exact Or.inr ⟨hlookup, fun heq => by contradiction⟩
  | delUnitSelector pipe' k' =>
      dsimp only at hlookup
      split at hlookup
      · contradiction
      · rename_i hkey
        refine Or.inr ⟨hlookup, fun heq => hkey ?_⟩
        obtain ⟨rfl, rfl⟩ := Op.delUnitSelector.inj heq
        exact ⟨rfl, rfl⟩
  | _ => exact Or.inr ⟨hlookup, fun heq => by contradiction⟩

theorem Inv.clears_of_deselected (h : Inv t) (hop : op ∈ t.pending) {asic' : Asic}
    (happly : op.apply t.asic = .ok asic') {aggUnit : BitVec 16} (hselects : Selects t.asic aggUnit)
    (hnot : ¬ Selects asic' aggUnit) :
    op.cleared = none ∧ ∀ op' ∈ clearOps aggUnit, op' ∈ t.pending := by
  obtain ⟨pipe, k, d, hlookup, rfl⟩ := selects_iff.1 hselects
  have hafter := Op.lookup_unitSelector happly pipe k
  have hgone : ∀ d', (asic'.pipes pipe).unitSelector.lookup k = some d' → d'.aggUnit ≠ d.aggUnit :=
    fun d' hd' heq => hnot (selects_iff.2 ⟨pipe, k, d', hd', heq⟩)
  obtain ⟨-, -, hbelongs⟩ := h.selectors pipe k d hlookup
  cases op with
  | putUnitSelector pipe' k' d' =>
      dsimp only at hafter
      split at hafter
      · rename_i hkey
        obtain ⟨rfl, rfl⟩ := hkey
        obtain ⟨⟨rc, hrc, hunit, hcommon⟩, -⟩ := h.admitted _ hop
        exact absurd (hunit.trans ((hbelongs rc hrc).1 hcommon).symm) (hgone d' hafter)
      · exact absurd rfl (hgone d (hafter.trans hlookup))
  | delUnitSelector pipe' k' =>
      dsimp only at hafter
      split at hafter
      · rename_i hkey
        obtain ⟨rfl, rfl⟩ := hkey
        obtain ⟨hcommons, hfails⟩ := h.admitted _ hop
        refine ⟨rfl, ?_⟩
        rcases h.unused pipe k d hlookup with ⟨rc, hrc, hunit⟩ | hfails' | ⟨-, hclears⟩
        · exact absurd ((hbelongs rc hrc).2 hunit) (hcommons rc hrc)
        · exact absurd hfails' hfails
        · exact hclears
      · exact absurd rfl (hgone d (hafter.trans hlookup))
  | _ => exact absurd rfl (hgone d (hafter.trans hlookup))

theorem Inv.operation (h : Inv t) (hpending : t.pending = op :: t'.pending)
    (happly : op.apply t.asic = .ok t'.asic) (hrepo : t'.stRepo = t.stRepo) : Inv t' := by
  have hop : op ∈ t.pending := hpending ▸ List.mem_cons_self
  have hmem : ∀ op', op' ∈ t.pending → op' ≠ op → op' ∈ t'.pending := by
    intro op' hop' hne
    rw [hpending] at hop'
    exact (List.mem_cons.1 hop').resolve_left hne
  have hfails : Fails t.pending → Fails t'.pending := by
    rw [hpending]
    exact Fails.tail happly
  have hordered := h.ordered
  rw [hpending, List.pairwise_cons] at hordered
  refine ⟨hrepo ▸ h.wellFormed, hrepo ▸ h.units, fun pipe k d hlookup => ?_,
    fun pipe k d hlookup => ?_, fun j k a hlookup => ?_, fun op' hop' => ?_, hordered.2,
    fun pipe i hunit op' hop' => ?_⟩
  · rw [hrepo]
    rcases lookup_operation happly hlookup with rfl | ⟨hold, -⟩
    · obtain ⟨⟨rc, hrc, hunit, hcommon⟩, hpipe⟩ := h.admitted _ hop
      refine ⟨?_, hpipe.imp_right (Or.imp_right hfails), fun rc' hrc' => ?_⟩
      · rw [hunit]
        exact h.units rc (List.mem_of_mem_filter hrc)
      · rw [hunit, hcommon]
        exact common_iff_unit h.wellFormed hrc hrc'
    · obtain ⟨hlt, hpipe, hbelongs⟩ := h.selectors pipe k d hold
      exact ⟨hlt, hpipe.imp_right (Or.imp_right hfails), hbelongs⟩
  · rw [hrepo]
    rcases lookup_operation happly hlookup with rfl | ⟨hold, hne⟩
    · obtain ⟨⟨rc, hrc, hunit, -⟩, -⟩ := h.admitted _ hop
      exact Or.inl ⟨rc, hrc, hunit⟩
    · refine (h.unused pipe k d hold).imp_right (Or.imp hfails fun ⟨hdel, hclears⟩ => ?_)
      have hdel' := hmem _ hdel hne.symm
      refine ⟨hdel', fun op' hop' => hmem op' (hclears op' hop') ?_⟩
      rintro rfl
      obtain ⟨i, -, hi⟩ := mem_clearOps.1 hop'
      exact hordered.1 _ hdel' (by simp [cleared_of_mem_clearIndex hi]) pipe k rfl
  · rcases Op.lookup_chooseAction happly hlookup with hold | rfl
    · exact h.actions j k a hold
    · exact h.admitted _ hop
  · rw [hrepo]
    have hadmitted := h.admitted op' (hpending ▸ List.mem_cons_of_mem _ hop')
    rw [hpending] at hadmitted
    exact hadmitted.tail happly
  · by_cases hselected : ∃ unit : BitVec 16, unit.toNat = i.toNat / 256 ∧ Selects t.asic unit
    · obtain ⟨unit, heq, hselects⟩ := hselected
      obtain ⟨hcleared, hclears⟩ := h.clears_of_deselected hop happly hselects (hunit unit heq)
      refine Or.inr (hmem op' (hclears op' (mem_clearOps.2 ⟨_, heq.symm, hop'⟩)) ?_)
      rintro rfl
      rw [cleared_of_mem_clearIndex hop'] at hcleared
      contradiction
    · rcases h.empty pipe i (fun unit heq hselects => hselected ⟨unit, heq, hselects⟩) op' hop' with
        hdone | hop'
      · exact Or.inl (hdone.apply happly)
      · by_cases heq : op' = op
        · exact Or.inl (heq ▸ Op.done_apply happly pipe)
        · exact Or.inr (hmem op' hop' heq)

end Operation

section Steps

variable {m : Matcher} {t t' : Reconfiguration}

theorem done_iff_of_cell {regs regs' : Registers} {i : BitVec 14} (h : regs'.cell i = regs.cell i)
    {op : Op} (hop : op ∈ clearIndex i.toNat) : op.Done regs' ↔ op.Done regs := by
  have hi : BitVec.ofNat 14 i.toNat = i := by simp
  rcases List.mem_append.1 hop with hop | hop
  · obtain ⟨j, -, rfl⟩ := List.mem_map.1 hop
    have hvalue : regs'.values j i = regs.values j i := congrFun (congrArg Cell.values h) j
    rw [Op.Done, Op.Done, hi, hvalue]
  · rcases List.mem_pair.1 hop with rfl | rfl
    · have hlow : regs'.stateBitmapsLow i = regs.stateBitmapsLow i :=
        congrArg (fun c => c.bitmap.low) h
      change regs'.stateBitmapsLow (BitVec.ofNat 14 i.toNat) = 0 ↔ _ = _
      rw [hi, hlow]
    · have hhigh : regs'.stateBitmapsHigh i = regs.stateBitmapsHigh i :=
        congrArg (fun c => c.bitmap.high) h
      change regs'.stateBitmapsHigh (BitVec.ofNat 14 i.toNat) = 0 ↔ _ = _
      rw [hi, hhigh]

theorem Inv.cell_packet (h : Inv t) (m : Matcher) (a : Arrival) {pipe : PipeId} {i : BitVec 14}
    (hunit : ∀ unit, unit.toNat = i.toNat / 256 → ¬ Selects t.asic unit) :
    (regsAfter m t.asic t.asic.regs a pipe).cell i = (t.asic.regs pipe).cell i := by
  cases hsel : selectedUnit m t.asic a with
  | none =>
      rw [regsAfter_of_selectedUnit_none m hsel]
      intro j isClear
      cases hlookup : (t.asic.chooseAction j).lookup ⟨255, isClear⟩ with
      | none => rfl
      | some action => exact absurd rfl (h.actions j _ action hlookup)
  | some aggUnit =>
      refine cell_regsAfter_of_selectedUnit m hsel _ fun heq => ?_
      rw [selectedUnit] at hsel
      split at hsel
      · obtain ⟨d, hpick, rfl⟩ := Option.map_eq_some_iff.1 hsel
        obtain ⟨k, hmem, -⟩ := m.unitSelector.hit_of_pick hpick
        have hlookup := (FinTable.mem_entries_iff _).1 hmem
        have hlt := (h.selectors _ k d hlookup).1
        rw [Nat.mod_eq_of_lt hlt] at heq
        exact hunit d.aggUnit heq.symm (selects_iff.2 ⟨_, k, d, hlookup, rfl⟩)
      · contradiction

theorem Inv.packet (h : Inv t) (a : Arrival) : Inv { t with
    asic := { t.asic with regs := regsAfter m t.asic t.asic.regs a } } where
  wellFormed := h.wellFormed
  units := h.units
  selectors := h.selectors
  unused := h.unused
  actions := h.actions
  admitted := h.admitted
  ordered := h.ordered
  empty pipe i hunit op hop :=
    (h.empty pipe i hunit op hop).imp_left (done_iff_of_cell (h.cell_packet m a hunit) hop).2

/-- Where the channels after a call come from. -/
def Renews (r r' : StateRepository) (c : Call) : Prop :=
  ∀ c' ∈ r'.getChannels,
    (∃ c₀ ∈ r.getChannels, c₀.aggUnit = c'.aggUnit ∧ c₀.fabricQpCommon = c'.fabricQpCommon) ∨
      (c = .addChannel c' ∧ r.getChannels.length < r'.getChannels.length)

theorem call_schedule {c : Call}
    (h : call schedule (t.stRepo, t.asic, t.pending) c = .ok (t'.stRepo, t'.asic, t'.pending)) :
    Called schedule (t.stRepo, t.asic, t.pending) c (t'.stRepo, t'.asic, t'.pending) ∧
      t'.asic = t.asic ∧ Renews t.stRepo t'.stRepo c ∧
      (t' = t ∨ t'.pending = callback t'.stRepo.getChannels t.asic) := by
  obtain ⟨r', asic', pending'⟩ := t'
  have hcalled := StateRepository.call_ok h
  refine ⟨hcalled, ?_⟩
  have hsame : ∀ c' ∈ t.stRepo.getChannels, ∃ c ∈ t.stRepo.getChannels,
      c.aggUnit = c'.aggUnit ∧ c.fabricQpCommon = c'.fabricQpCommon := fun c' hc' => ⟨c', hc', rfl, rfl⟩
  generalize hrs : (r', asic', pending') = rs' at hcalled
  cases hcalled with
  | @added c s' hnew hnotify =>
      obtain ⟨rfl, hs⟩ := Prod.mk.inj hrs
      rw [← hs] at hnotify
      obtain ⟨rfl, rfl⟩ := Prod.mk.inj (Except.ok.inj hnotify)
      refine ⟨rfl, fun c' hc' => ?_, Or.inr rfl⟩
      obtain ⟨tag, hmem⟩ := OrderedMap.mem_values.1 hc'
      rcases (OrderedMap.mem_insert hnew).1 hmem with heq | hold
      · obtain ⟨rfl, rfl⟩ := Prod.mk.inj heq
        exact Or.inr ⟨rfl, (OrderedMap.length_insert hnew).symm ▸ Nat.lt_succ_self _⟩
      · exact Or.inl (hsame c' (OrderedMap.mem_values.2 ⟨tag, hold⟩))
  | @updated tag clientId u c p s' hc hp hchanges hnotify =>
      obtain ⟨rfl, hs⟩ := Prod.mk.inj hrs
      rw [← hs] at hnotify
      obtain ⟨rfl, rfl⟩ := Prod.mk.inj (Except.ok.inj hnotify)
      refine ⟨rfl, fun c' hc' => Or.inl ?_, Or.inr rfl⟩
      obtain ⟨tag', hmem⟩ := OrderedMap.mem_values.1 hc'
      obtain ⟨c₀, hc₀, rfl⟩ := OrderedMap.mem_modify.1 hmem
      refine ⟨c₀, OrderedMap.mem_values.2 ⟨tag', hc₀⟩, ?_⟩
      split <;> exact ⟨rfl, rfl⟩
  | unchanged _ _ _ =>
      obtain ⟨rfl, hs⟩ := Prod.mk.inj hrs
      obtain ⟨rfl, rfl⟩ := Prod.mk.inj hs
      exact ⟨rfl, fun c' hc' => Or.inl (hsame c' hc'), Or.inl rfl⟩
  | @removed tag s' hnotify =>
      obtain ⟨rfl, hs⟩ := Prod.mk.inj hrs
      rw [← hs] at hnotify
      obtain ⟨rfl, rfl⟩ := Prod.mk.inj (Except.ok.inj hnotify)
      refine ⟨rfl, fun c' hc' => Or.inl (hsame c' ?_), Or.inr rfl⟩
      obtain ⟨tag', hmem⟩ := OrderedMap.mem_values.1 hc'
      exact OrderedMap.mem_values.2 ⟨tag', (OrderedMap.mem_erase.1 hmem).1⟩

theorem Inv.used_of_idle (h : Inv t) (hpending : t.pending = []) {pipe : PipeId} {k : UnitSelectorKey}
    {d : SelectAggUnit} (hlookup : (t.asic.pipes pipe).unitSelector.lookup k = some d) :
    (pipe = 0 ∨ pipe = 3) ∧ ∃ rc ∈ knownChannels t.stRepo.getChannels,
      d.aggUnit = rc.aggUnit ∧ keyCommon k = rc.fabricQpCommon := by
  have hfails : ¬ Fails t.pending := by
    rw [hpending]
    rintro ⟨message, hmem⟩
    contradiction
  obtain ⟨-, hpipe, hbelongs⟩ := h.selectors pipe k d hlookup
  refine ⟨hpipe.imp_right fun h3 => h3.resolve_right hfails, ?_⟩
  rcases h.unused pipe k d hlookup with ⟨rc, hrc, hunit⟩ | hfails' | ⟨hdel, -⟩
  · exact ⟨rc, hrc, hunit, (hbelongs rc hrc).2 hunit⟩
  · exact absurd hfails' hfails
  · rw [hpending] at hdel
    contradiction

/-- A channel after a call and a programmed channel before it agree in their unit exactly when they do in
their common part. -/
theorem Renews.common_iff_unit {r r' : StateRepository} {c : Call} (h : Renews r r' c)
    (hr : WellFormed r) (hpromised : Promised r c) {rc rc' : CollectiveChannel}
    (hrc : rc ∈ r.getChannels) (hrc' : rc' ∈ r'.getChannels) :
    rc.fabricQpCommon = rc'.fabricQpCommon ↔ rc.aggUnit = rc'.aggUnit := by
  rcases h rc' hrc' with ⟨c₀, hc₀, hunit, hcommon⟩ | ⟨rfl, -⟩
  · rw [← hunit, ← hcommon]
    obtain ⟨tag, hmem⟩ := OrderedMap.mem_values.1 hrc
    obtain ⟨tag₀, hmem₀⟩ := OrderedMap.mem_values.1 hc₀
    constructor
    · intro heq
      exact congrArg (fun e => e.2.aggUnit) (hr.commons _ hmem _ hmem₀ heq)
    · intro heq
      exact congrArg (fun e => e.2.fabricQpCommon) (hr.aggUnits _ hmem _ hmem₀ heq)
  · exact iff_of_false (hpromised.1 rc hrc).2 (hpromised.1 rc hrc).1

theorem qps_of_wellFormed {r : StateRepository} (hr : WellFormed r) :
    ∀ rc ∈ knownChannels r.getChannels, ∀ p ∈ rc.members, commonOf p.fabricQp = rc.fabricQpCommon := by
  intro rc hrc p hp
  obtain ⟨tag, hmem, hknown⟩ := mem_knownChannels.1 hrc
  exact hr.fabricQps _ hmem p hp (CollectiveChannel.allNodesKnown_iff.1 hknown p hp)

theorem aggUnitInUse_eq_false {channels : List CollectiveChannel} {aggUnit : BitVec 16}
    (h : aggUnitInUse channels aggUnit = false) : ∀ rc ∈ knownChannels channels, aggUnit ≠ rc.aggUnit := by
  rintro rc hrc rfl
  rw [aggUnitInUse_iff.2 ⟨rc, hrc, rfl⟩] at h
  contradiction

theorem mem_callback_of_unused {channels : List CollectiveChannel} {asic : Asic}
    (hqps : ∀ rc ∈ knownChannels channels, ∀ p ∈ rc.members, commonOf p.fabricQp = rc.fabricQpCommon)
    {pipe : PipeId} (hpipe : pipe = 0 ∨ pipe = 3) {k : UnitSelectorKey} {d : SelectAggUnit}
    (hlookup : (asic.pipes pipe).unitSelector.lookup k = some d)
    (hunit : ∀ rc ∈ knownChannels channels, d.aggUnit ≠ rc.aggUnit)
    (hcommon : ∀ rc ∈ knownChannels channels, keyCommon k ≠ rc.fabricQpCommon) :
    Fails (callback channels asic) ∨ (.delUnitSelector pipe k ∈ callback channels asic ∧
      ∀ op ∈ clearOps d.aggUnit, op ∈ callback channels asic) := by
  rcases @callback_cases channels asic hqps with ⟨hcallback, hfails⟩ | ⟨installed, hinstall, hcallback⟩
  · rw [hcallback]
    exact Or.inl hfails
  · right
    have hinstalled : (installed.pipes pipe).unitSelector.lookup k = some d := by
      rcases lookup_installed hqps hinstall pipe k with hsame | ⟨rc, hrc, heq, -⟩
      · rw [hsame, hlookup]
      · exact absurd heq (hcommon rc hrc)
    have hentry := (FinTable.mem_entries_iff _).2 hinstalled
    have hdrop : aggUnitInUse channels d.aggUnit = false := by
      by_contra hinUse
      obtain ⟨rc, hrc, heq⟩ := aggUnitInUse_iff.1 (Bool.not_eq_false _ ▸ hinUse)
      exact hunit rc hrc (BitVec.eq_of_toNat_eq heq.symm)
    have hswept : Op.delUnitSelector pipe k ∈
        ((installed.pipes pipe).unitSelector.swept fun _ d => aggUnitInUse channels d.aggUnit).map
          (.delUnitSelector pipe) :=
      List.mem_map_of_mem (List.mem_map.2 ⟨(k, d), List.mem_filter.2 ⟨hentry, by simp [hdrop]⟩, rfl⟩)
    rw [hcallback]
    constructor
    · refine List.mem_append_right _ (List.mem_append_left _ ?_)
      rcases hpipe with rfl | rfl
      · exact List.mem_append_left _ (List.mem_append_left _ hswept)
      · exact List.mem_append_right _ (List.mem_append_left _ (List.mem_append_left _ hswept))
    · intro op hop
      refine List.mem_append_right _ (List.mem_append_right _ (List.mem_flatMap.2 ⟨d.aggUnit, ?_, hop⟩))
      rw [mem_ascending, aggUnitsToClear]
      refine List.mem_flatMap.2 ⟨pipe, by simpa using hpipe, List.mem_filter.2 ⟨?_, by simp [hdrop]⟩⟩
      exact List.mem_map.2 ⟨(k, d), hentry, rfl⟩

theorem not_fails_of_carryOut {ops : List Op} {asic asic' : Asic} (h : carryOut ops asic = .ok asic') :
    ¬ Fails ops := by
  rintro ⟨message, hmem⟩
  obtain ⟨asic₁, asic₂, happly⟩ := Fallible.exists_step_of_mem h hmem
  contradiction

theorem admitted_of_installs {known : List CollectiveChannel} {rc : CollectiveChannel} (hrc : rc ∈ known)
    (hlt : rc.aggUnit.toNat < 64) {ops : List Op} {op : Op} (h : Installs rc ops op) :
    Admitted known ops op := by
  cases op with
  | putUnitSelector pipe k d => exact ⟨⟨rc, hrc, h.1, h.2.1⟩, h.2.2⟩
  | putChooseAction j k a =>
      intro heq
      have htoNat := congrArg BitVec.toNat (h.1.symm.trans heq)
      rw [BitVec.toNat_setWidth, Nat.mod_eq_of_lt (by omega)] at htoNat
      have h255 : (255 : BitVec 8).toNat = 255 := rfl
      omega
  | putPreNode | putPreMgid | putOutputAddress | putRoceAckReflector | putCheckComplete | fail =>
      intro i hi
      contradiction
  | _ => contradiction

/-- The operations of the callback, for entries that each belong to a channel exactly when they match
its common part. -/
theorem admitted_installOps {r : StateRepository} (hr : WellFormed r)
    (hunits : ∀ c ∈ r.getChannels, c.aggUnit.toNat < 64) {ops : List Op}
    (hsub : installOps r.getChannels ⊆ ops) :
    ∀ op ∈ installOps r.getChannels, Admitted (knownChannels r.getChannels) ops op := by
  intro op hop
  obtain ⟨rc, hrc, hinstalls⟩ := installs_installOps (qps_of_wellFormed hr) op hop
  exact admitted_of_installs hrc (hunits rc (List.mem_of_mem_filter hrc)) (hinstalls.mono hsub)

theorem cleared_of_unused {channels : List CollectiveChannel} {asic : Asic} {op : Op}
    (hop : op ∈ (ascending (aggUnitsToClear channels asic)).flatMap clearOps) :
    ∃ i, op.cleared = some i ∧ ∀ rc ∈ knownChannels channels, i / 256 ≠ rc.aggUnit.toNat := by
  obtain ⟨unit, hunit, hop⟩ := List.mem_flatMap.1 hop
  obtain ⟨i, hi, hop⟩ := mem_clearOps.1 hop
  rw [mem_ascending] at hunit
  obtain ⟨pipe, -, hunit⟩ := List.mem_flatMap.1 hunit
  have hdrop := (List.mem_filter.1 hunit).2
  refine ⟨i, cleared_of_mem_clearIndex hop, fun rc hrc heq => ?_⟩
  refine aggUnitInUse_eq_false (by simpa using hdrop) rc hrc (BitVec.eq_of_toNat_eq ?_)
  rw [← hi, heq]

section Carried

variable {r : StateRepository} {asic installed : Asic}

theorem not_fails_callback (hinstall : carryOut (installOps r.getChannels) asic = .ok installed)
    (hcallback : callback r.getChannels asic =
      installOps r.getChannels ++ (sweepTables r.getChannels installed ++
        (ascending (aggUnitsToClear r.getChannels installed)).flatMap clearOps)) :
    ¬ Fails (callback r.getChannels asic) := by
  rintro ⟨message, hmem⟩
  rw [hcallback] at hmem
  rcases List.mem_append.1 hmem with hmem | hmem
  · exact not_fails_of_carryOut hinstall ⟨message, hmem⟩
  · rcases List.mem_append.1 hmem with hmem | hmem
    · exact sweeps_sweepTables _ hmem
    · obtain ⟨i, hi, -⟩ := cleared_of_unused hmem
      contradiction

theorem admitted_sweepTables (hr : WellFormed r)
    (hbelongs : ∀ pipe k d, (asic.pipes pipe).unitSelector.lookup k = some d →
      ∀ rc ∈ knownChannels r.getChannels, keyCommon k = rc.fabricQpCommon ↔ d.aggUnit = rc.aggUnit)
    (hinstall : carryOut (installOps r.getChannels) asic = .ok installed) {ops : List Op}
    (hfails : ¬ Fails ops) {op : Op} (hop : op ∈ sweepTables r.getChannels installed) :
    Admitted (knownChannels r.getChannels) ops op := by
  have hsweep := sweeps_sweepTables op hop
  cases op with
  | delUnitSelector pipe k =>
      obtain ⟨d, hd, hdrop⟩ := hsweep
      refine ⟨fun rc hrc hcommon => ?_, hfails⟩
      have hunused := aggUnitInUse_eq_false hdrop
      rcases lookup_installed (qps_of_wellFormed hr) hinstall pipe k with hsame | ⟨rc', hrc', -, hwritten⟩
      · rw [hsame] at hd
        exact hunused rc hrc ((hbelongs pipe k d hd rc hrc).1 hcommon)
      · exact hunused rc' hrc' (hwritten d hd)
  | delCheckComplete | delOutputAddress | delRoceAckReflector | delChooseAction | delPreMgid
      | delPreNode =>
      intro i hi
      contradiction
  | _ => contradiction

theorem admitted_clears {ops : List Op} {op : Op}
    (hop : op ∈ (ascending (aggUnitsToClear r.getChannels installed)).flatMap clearOps) :
    Admitted (knownChannels r.getChannels) ops op := by
  obtain ⟨i, hi, hunit⟩ := cleared_of_unused hop
  cases op with
  | clearValues | clearStateBitmapLow | clearStateBitmapHigh =>
      intro i' hi'
      obtain rfl := Option.some.inj (hi.symm.trans hi')
      exact hunit
  | _ => contradiction

end Carried

theorem admitted_callback {r : StateRepository} (hr : WellFormed r)
    (hunits : ∀ c ∈ r.getChannels, c.aggUnit.toNat < 64) {asic : Asic}
    (hbelongs : ∀ pipe k d, (asic.pipes pipe).unitSelector.lookup k = some d →
      ∀ rc ∈ knownChannels r.getChannels, keyCommon k = rc.fabricQpCommon ↔ d.aggUnit = rc.aggUnit) :
    (∀ op ∈ callback r.getChannels asic,
      Admitted (knownChannels r.getChannels) (callback r.getChannels asic) op) ∧
    (callback r.getChannels asic).Pairwise fun op op' => op.cleared ≠ none →
      ∀ pipe k, op' ≠ .delUnitSelector pipe k := by
  have hqps := qps_of_wellFormed hr
  have hnotCleared : ∀ op ∈ installOps r.getChannels, op.cleared = none := by
    intro op hop
    obtain ⟨rc, -, hinstalls⟩ := installs_installOps hqps op hop
    exact hinstalls.cleared_eq_none
  rcases @callback_cases r.getChannels asic hqps with ⟨hcallback, -⟩ | ⟨installed, hinstall, hcallback⟩
  · rw [hcallback]
    exact ⟨admitted_installOps hr hunits (List.Subset.refl _), List.pairwise_of_forall_mem_list
      fun op hop op' _ hcleared => absurd (hnotCleared op hop) hcleared⟩
  · have hfails := not_fails_callback hinstall hcallback
    constructor
    · intro op hop
      rw [hcallback] at hop
      rcases List.mem_append.1 hop with hop | hop
      · refine admitted_installOps hr hunits ?_ op hop
        rw [hcallback]
        exact List.subset_append_left _ _
      · rcases List.mem_append.1 hop with hop | hop
        · exact admitted_sweepTables hr hbelongs hinstall hfails hop
        · exact admitted_clears hop
    · -- the clearing comes last, and deletes nothing
      have hlast : ∀ op ∈ (ascending (aggUnitsToClear r.getChannels installed)).flatMap clearOps,
          ∀ pipe k, op ≠ .delUnitSelector pipe k := by
        rintro op hop pipe k rfl
        obtain ⟨i, hi, -⟩ := cleared_of_unused hop
        contradiction
      rw [hcallback, ← List.append_assoc]
      refine List.pairwise_append.2 ⟨?_, ?_, ?_⟩
      · refine List.pairwise_of_forall_mem_list fun op hop op' _ hcleared => absurd ?_ hcleared
        rcases List.mem_append.1 hop with hop | hop
        · exact hnotCleared op hop
        · exact (sweeps_sweepTables op hop).cleared_eq_none
      · exact List.pairwise_of_forall_mem_list fun op _ op' hop' _ => hlast op' hop'
      · exact fun op _ op' hop' _ => hlast op' hop'

theorem Inv.call (h : Inv t) {c : Call} (hpending : t.pending = []) (hpromised : Promised t.stRepo c)
    (hallocates : Allocates t.stRepo c)
    (hcall : StateRepository.call schedule (t.stRepo, t.asic, t.pending) c =
      .ok (t'.stRepo, t'.asic, t'.pending))
    (hbound : t'.stRepo.getChannels.length ≤ 64) : Inv t' := by
  obtain ⟨hcalled, hasic, hrenews, hcases⟩ := call_schedule hcall
  rcases hcases with rfl | hcallback
  · exact h
  have hwellFormed : WellFormed t'.stRepo := h.wellFormed.called hpromised hcalled
  have hunits : ∀ c' ∈ t'.stRepo.getChannels, c'.aggUnit.toNat < 64 := by
    intro c' hc'
    rcases hrenews c' hc' with ⟨c₀, hc₀, hunit, -⟩ | ⟨rfl, hlt⟩
    · rw [← hunit]
      exact h.units c₀ hc₀
    · have hle := StateRepository.getFreeAggUnit_le hallocates
      omega
  have hbelongs : ∀ pipe k d, (t.asic.pipes pipe).unitSelector.lookup k = some d →
      ∀ rc ∈ knownChannels t'.stRepo.getChannels,
        keyCommon k = rc.fabricQpCommon ↔ d.aggUnit = rc.aggUnit := by
    intro pipe k d hlookup rc' hrc'
    obtain ⟨-, rc, hrc, hunit, hcommon⟩ := h.used_of_idle hpending hlookup
    rw [hunit, hcommon]
    exact hrenews.common_iff_unit h.wellFormed hpromised (List.mem_of_mem_filter hrc)
      (List.mem_of_mem_filter hrc')
  obtain ⟨hadmitted, hordered⟩ := admitted_callback hwellFormed hunits hbelongs
  rw [← hcallback] at hadmitted hordered
  refine ⟨hwellFormed, hunits, fun pipe k d hlookup => ?_, fun pipe k d hlookup => ?_,
    fun j k a hlookup => ?_, hadmitted, hordered, fun pipe i hunit op hop => ?_⟩
  · rw [hasic] at hlookup
    exact ⟨(h.selectors pipe k d hlookup).1,
      (h.used_of_idle hpending hlookup).1.imp_right Or.inl, hbelongs pipe k d hlookup⟩
  · rw [hasic] at hlookup
    by_cases hused : ∃ rc ∈ knownChannels t'.stRepo.getChannels, d.aggUnit = rc.aggUnit
    · exact Or.inl hused
    · right
      have hunused : ∀ rc ∈ knownChannels t'.stRepo.getChannels, d.aggUnit ≠ rc.aggUnit :=
        fun rc hrc heq => hused ⟨rc, hrc, heq⟩
      rw [hcallback]
      exact mem_callback_of_unused (qps_of_wellFormed hwellFormed)
        (h.used_of_idle hpending hlookup).1 hlookup hunused fun rc hrc heq =>
          hunused rc hrc ((hbelongs pipe k d hlookup rc hrc).1 heq)
  · rw [hasic] at hlookup
    exact h.actions j k a hlookup
  · rw [hasic] at hunit ⊢
    rcases h.empty pipe i hunit op hop with hdone | hmem
    · exact Or.inl hdone
    · rw [hpending] at hmem
      contradiction

theorem Inv.step (h : Inv t) {e : Event} (hstep : Steps m t e t') : Inv t' := by
  cases e with
  | call c =>
      obtain ⟨hpending, hpromised, hallocates, hcall, hbound⟩ := hstep
      exact h.call hpending hpromised hallocates hcall hbound
  | operation =>
      obtain ⟨op, hpending, happly, hrepo⟩ := hstep
      exact h.operation hpending happly hrepo
  | packet a =>
      obtain rfl := hstep
      exact h.packet a

theorem index_of_cellIndex {aggUnit : BitVec 16} (hlt : aggUnit.toNat < 64) (psn : IbPsn) :
    (Collectives.cellIndex aggUnit psn).toNat / 256 = aggUnit.toNat := by
  rw [cellIndex_toNat, Nat.mod_eq_of_lt hlt]
  omega

theorem Inv.clean (h : Inv t) {e : Event} (hstep : Steps m t e t') : Clean t e t' := by
  cases e with
  | call c =>
      obtain ⟨hpending, -, -, hcall, -⟩ := hstep
      obtain ⟨-, hasic, -, -⟩ := call_schedule hcall
      intro rc _ hnew hselects
      rw [hasic] at hselects
      obtain ⟨pipe, k, d, hlookup, hunit⟩ := selects_iff.1 hselects
      obtain ⟨-, rc', hrc', hunit', -⟩ := h.used_of_idle hpending hlookup
      exact hnew rc' hrc' (hunit'.symm.trans hunit)
  | operation =>
      obtain ⟨op, hpending, happly, -⟩ := hstep
      have hop : op ∈ t.pending := hpending ▸ List.mem_cons_self
      constructor
      · intro pipe k d hhead hnot pipe' psn
        rw [hpending] at hhead
        obtain rfl := Option.some.inj hhead
        obtain ⟨⟨rc, hrc, hunit, -⟩, -⟩ := h.admitted _ hop
        have hlt : d.aggUnit.toNat < 64 := hunit ▸ h.units rc (List.mem_of_mem_filter hrc)
        have hindex := index_of_cellIndex hlt psn
        refine cell_eq_zero_iff.2 fun op' hop' => ?_
        have hempty := h.empty pipe' (Collectives.cellIndex d.aggUnit psn) (fun unit heq => by
          rw [hindex] at heq
          rwa [BitVec.eq_of_toNat_eq heq]) op' hop'
        refine hempty.resolve_right fun hmem => ?_
        have hadmitted := h.admitted op' hmem
        have hcleared := cleared_of_mem_clearIndex hop'
        cases op' with
        | clearValues | clearStateBitmapLow | clearStateBitmapHigh =>
            exact hadmitted _ hcleared rc hrc (hindex.trans (congrArg BitVec.toNat hunit))
        | _ => contradiction
      · intro rc hrc pipe psn
        refine Op.cell_apply happly fun hcleared => ?_
        have hlt := h.units rc (List.mem_of_mem_filter hrc)
        have hadmitted := h.admitted op hop
        cases op with
        | clearValues | clearStateBitmapLow | clearStateBitmapHigh =>
            exact hadmitted _ hcleared rc hrc (index_of_cellIndex hlt psn)
        | _ => contradiction
  | packet a => trivial

end Steps

def initial (baseMac : MacAddr) (ip : IPv4Addr) : Reconfiguration :=
  ⟨(startup baseMac ip).1, (startup baseMac ip).2, []⟩

theorem inv_initial (baseMac : MacAddr) (ip : IPv4Addr) : Inv (initial baseMac ip) where
  wellFormed := StateRepository.wellFormed_initial baseMac ip
  units _ hc := by contradiction
  selectors _ _ _ hlookup := by contradiction
  unused _ _ _ hlookup := by contradiction
  actions _ _ _ hlookup := by contradiction
  admitted _ hop := by contradiction
  ordered := List.Pairwise.nil
  empty pipe i _ op hop := Or.inl (cell_eq_zero_iff.1 rfl op hop)

/-- **Clean units.** With at most 64 channels at once, and packets between any two operations of the
driver, a new channel starts with empty cells, and the driver writes no cell of a programmed one. -/
theorem run_clean (m : Matcher) (baseMac : MacAddr) (ip : IPv4Addr)
    (run : List (Event × Reconfiguration)) (hrun : Along (Steps m) (initial baseMac ip) run) :
    Along Clean (initial baseMac ip) run :=
  hrun.imp (I := Inv) (fun _ _ _ h hstep => h.step hstep) (fun _ _ _ h hstep => h.clean hstep)
    (inv_initial baseMac ip)

/-! ### Packets between any two operations -/

def after (m : Matcher) (t : Reconfiguration) : Event → Reconfiguration
  | .call c =>
      match call schedule (t.stRepo, t.asic, t.pending) c with
      | .ok x => ⟨x.1, x.2.1, x.2.2⟩
      | .error _ => t
  | .operation =>
      match t.pending with
      | [] => t
      | op :: ops =>
          match op.apply t.asic with
          | .ok asic => ⟨t.stRepo, asic, ops⟩
          | .error _ => t
  | .packet a => { t with asic := { t.asic with regs := regsAfter m t.asic t.asic.regs a } }

section Busy

variable {m : Matcher} {t : Reconfiguration}

theorem after_operation {op : Op} {ops : List Op} {asic : Asic} (hpending : t.pending = op :: ops)
    (happly : op.apply t.asic = .ok asic) : after m t .operation = ⟨t.stRepo, asic, ops⟩ := by
  rw [after, hpending]
  simp only [happly]

theorem apply_regs {op : Op} {asic asic' : Asic} (h : op.apply asic = .ok asic')
    (regs : PipeId → Registers) :
    ∃ regs', op.apply { asic with regs := regs } = .ok { asic' with regs := regs' } := by
  cases op with
  | putPreNode | putPreMgid | putUnitSelector | putOutputAddress | putRoceAckReflector
      | putCheckComplete | putChooseAction =>
      obtain rfl := Except.ok.inj h
      exact ⟨regs, rfl⟩
  | delUnitSelector | delCheckComplete | delOutputAddress | delRoceAckReflector | delChooseAction
      | delPreMgid | delPreNode =>
      obtain ⟨t, ht, rfl⟩ := Op.delete_ok h
      refine ⟨regs, ?_⟩
      simp only [Op.apply, Op.delete, ht, Asic.onPipe]
  | clearValues | clearStateBitmapLow | clearStateBitmapHigh =>
      rw [Op.apply] at h
      obtain ⟨hlt, rfl⟩ := Op.clear_ok h
      exact ⟨_, if_pos hlt⟩
  | fail message => contradiction

theorem carryOut_regs {ops : List Op} {asic asic' : Asic} (h : carryOut ops asic = .ok asic')
    (regs : PipeId → Registers) :
    ∃ regs', carryOut ops { asic with regs := regs } = .ok { asic' with regs := regs' } := by
  induction ops generalizing asic regs with
  | nil =>
      obtain rfl := Except.ok.inj h
      exact ⟨regs, rfl⟩
  | cons op ops ih =>
      obtain ⟨asic₁, happly, hrest⟩ := Fallible.foldlM_cons_eq_ok.1 h
      obtain ⟨regs₁, happly'⟩ := apply_regs happly regs
      obtain ⟨regs', hrest'⟩ := ih hrest regs₁
      exact ⟨regs', Fallible.foldlM_cons_eq_ok.2 ⟨_, happly', hrest'⟩⟩

theorem along_packets (as : List Arrival) :
    Along (Steps m) t (runOf (after m) t (as.map .packet)) ∧ ∃ regs,
      (as.map Event.packet).foldl (after m) t = { t with asic := { t.asic with regs := regs } } := by
  induction as generalizing t with
  | nil => exact ⟨trivial, t.asic.regs, rfl⟩
  | cons a as ih =>
      obtain ⟨hrun, regs, hlast⟩ := @ih (after m t (.packet a))
      exact ⟨⟨rfl, hrun⟩, regs, hlast⟩

/-- Operations of the driver, each of them after the passes of some packets. -/
def busy (as : List Arrival) (n : Nat) : List Event :=
  (List.replicate n (as.map Event.packet ++ [.operation])).flatten

/-- A callback that ends normally does so with packets between its operations. -/
theorem along_busy (as : List Arrival) {asic : Asic} (h : carryOut t.pending t.asic = .ok asic) :
    Along (Steps m) t (runOf (after m) t (busy as t.pending.length)) ∧
      ((busy as t.pending.length).foldl (after m) t).pending = [] ∧
      ((busy as t.pending.length).foldl (after m) t).stRepo = t.stRepo := by
  generalize hops : t.pending = ops at h
  induction ops generalizing t asic with
  | nil => exact ⟨trivial, hops, rfl⟩
  | cons op ops ih =>
      obtain ⟨hpackets, regs, hlast⟩ := along_packets (m := m) (t := t) as
      obtain ⟨regs₁, hcarry⟩ := carryOut_regs h regs
      obtain ⟨asic₁, happly, hrest⟩ := Fallible.foldlM_cons_eq_ok.1 hcarry
      have hoperation : after m { t with asic := { t.asic with regs := regs } } .operation =
          ⟨t.stRepo, asic₁, ops⟩ := after_operation hops happly
      obtain ⟨hrun, hpending, hrepo⟩ := @ih ⟨t.stRepo, asic₁, ops⟩ _ rfl hrest
      have hevents : busy as (op :: ops).length =
          as.map Event.packet ++ .operation :: busy as ops.length := by
        rw [List.length_cons, busy, List.replicate_succ, List.flatten_cons, List.append_assoc]
        rfl
      rw [hevents, Along.runOf_append, List.foldl_append, hlast, List.foldl_cons, runOf, hoperation]
      exact ⟨⟨hpackets, ⟨op, hops, happly, rfl⟩, hrun⟩, hpending, hrepo⟩

def silent : List CollectiveChannel → Unit → Except String Unit := fun _ s => .ok s

theorem after_call {c : Call} (h : (call silent (t.stRepo, ()) c).isOk = true) :
    call schedule (t.stRepo, t.asic, t.pending) c = .ok ((after m t (.call c)).stRepo,
        (after m t (.call c)).asic, (after m t (.call c)).pending) ∧
      (after m t (.call c)).stRepo = (StateRepository.afterCall silent (t.stRepo, ()) c).1 := by
  have hnotify : ∀ r (s : Asic × List Op), StateRepository.notifySubscribers schedule r s =
      .ok (r, s.1, callback r.getChannels s.1) := fun _ _ => rfl
  have hok : ∃ x, call schedule (t.stRepo, t.asic, t.pending) c = .ok x ∧
      x.1 = (StateRepository.afterCall silent (t.stRepo, ()) c).1 := by
    rw [StateRepository.afterCall]
    cases c with
    | addChannel c =>
        simp only [call] at h ⊢
        cases hadd : t.stRepo.addChannel c with
        | error message => rw [hadd] at h; contradiction
        | ok r => exact ⟨_, rfl, rfl⟩
    | updateChannelParticipant tag clientId u =>
        simp only [call] at h ⊢
        cases hupdate : t.stRepo.updateChannelParticipant tag clientId u with
        | error message => rw [hupdate] at h; contradiction
        | ok x =>
            obtain ⟨r, notified⟩ := x
            cases notified <;> exact ⟨_, rfl, rfl⟩
    | removeChannel tag =>
        simp only [call] at h ⊢
        cases hremove : t.stRepo.removeChannel tag with
        | error message => rw [hremove] at h; contradiction
        | ok r => exact ⟨_, rfl, rfl⟩
  obtain ⟨x, hx, hrepo⟩ := hok
  rw [after, hx]
  exact ⟨rfl, hrepo⟩

/-- The conditions on the calls: those of `Steps`, and that the known channels fit the tables. -/
def Served (rs : StateRepository × Unit) (c : Call) (rs' : StateRepository × Unit) : Prop :=
  (call silent rs c).isOk = true ∧ Promised rs.1 c ∧ Allocates rs.1 c ∧
    rs'.1.getChannels.length ≤ 64 ∧ ∀ rc ∈ knownChannels rs'.1.getChannels, Fits rc

instance (rs : StateRepository × Unit) (c : Call) (rs' : StateRepository × Unit) :
    Decidable (Served rs c rs') :=
  inferInstanceAs (Decidable (_ ∧ _ ∧ _ ∧ _ ∧ ∀ rc ∈ _, _))

/-- Calls, each with so many operations of the driver. -/
def busyCalls (as : List Arrival) (cs : List Call) (ns : List Nat) : List Event :=
  (List.zipWith (fun c n => .call c :: busy as n) cs ns).flatten

/-- Whatever packets come between the operations of the driver, it comes to the end of every call. -/
theorem exists_busy_run (h : Inv t) (hpending : t.pending = []) (as : List Arrival) {cs : List Call}
    (hcs : Along Served (t.stRepo, ()) (runOf (StateRepository.afterCall silent) (t.stRepo, ()) cs)) :
    ∃ ns, ns.length = cs.length ∧ Along (Steps m) t (runOf (after m) t (busyCalls as cs ns)) ∧
      ((busyCalls as cs ns).foldl (after m) t).pending = [] := by
  induction cs generalizing t with
  | nil => exact ⟨[], rfl, trivial, hpending⟩
  | cons c cs ih =>
      obtain ⟨⟨hok, hpromised, hallocates, hbound, hfits⟩, hrest⟩ := hcs
      obtain ⟨hcall, hrepo⟩ := after_call (m := m) hok
      rw [← hrepo] at hbound hfits
      have hstep : Steps m t (.call c) (after m t (.call c)) :=
        ⟨hpending, hpromised, hallocates, hcall, hbound⟩
      have hcarry : ∃ asic, carryOut (after m t (.call c)).pending (after m t (.call c)).asic =
          .ok asic := by
        obtain ⟨-, hasic, -, hsame | hcallback⟩ := call_schedule hcall
        · rw [hsame, hpending]
          exact ⟨_, rfl⟩
        · rw [hcallback, hasic, carryOut_callback]
          refine exists_onStRepoChannels hfits fun pipe e he => Or.inr ?_
          exact (h.selectors pipe e.1 e.2 ((FinTable.mem_entries_iff _).1 he)).1
      obtain ⟨asic, hcarry⟩ := hcarry
      obtain ⟨hrun, hend, hsame⟩ := along_busy (m := m) as hcarry
      have hinv := Along.invariant_foldl (fun _ _ _ h hstep => h.step hstep) hrun (h.step hstep)
      obtain ⟨ns, hlength, hruns, hlast⟩ := @ih _ hinv hend (by rw [hsame, hrepo]; exact hrest)
      have hevents : busyCalls as (c :: cs) ((after m t (.call c)).pending.length :: ns) =
          .call c :: (busy as (after m t (.call c)).pending.length ++ busyCalls as cs ns) := rfl
      refine ⟨(after m t (.call c)).pending.length :: ns, congrArg Nat.succ hlength, ?_⟩
      rw [hevents, List.foldl_cons, List.foldl_append]
      exact ⟨⟨hstep, Along.runOf_append.2 ⟨hrun, hruns⟩⟩, hlast⟩

end Busy

/-! ### A unit that is used again -/

/-- An event that `after` carries out. -/
def Possible (m : Matcher) (t : Reconfiguration) : Event → Prop
  | .call c => t.pending.isEmpty = true ∧ Promised t.stRepo c ∧ Allocates t.stRepo c ∧
      (call silent (t.stRepo, ()) c).isOk = true ∧
      (after m t (.call c)).stRepo.getChannels.length ≤ 64
  | .operation => (t.pending.head?.any fun op => (op.apply t.asic).isOk) = true
  | .packet _ => True

instance (m : Matcher) (t : Reconfiguration) : ∀ e, Decidable (Possible m t e)
  | .call _ => inferInstanceAs (Decidable (_ ∧ _ ∧ _ ∧ _ ∧ _))
  | .operation => inferInstanceAs (Decidable (_ = true))
  | .packet _ => isTrue trivial

theorem steps_after {m : Matcher} {t : Reconfiguration} {e : Event} (h : Possible m t e) :
    Steps m t e (after m t e) := by
  cases e with
  | call c =>
      obtain ⟨hpending, hpromised, hallocates, hok, hbound⟩ := h
      exact ⟨List.isEmpty_iff.1 hpending, hpromised, hallocates, (after_call hok).1, hbound⟩
  | operation =>
      cases hpending : t.pending with
      | nil =>
          rw [Possible, hpending] at h
          contradiction
      | cons op ops =>
          rw [Possible, hpending] at h
          cases happly : op.apply t.asic with
          | error message =>
              rw [List.head?_cons, Option.any_some, happly] at h
              contradiction
          | ok asic =>
              rw [after_operation hpending happly]
              exact ⟨op, hpending, happly, rfl⟩
  | packet a => rfl

namespace Reuse

open Relocation (channel register)

def packetOf (tag : Nat) : Arrival :=
  probe (channel tag 0 []) { clientId := 7, ip := 10, fabricQp := BitVec.ofNat 24 (tag * 256) } 0

/-- Two channels are installed, and in each of them the participant 7 sends while the driver works. -/
def before : List Event :=
  [.call (.addChannel (channel 1 0 [7, 8, 9])), .call (register 1 7 10 5 6 0),
      .call (register 1 8 11 5 6 4), .call (register 1 9 12 5 6 384)] ++
    List.replicate 83 .operation ++ [.packet (packetOf 1), .call (.addChannel (channel 2 1 [7]))] ++
    List.replicate 83 .operation ++ [.call (register 2 7 10 5 6 0)] ++
    List.replicate 154 .operation ++ [.packet (packetOf 2)]

def installed : Reconfiguration := before.foldl (after Matcher.first) (initial 0 1)

/-- The first channel is removed, and a third one gets its unit. -/
def afterwards : List Call :=
  [.removeChannel 1, .addChannel (channel 3 0 [7]), register 3 7 10 5 6 0]

/-- The slot of the first channel is partially filled when it is removed, and the three participants
send in front of every operation of the driver that follows. -/
theorem reused_clean :
    (installed.asic.regs 0).stateBitmapsLow (Collectives.cellIndex 0 0) = 1 ∧
    ∃ ns,
      let es := before ++ busyCalls [packetOf 1, packetOf 2, packetOf 3] afterwards ns
      (es.foldl (after Matcher.first) (initial 0 1)).pending = [] ∧
        Along (Steps Matcher.first) (initial 0 1) (runOf (after Matcher.first) (initial 0 1) es) ∧
        Along Clean (initial 0 1) (runOf (after Matcher.first) (initial 0 1) es) := by
  have hpossible : Along (fun t e _ => Possible Matcher.first t e) (initial 0 1)
      (runOf (after Matcher.first) (initial 0 1) before) := by
    decide +kernel
  have hbefore := hpossible.of_runOf fun _ _ => steps_after
  have hinv : Inv installed :=
    Along.invariant_foldl (fun _ _ _ h hstep => h.step hstep) hbefore (inv_initial 0 1)
  have hpending : installed.pending.isEmpty = true := by decide +kernel
  have hserved : Along Served (installed.stRepo, ())
      (runOf (StateRepository.afterCall silent) (installed.stRepo, ()) afterwards) := by
    decide +kernel
  obtain ⟨ns, -, hbusy, hend⟩ := exists_busy_run (m := Matcher.first) hinv
    (List.isEmpty_iff.1 hpending) [packetOf 1, packetOf 2, packetOf 3] hserved
  have hrun := Along.runOf_append.2 ⟨hbefore, hbusy⟩
  refine ⟨by decide +kernel, ns, ?_, hrun, run_clean Matcher.first 0 1 _ hrun⟩
  rw [List.foldl_append]
  exact hend

end Reuse

end Reconfiguration

end AsicDriver

end Mpitofino
