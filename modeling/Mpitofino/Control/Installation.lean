import Mpitofino.Control.AsicDriver
import Mpitofino.Library.Fallible
import Mathlib.Tactic.IntervalCases

/-!
# What the driver installs

The loops of `on_st_repo_channels` in closed form: for each table of each pipe the list of writes a
channel causes. The `k`-th participant of a pipe gets the `k`-th bit there, the inter-pipe entries of
pipe 3 the bits after its last participant.
-/

namespace Mpitofino

namespace Asic

theorem pipes_onPipe (asic : Asic) (pipe pipe' : PipeId) (f : PipeTables → PipeTables) :
    (asic.onPipe pipe f).pipes pipe' =
      if pipe' = pipe then f (asic.pipes pipe') else asic.pipes pipe' := by
  by_cases h : pipe' = pipe
  · rw [if_pos h, h]
    exact Function.update_self ..
  · rw [if_neg h]
    exact Function.update_of_ne h ..

section Put

variable (asic : Asic) (pipe pipe' : PipeId)

private theorem component_onPipe {T : Type} (g : PipeTables → T) (f : PipeTables → PipeTables) :
    g ((asic.onPipe pipe f).pipes pipe') =
      if pipe' = pipe then g (f (asic.pipes pipe')) else g (asic.pipes pipe') := by
  rw [pipes_onPipe]
  exact apply_ite g ..

theorem unitSelector_onPipe (f : PipeTables → PipeTables) :
    ((asic.onPipe pipe f).pipes pipe').unitSelector =
      if pipe' = pipe then (f (asic.pipes pipe')).unitSelector
      else (asic.pipes pipe').unitSelector :=
  component_onPipe asic pipe pipe' PipeTables.unitSelector f

theorem checkComplete_onPipe (f : PipeTables → PipeTables) :
    ((asic.onPipe pipe f).pipes pipe').checkComplete =
      if pipe' = pipe then (f (asic.pipes pipe')).checkComplete
      else (asic.pipes pipe').checkComplete :=
  component_onPipe asic pipe pipe' PipeTables.checkComplete f

theorem outputAddress_onPipe (f : PipeTables → PipeTables) :
    ((asic.onPipe pipe f).pipes pipe').outputAddress =
      if pipe' = pipe then (f (asic.pipes pipe')).outputAddress
      else (asic.pipes pipe').outputAddress :=
  component_onPipe asic pipe pipe' PipeTables.outputAddress f

theorem roceAckReflector_onPipe (f : PipeTables → PipeTables) :
    ((asic.onPipe pipe f).pipes pipe').roceAckReflector =
      if pipe' = pipe then (f (asic.pipes pipe')).roceAckReflector
      else (asic.pipes pipe').roceAckReflector :=
  component_onPipe asic pipe pipe' PipeTables.roceAckReflector f

end Put

end Asic

namespace CollectiveChannel

/-- The participants of a pipe, in the order of their client ids. -/
def onPipe (rc : CollectiveChannel) (pipe : PipeId) : List Participant :=
  rc.members.filter fun p => pipeOf p.switchPort = pipe

def count (rc : CollectiveChannel) (pipe : PipeId) : Nat := (rc.onPipe pipe).length

def connected (rc : CollectiveChannel) : Bool := 0 < rc.count 0 && 0 < rc.count 3

/-- The number of contributions a slot of a pipe waits for. -/
def contributions (rc : CollectiveChannel) (pipe : PipeId) : Nat :=
  if pipe = 3 ∧ rc.connected then rc.count 3 + 1 else rc.count pipe

/-- The participants the driver has a bitmap bit for. -/
def capacity (pipe : PipeId) : Nat := if pipe = 3 then 61 else 64

end CollectiveChannel

namespace AsicDriver

open NodeBitmap

/-! ### The writes of a channel -/

def participantSelectorWrites (rc : CollectiveChannel) (pipe : PipeId) :
    List (UnitSelectorKey × SelectAggUnit) :=
  (rc.onPipe pipe).zipIdx.map fun e => (participantKey rc e.1, selectData rc (nodeAt e.2))

def interPipeSelectorWrites (rc : CollectiveChannel) : List (UnitSelectorKey × SelectAggUnit) :=
  if rc.connected then
    [(interPipeKey rc 448, selectData rc (nodeAt (rc.count 3))),
      (interPipeKey rc 452, selectData rc (nodeAt (rc.count 3 + 1)))]
  else []

def selectorWrites (rc : CollectiveChannel) (pipe : PipeId) :
    List (UnitSelectorKey × SelectAggUnit) :=
  participantSelectorWrites rc pipe ++ if pipe = 3 then interPipeSelectorWrites rc else []

def completeWrites (rc : CollectiveChannel) (pipe : PipeId) :
    List (CheckCompleteKey × CheckCompleteAction) :=
  if rc.count pipe = 0 then []
  else
    [(completeKey (rc.aggUnit.setWidth 8) (fullAt (rc.contributions pipe)),
        .checkCompleteTrue (recircPort pipe)),
      (clearKey (rc.aggUnit.setWidth 8), clearAction rc.connected rc pipe)]

def outputAddressWrites (rc : CollectiveChannel) (egressPipe : PipeId) :
    List (OutputAddressKey × OutputAddressSet) :=
  ((rc.members.zipIdx 1).filter fun e => recircPipe (pipeOf e.1.switchPort) = some egressPipe).map
    fun e => (⟨rc.aggUnit, BitVec.ofNat 16 e.2⟩, outputAddress rc e.1)

def roceAckWrites (rc : CollectiveChannel) (pipe : PipeId) : List (RoceAckReflectorKey × IbQp) :=
  (rc.onPipe pipe).map fun p => (⟨p.ip, p.fabricQp⟩, p.localQp)

def chooseActionWrites (rc : CollectiveChannel) : List (ChooseActionKey × ChooseAction) :=
  [(⟨rc.aggUnit.setWidth 8, false⟩, .aggInt32Add), (⟨rc.aggUnit.setWidth 8, true⟩, .aggInt32Clear)]

def preNodeWrites (rc : CollectiveChannel) : List (Nat × PreNode) :=
  (groupPorts rc.aggUnit rc.members 1).map preNodeEntry

def preMgidWrites (rc : CollectiveChannel) : List (BitVec 16 × List PreMember) :=
  [(mcastGroup rc.aggUnit,
    (groupPorts rc.aggUnit rc.members 1).map fun g => ⟨g.1, false, 0⟩)]

/-! ### The participants -/

theorem insertParticipant_ok {rc : CollectiveChannel} {s s' : Insertion} {part : Participant}
    (h : insertParticipant rc s part = .ok s') :
    ∃ recirc, recircPipe (pipeOf part.switchPort) = some recirc ∧
      (s.bitmaps.full (pipeOf part.switchPort)).high < bitmapLimit (pipeOf part.switchPort) ∧
      s' = {
        asic := ((s.asic.putUnitSelector (pipeOf part.switchPort) (participantKey rc part)
            (selectData rc (s.bitmaps.node (pipeOf part.switchPort)))).putOutputAddress recirc
            ⟨rc.aggUnit, BitVec.ofNat 16 s.pos⟩ (outputAddress rc part)).putRoceAckReflector
            (pipeOf part.switchPort) ⟨part.ip, part.fabricQp⟩ part.localQp
        bitmaps := s.bitmaps.update (pipeOf part.switchPort)
        pos := s.pos + 1 } := by
  rw [insertParticipant] at h
  split at h
  · contradiction
  · rename_i hroom
    split at h
    · contradiction
    · rename_i recirc hrecirc
      exact ⟨recirc, hrecirc, BitVec.not_le.1 hroom, (Except.ok.inj h).symm⟩

theorem high_lt_limit (k : Fin 65) (pipe : PipeId) :
    (fullAt k.val).high < bitmapLimit pipe ↔ k.val < CollectiveChannel.capacity pipe := by
  revert k pipe
  decide +kernel

variable {rc : CollectiveChannel} {parts : List Participant} {s s' : Insertion}
  {count : PipeId → Nat}

private abbrev countOn (parts : List Participant) (pipe : PipeId) : Nat :=
  (parts.filter fun p => pipeOf p.switchPort = pipe).length

theorem insertAll_bitmaps (h : parts.foldlM (insertParticipant rc) s = .ok s')
    (hs : s.bitmaps = WorkerBitmaps.counted count) :
    s'.bitmaps = WorkerBitmaps.counted fun pipe => count pipe + countOn parts pipe := by
  induction parts generalizing s count with
  | nil =>
      rw [Fallible.foldlM_nil_eq_ok] at h
      rw [h, hs]
      rfl
  | cons part parts ih =>
      obtain ⟨s₁, h₁, h₂⟩ := Fallible.foldlM_cons_eq_ok.1 h
      obtain ⟨recirc, -, -, rfl⟩ := insertParticipant_ok h₁
      rw [ih h₂ (by rw [hs, WorkerBitmaps.update_counted])]
      congr 1
      funext pipe
      by_cases hpipe : pipe = pipeOf part.switchPort
      · subst hpipe
        simp [countOn]
        omega
      · simp [countOn, hpipe, Ne.symm hpipe]

theorem insertAll_room (h : parts.foldlM (insertParticipant rc) s = .ok s')
    (hs : s.bitmaps = WorkerBitmaps.counted count)
    (hroom : ∀ pipe, count pipe ≤ CollectiveChannel.capacity pipe) (pipe : PipeId) :
    count pipe + countOn parts pipe ≤ CollectiveChannel.capacity pipe := by
  induction parts generalizing s count with
  | nil => exact hroom pipe
  | cons part parts ih =>
      obtain ⟨s₁, h₁, h₂⟩ := Fallible.foldlM_cons_eq_ok.1 h
      obtain ⟨recirc, -, hhigh, rfl⟩ := insertParticipant_ok h₁
      have hmax : ∀ pipe, CollectiveChannel.capacity pipe ≤ 64 := by decide
      have hlt : count (pipeOf part.switchPort) <
          CollectiveChannel.capacity (pipeOf part.switchPort) := by
        rw [hs] at hhigh
        have hle := (hroom (pipeOf part.switchPort)).trans (hmax _)
        exact (high_lt_limit ⟨count (pipeOf part.switchPort), by omega⟩ _).1 hhigh
      have hroom' : ∀ pipe, Function.update count (pipeOf part.switchPort)
          (count (pipeOf part.switchPort) + 1) pipe ≤ CollectiveChannel.capacity pipe := by
        intro pipe
        by_cases hpipe : pipe = pipeOf part.switchPort
        · rw [hpipe, Function.update_self]
          exact hlt
        · rw [Function.update_of_ne hpipe]
          exact hroom pipe
      refine le_trans (le_of_eq ?_) (ih h₂ (by rw [hs, WorkerBitmaps.update_counted]) hroom')
      by_cases hpipe : pipe = pipeOf part.switchPort
      · subst hpipe
        simp [countOn]
        omega
      · simp [countOn, hpipe, Ne.symm hpipe]

theorem insertAll_ports (h : parts.foldlM (insertParticipant rc) s = .ok s') :
    ∀ p ∈ parts, pipeOf p.switchPort = 0 ∨ pipeOf p.switchPort = 3 := by
  induction parts generalizing s with
  | nil => simp
  | cons part parts ih =>
      obtain ⟨s₁, h₁, h₂⟩ := Fallible.foldlM_cons_eq_ok.1 h
      obtain ⟨recirc, hrecirc, -, -⟩ := insertParticipant_ok h₁
      intro p hp
      rcases List.mem_cons.1 hp with rfl | hp
      · rw [recircPipe] at hrecirc
        split_ifs at hrecirc with h0 h3
        · exact Or.inl h0
        · exact Or.inr h3
      · exact ih h₂ p hp

theorem insertAll_unitSelector (h : parts.foldlM (insertParticipant rc) s = .ok s')
    (hs : s.bitmaps = WorkerBitmaps.counted count) (pipe : PipeId) :
    (s'.asic.pipes pipe).unitSelector = (s.asic.pipes pipe).unitSelector.putAll
      (((parts.filter fun p => pipeOf p.switchPort = pipe).zipIdx (count pipe)).map fun e =>
        (participantKey rc e.1, selectData rc (nodeAt e.2))) := by
  induction parts generalizing s count with
  | nil =>
      rw [Fallible.foldlM_nil_eq_ok] at h
      rw [h]
      rfl
  | cons part parts ih =>
      obtain ⟨s₁, h₁, h₂⟩ := Fallible.foldlM_cons_eq_ok.1 h
      obtain ⟨recirc, -, -, rfl⟩ := insertParticipant_ok h₁
      rw [ih h₂ (by rw [hs, WorkerBitmaps.update_counted])]
      by_cases hpipe : pipe = pipeOf part.switchPort
      · subst hpipe
        simp [Asic.putUnitSelector, Asic.putOutputAddress,
          Asic.putRoceAckReflector, Asic.unitSelector_onPipe, hs, WorkerBitmaps.counted]
      · simp [Asic.putUnitSelector, Asic.putOutputAddress,
          Asic.putRoceAckReflector, Asic.unitSelector_onPipe, hpipe, Ne.symm hpipe]

theorem insertAll_outputAddress (h : parts.foldlM (insertParticipant rc) s = .ok s')
    (egressPipe : PipeId) :
    (s'.asic.pipes egressPipe).outputAddress = (s.asic.pipes egressPipe).outputAddress.putAll
      (((parts.zipIdx s.pos).filter fun e =>
        recircPipe (pipeOf e.1.switchPort) = some egressPipe).map fun e =>
          (⟨rc.aggUnit, BitVec.ofNat 16 e.2⟩, outputAddress rc e.1)) := by
  induction parts generalizing s with
  | nil =>
      rw [Fallible.foldlM_nil_eq_ok] at h
      rw [h]
      rfl
  | cons part parts ih =>
      obtain ⟨s₁, h₁, h₂⟩ := Fallible.foldlM_cons_eq_ok.1 h
      obtain ⟨recirc, hrecirc, -, rfl⟩ := insertParticipant_ok h₁
      rw [ih h₂]
      by_cases hpipe : egressPipe = recirc
      · subst hpipe
        simp [Asic.putUnitSelector, Asic.putOutputAddress,
          Asic.putRoceAckReflector, Asic.outputAddress_onPipe, hrecirc]
      · simp [Asic.putUnitSelector, Asic.putOutputAddress,
          Asic.putRoceAckReflector, Asic.outputAddress_onPipe, hrecirc, hpipe, Ne.symm hpipe]

theorem insertAll_roceAckReflector (h : parts.foldlM (insertParticipant rc) s = .ok s')
    (pipe : PipeId) :
    (s'.asic.pipes pipe).roceAckReflector = (s.asic.pipes pipe).roceAckReflector.putAll
      ((parts.filter fun p => pipeOf p.switchPort = pipe).map fun p =>
        (⟨p.ip, p.fabricQp⟩, p.localQp)) := by
  induction parts generalizing s with
  | nil =>
      rw [Fallible.foldlM_nil_eq_ok] at h
      rw [h]
      rfl
  | cons part parts ih =>
      obtain ⟨s₁, h₁, h₂⟩ := Fallible.foldlM_cons_eq_ok.1 h
      obtain ⟨recirc, -, -, rfl⟩ := insertParticipant_ok h₁
      rw [ih h₂]
      by_cases hpipe : pipe = pipeOf part.switchPort
      · subst hpipe
        simp [Asic.putUnitSelector, Asic.putOutputAddress,
          Asic.putRoceAckReflector, Asic.roceAckReflector_onPipe]
      · simp [Asic.putUnitSelector, Asic.putOutputAddress,
          Asic.putRoceAckReflector, Asic.roceAckReflector_onPipe, hpipe, Ne.symm hpipe]

theorem insertAll_checkComplete (h : parts.foldlM (insertParticipant rc) s = .ok s')
    (pipe : PipeId) :
    (s'.asic.pipes pipe).checkComplete = (s.asic.pipes pipe).checkComplete :=
  Fallible.foldlM_frame (g := fun s : Insertion => (s.asic.pipes pipe).checkComplete) h
    fun s₁ part s₂ h₁ => by
      obtain ⟨recirc, -, -, rfl⟩ := insertParticipant_ok h₁
      simp [Asic.putUnitSelector, Asic.putOutputAddress,
          Asic.putRoceAckReflector, Asic.checkComplete_onPipe]

theorem insertAll_shared {T : Type} {g : Asic → T}
    (hg : ∀ asic pipe f, g (Asic.onPipe asic pipe f) = g asic)
    (h : parts.foldlM (insertParticipant rc) s = .ok s') : g s'.asic = g s.asic :=
  Fallible.foldlM_frame (g := fun s : Insertion => g s.asic) h fun s₁ part s₂ h₁ => by
    obtain ⟨recirc, -, -, rfl⟩ := insertParticipant_ok h₁
    change g (Asic.putRoceAckReflector _ _ _ _) = _
    rw [Asic.putRoceAckReflector, hg, Asic.putOutputAddress, hg, Asic.putUnitSelector, hg]

/-! ### The inter-pipe entries -/

theorem capacity_le (pipe : PipeId) : CollectiveChannel.capacity pipe ≤ 64 := by
  revert pipe
  decide

theorem haveConnectedPipes_counted (hcount : ∀ pipe, count pipe ≤ 64) (h1 : count 1 = 0)
    (h2 : count 2 = 0) :
    haveConnectedPipes (WorkerBitmaps.counted count).full =
      (decide (0 < count 0) && decide (0 < count 3)) := by
  have hlow : ∀ pipe, (((WorkerBitmaps.counted count).full pipe).low ≠ 0) = (0 < count pipe) := by
    intro pipe
    exact propext ((fullAt_low_eq_zero_iff (hcount pipe)).not.trans (Nat.pos_iff_ne_zero.symm))
  have hpipes : List.finRange 4 = [0, 1, 2, 3] := by decide
  simp only [haveConnectedPipes, hpipes, hlow, List.filter_cons, List.filter_nil, h1, h2]
  by_cases h0 : 0 < count 0 <;> by_cases h3 : 0 < count 3 <;> simp [h0, h3]

theorem connectPipes_counted (asic : Asic) (hcount : ∀ pipe, count pipe ≤ 64) (h1 : count 1 = 0)
    (h2 : count 2 = 0) :
    connectPipes rc asic (WorkerBitmaps.counted count) =
      if 0 < count 0 ∧ 0 < count 3 then
        ((asic.putUnitSelector 3 (interPipeKey rc 448) (selectData rc (nodeAt (count 3)))).putUnitSelector
            3 (interPipeKey rc 452) (selectData rc (nodeAt (count 3 + 1))),
          WorkerBitmaps.counted (Function.update count 3 (count 3 + 1)))
      else (asic, WorkerBitmaps.counted count) := by
  rw [connectPipes, haveConnectedPipes_counted hcount h1 h2]
  by_cases h : 0 < count 0 ∧ 0 < count 3
  · have hlow0 : ¬ ((WorkerBitmaps.counted count).full 0).low = 0 := fun hzero =>
      absurd ((fullAt_low_eq_zero_iff (hcount 0)).1 hzero) (by omega)
    have haccept0 : acceptPipe rc (asic, WorkerBitmaps.counted count) 0 =
        (asic.putUnitSelector 3 (interPipeKey rc 448) (selectData rc (nodeAt (count 3))),
          WorkerBitmaps.counted (Function.update count 3 (count 3 + 1))) := by
      rw [acceptPipe, if_neg hlow0]
      change (_, (WorkerBitmaps.counted count).update 3) = _
      rw [WorkerBitmaps.update_counted]
      rfl
    have haccept : ∀ pipe, pipe ≠ 3 → count pipe = 0 → ∀ a,
        acceptPipe rc (a, WorkerBitmaps.counted (Function.update count 3 (count 3 + 1))) pipe =
          (a, WorkerBitmaps.counted (Function.update count 3 (count 3 + 1))) := by
      intro pipe hne hzero a
      rw [acceptPipe, if_pos]
      change (fullAt (Function.update count 3 (count 3 + 1) pipe)).low = 0
      rw [Function.update_of_ne hne, hzero]
      rfl
    rw [if_pos h, if_pos (by simp [h]), List.foldl_cons, List.foldl_cons, List.foldl_cons,
      List.foldl_nil, haccept0, haccept 1 (by decide) h1, haccept 2 (by decide) h2]
    simp only [WorkerBitmaps.counted, Function.update_self]
    rfl
  · rw [if_neg h, if_neg (by simpa using h)]

section Connect

variable (asic : Asic) (hcount : ∀ pipe, rc.count pipe ≤ 64) (h1 : rc.count 1 = 0)
  (h2 : rc.count 2 = 0)

include hcount h1 h2

private theorem connectPipes_eq :
    connectPipes rc asic (WorkerBitmaps.counted rc.count) =
      if rc.connected then
        ((asic.putUnitSelector 3 (interPipeKey rc 448)
            (selectData rc (nodeAt (rc.count 3)))).putUnitSelector 3 (interPipeKey rc 452)
            (selectData rc (nodeAt (rc.count 3 + 1))),
          WorkerBitmaps.counted rc.contributions)
      else (asic, WorkerBitmaps.counted rc.contributions) := by
  rw [connectPipes_counted asic hcount h1 h2]
  by_cases hconnected : rc.connected = true
  · have hboth : 0 < rc.count 0 ∧ 0 < rc.count 3 := by
      simpa [CollectiveChannel.connected] using hconnected
    have hcontributions : Function.update rc.count 3 (rc.count 3 + 1) = rc.contributions := by
      funext pipe
      by_cases hpipe : pipe = 3
      · rw [hpipe, Function.update_self, CollectiveChannel.contributions, if_pos ⟨rfl, hconnected⟩]
      · rw [Function.update_of_ne hpipe, CollectiveChannel.contributions, if_neg (by simp [hpipe])]
    rw [if_pos hboth, if_pos hconnected, hcontributions]
  · have hboth : ¬ (0 < rc.count 0 ∧ 0 < rc.count 3) := by
      simpa [CollectiveChannel.connected] using hconnected
    have hcontributions : rc.count = rc.contributions := by
      funext pipe
      rw [CollectiveChannel.contributions, if_neg (by simp [hconnected])]
    rw [if_neg hboth, if_neg hconnected, ← hcontributions]

theorem connectPipes_bitmaps :
    (connectPipes rc asic (WorkerBitmaps.counted rc.count)).2 =
      WorkerBitmaps.counted rc.contributions := by
  rw [connectPipes_eq asic hcount h1 h2]
  split <;> rfl

theorem connectPipes_unitSelector (pipe : PipeId) :
    ((connectPipes rc asic (WorkerBitmaps.counted rc.count)).1.pipes pipe).unitSelector =
      (asic.pipes pipe).unitSelector.putAll
        (if pipe = 3 then interPipeSelectorWrites rc else []) := by
  rw [connectPipes_eq asic hcount h1 h2, interPipeSelectorWrites]
  by_cases hconnected : rc.connected = true
  · rw [if_pos hconnected, if_pos hconnected]
    by_cases hpipe : pipe = 3 <;> simp [hpipe, Asic.putUnitSelector, Asic.unitSelector_onPipe]
  · rw [if_neg hconnected, if_neg hconnected]
    simp

theorem connectPipes_frame {T : Type} {g : Asic → T}
    (hg : ∀ asic pipe k d, g (Asic.putUnitSelector asic pipe k d) = g asic) :
    g (connectPipes rc asic (WorkerBitmaps.counted rc.count)).1 = g asic := by
  rw [connectPipes_eq asic hcount h1 h2]
  split
  · rw [hg, hg]
  · rfl

end Connect

/-! ### The completion entries -/

private theorem installCompletion_foldl (connected : Bool) (full : PipeId → NodeBitmap)
    (aggUnit : BitVec 8) {pipes : List PipeId} (hnodup : pipes.Nodup) (asic : Asic)
    (pipe : PipeId) :
    ((pipes.foldl (installCompletion rc connected full aggUnit) asic).pipes pipe).checkComplete =
      if pipe ∈ pipes ∧ (full pipe).low ≠ 0 then
        (asic.pipes pipe).checkComplete.putAll
          [(completeKey aggUnit (full pipe), .checkCompleteTrue (recircPort pipe)),
            (clearKey aggUnit, clearAction connected rc pipe)]
      else (asic.pipes pipe).checkComplete := by
  induction pipes generalizing asic with
  | nil => simp
  | cons p pipes ih =>
      rw [List.nodup_cons] at hnodup
      rw [List.foldl_cons, ih hnodup.2, installCompletion]
      by_cases heq : pipe = p
      · subst heq
        rw [if_neg (by simp [hnodup.1])]
        by_cases hlow : (full pipe).low = 0
        · rw [if_pos hlow, if_neg (by simp [hlow])]
        · rw [if_neg hlow, if_pos ⟨List.mem_cons_self, hlow⟩]
          simp [Asic.putCheckComplete, Asic.checkComplete_onPipe]
      · simp only [List.mem_cons, heq, false_or]
        split_ifs <;> simp [Asic.putCheckComplete, Asic.checkComplete_onPipe, heq]

private theorem installCompletion_frame {T : Type} {g : Asic → T} (connected : Bool)
    (full : PipeId → NodeBitmap) (aggUnit : BitVec 8) (pipes : List PipeId) (asic : Asic)
    (hg : ∀ asic pipe k a, g (Asic.putCheckComplete asic pipe k a) = g asic) :
    g (pipes.foldl (installCompletion rc connected full aggUnit) asic) = g asic := by
  induction pipes generalizing asic with
  | nil => rfl
  | cons pipe pipes ih =>
      rw [List.foldl_cons, ih, installCompletion]
      split
      · rfl
      · rw [hg, hg]

/-! ### One channel -/

structure Fits (rc : CollectiveChannel) : Prop where
  aggUnit_lt : rc.aggUnit.toNat < 256
  ports : ∀ p ∈ rc.members, pipeOf p.switchPort = 0 ∨ pipeOf p.switchPort = 3
  room : ∀ pipe, rc.count pipe ≤ CollectiveChannel.capacity pipe

instance (rc : CollectiveChannel) : Decidable (Fits rc) :=
  decidable_of_iff (rc.aggUnit.toNat < 256 ∧
    (∀ p ∈ rc.members, pipeOf p.switchPort = 0 ∨ pipeOf p.switchPort = 3) ∧
    ∀ pipe, rc.count pipe ≤ CollectiveChannel.capacity pipe)
    ⟨fun h => ⟨h.1, h.2.1, h.2.2⟩, fun h => ⟨h.aggUnit_lt, h.ports, h.room⟩⟩

structure Installed (rc : CollectiveChannel) (asic asic' : Asic) : Prop where
  unitSelector : ∀ pipe, (asic'.pipes pipe).unitSelector =
    (asic.pipes pipe).unitSelector.putAll (selectorWrites rc pipe)
  checkComplete : ∀ pipe, (asic'.pipes pipe).checkComplete =
    (asic.pipes pipe).checkComplete.putAll (completeWrites rc pipe)
  outputAddress : ∀ pipe, (asic'.pipes pipe).outputAddress =
    (asic.pipes pipe).outputAddress.putAll (outputAddressWrites rc pipe)
  roceAckReflector : ∀ pipe, (asic'.pipes pipe).roceAckReflector =
    (asic.pipes pipe).roceAckReflector.putAll (roceAckWrites rc pipe)
  chooseAction : ∀ i, asic'.chooseAction i =
    (asic.chooseAction i).putAll (chooseActionWrites rc)
  preNode : asic'.preNode = asic.preNode.putAll (preNodeWrites rc)
  preMgid : asic'.preMgid = asic.preMgid.putAll (preMgidWrites rc)
  switchingTable : asic'.switchingTable = asic.switchingTable
  regs : asic'.regs = asic.regs

theorem aggUnitKey_ok {aggUnit : BitVec 16} {k : BitVec 8} (h : aggUnitKey aggUnit = .ok k) :
    aggUnit.toNat < 256 ∧ k = aggUnit.setWidth 8 := by
  rw [aggUnitKey] at h
  split at h
  · rename_i hlt
    exact ⟨hlt, (Except.ok.inj h).symm⟩
  · contradiction

theorem count_eq_zero_of_ports (hports : ∀ p ∈ rc.members,
    pipeOf p.switchPort = 0 ∨ pipeOf p.switchPort = 3) {pipe : PipeId} (h0 : pipe ≠ 0)
    (h3 : pipe ≠ 3) : rc.count pipe = 0 := by
  rw [CollectiveChannel.count, List.length_eq_zero_iff, CollectiveChannel.onPipe,
    List.filter_eq_nil_iff]
  intro p hp
  rcases hports p hp with h | h <;> simp [h, Ne.symm h0, Ne.symm h3]

theorem contributions_le (hroom : ∀ pipe, rc.count pipe ≤ CollectiveChannel.capacity pipe)
    (pipe : PipeId) : rc.contributions pipe ≤ 64 := by
  rw [CollectiveChannel.contributions]
  split
  · have h3 : rc.count 3 ≤ 61 := hroom 3
    omega
  · exact (hroom pipe).trans (capacity_le pipe)

theorem contributions_eq_zero_iff (pipe : PipeId) :
    rc.contributions pipe = 0 ↔ rc.count pipe = 0 := by
  rw [CollectiveChannel.contributions]
  split
  · rename_i h
    obtain ⟨rfl, hconnected⟩ := h
    have hboth : 0 < rc.count 0 ∧ 0 < rc.count 3 := by
      simpa [CollectiveChannel.connected] using hconnected
    omega
  · exact Iff.rfl

/-- **One channel.** A channel that is installed without an exception fits the bitmaps, and its
writes are those listed above. -/
theorem installChannel_ok {asic asic' : Asic} (h : installChannel asic rc = .ok asic') :
    Fits rc ∧ Installed rc asic asic' := by
  obtain ⟨s, hloop, h⟩ := Fallible.bind_eq_ok.1 h
  have hbitmaps : s.bitmaps = WorkerBitmaps.counted rc.count := by
    rw [insertAll_bitmaps hloop WorkerBitmaps.initial_eq]
    congr 1
    funext pipe
    exact Nat.zero_add _
  have hports := insertAll_ports hloop
  have hroom : ∀ pipe, rc.count pipe ≤ CollectiveChannel.capacity pipe := by
    intro pipe
    have := insertAll_room hloop WorkerBitmaps.initial_eq (fun _ => Nat.zero_le _) pipe
    rwa [Nat.zero_add] at this
  have hcount : ∀ pipe, rc.count pipe ≤ 64 := fun pipe => (hroom pipe).trans (capacity_le pipe)
  have h1 : rc.count 1 = 0 := count_eq_zero_of_ports hports (by decide) (by decide)
  have h2 : rc.count 2 = 0 := count_eq_zero_of_ports hports (by decide) (by decide)
  have hselector := connectPipes_unitSelector s.asic hcount h1 h2
  have hconnected := connectPipes_bitmaps s.asic hcount h1 h2
  have hframe := fun {T : Type} {g : Asic → T} => connectPipes_frame (g := g) s.asic hcount h1 h2
  rw [hbitmaps, haveConnectedPipes_counted hcount h1 h2] at h
  generalize connectPipes rc s.asic (WorkerBitmaps.counted rc.count) = joined
    at h hselector hconnected hframe
  obtain ⟨aggUnit, haggUnit, h⟩ := Fallible.bind_eq_ok.1 h
  obtain ⟨hlt, rfl⟩ := aggUnitKey_ok haggUnit
  obtain rfl := Except.ok.inj h
  rw [hconnected]
  refine ⟨⟨hlt, hports, hroom⟩, ?_⟩
  change Installed rc asic (installChooseAction (rc.aggUnit.setWidth 8)
    ((List.finRange 4).foldl (installCompletion rc rc.connected
      (WorkerBitmaps.counted rc.contributions).full (rc.aggUnit.setWidth 8)) joined.1))
  have hcompletion := fun {T : Type} {g : Asic → T} => @installCompletion_frame rc T g
    rc.connected (WorkerBitmaps.counted rc.contributions).full (rc.aggUnit.setWidth 8)
    (List.finRange 4) joined.1
  have hcomplete := @installCompletion_foldl rc rc.connected
    (WorkerBitmaps.counted rc.contributions).full (rc.aggUnit.setWidth 8) _ (List.nodup_finRange 4)
    joined.1
  generalize (List.finRange 4).foldl (installCompletion rc rc.connected
    (WorkerBitmaps.counted rc.contributions).full (rc.aggUnit.setWidth 8)) joined.1 = completed
    at hcompletion hcomplete ⊢
  -- from the end of the function to its start, each step either writes a table or leaves it
  have hshared : ∀ {T : Type} {g : Asic → T}, (∀ asic pipe f, g (Asic.onPipe asic pipe f) = g asic) →
      g completed = g (installMulticast rc asic) := fun {T g} hg =>
    (hcompletion (g := g) fun _ _ _ _ => hg ..).trans
      ((hframe (g := g) fun _ _ _ _ => hg ..).trans (insertAll_shared hg hloop))
  have hunitSelector : ∀ pipe, (completed.pipes pipe).unitSelector =
      (asic.pipes pipe).unitSelector.putAll (selectorWrites rc pipe) := by
    intro pipe
    refine (hcompletion (g := fun a => (a.pipes pipe).unitSelector) fun a p k d => ?_).trans ?_
    · simp [Asic.putCheckComplete, Asic.unitSelector_onPipe]
    · rw [hselector, insertAll_unitSelector hloop WorkerBitmaps.initial_eq, ← FinTable.putAll_append]
      rfl
  have hcheckComplete : ∀ pipe, (completed.pipes pipe).checkComplete =
      (asic.pipes pipe).checkComplete.putAll (completeWrites rc pipe) := by
    intro pipe
    have hlow : ((WorkerBitmaps.counted rc.contributions).full pipe).low = 0 ↔ rc.count pipe = 0 :=
      (fullAt_low_eq_zero_iff (contributions_le hroom pipe)).trans (contributions_eq_zero_iff pipe)
    have hbefore : (joined.1.pipes pipe).checkComplete = (asic.pipes pipe).checkComplete := by
      refine (hframe (g := fun a => (a.pipes pipe).checkComplete) fun a p k d => ?_).trans
        (insertAll_checkComplete hloop pipe)
      simp [Asic.putUnitSelector, Asic.checkComplete_onPipe]
    rw [hcomplete, hbefore, completeWrites]
    by_cases hzero : rc.count pipe = 0
    · rw [if_neg fun hboth => hboth.2 (hlow.2 hzero), if_pos hzero, FinTable.putAll_nil]
    · rw [if_pos ⟨List.mem_finRange pipe, hlow.not.2 hzero⟩, if_neg hzero]
      rfl
  have houtputAddress : ∀ pipe, (completed.pipes pipe).outputAddress =
      (asic.pipes pipe).outputAddress.putAll (outputAddressWrites rc pipe) := by
    intro pipe
    refine (hcompletion (g := fun a => (a.pipes pipe).outputAddress) fun a p k d => ?_).trans ?_
    · simp [Asic.putCheckComplete, Asic.outputAddress_onPipe]
    · refine (hframe (g := fun a => (a.pipes pipe).outputAddress) fun a p k d => ?_).trans
        (insertAll_outputAddress hloop pipe)
      simp [Asic.putUnitSelector, Asic.outputAddress_onPipe]
  have hroceAck : ∀ pipe, (completed.pipes pipe).roceAckReflector =
      (asic.pipes pipe).roceAckReflector.putAll (roceAckWrites rc pipe) := by
    intro pipe
    refine (hcompletion (g := fun a => (a.pipes pipe).roceAckReflector) fun a p k d => ?_).trans ?_
    · simp [Asic.putCheckComplete, Asic.roceAckReflector_onPipe]
    · refine (hframe (g := fun a => (a.pipes pipe).roceAckReflector) fun a p k d => ?_).trans
        (insertAll_roceAckReflector hloop pipe)
      simp [Asic.putUnitSelector, Asic.roceAckReflector_onPipe]
  have hchooseAction : completed.chooseAction = asic.chooseAction := hshared fun _ _ _ => rfl
  have hchooseActions : ∀ i, (installChooseAction (rc.aggUnit.setWidth 8) completed).chooseAction i =
      (asic.chooseAction i).putAll (chooseActionWrites rc) := by
    intro i
    rw [← hchooseAction]
    rfl
  have hpreNode : completed.preNode = (installMulticast rc asic).preNode :=
    hshared fun _ _ _ => rfl
  have hpreMgid : completed.preMgid = (installMulticast rc asic).preMgid :=
    hshared fun _ _ _ => rfl
  have hswitching : completed.switchingTable = (installMulticast rc asic).switchingTable :=
    hshared fun _ _ _ => rfl
  have hregs : completed.regs = (installMulticast rc asic).regs := hshared fun _ _ _ => rfl
  exact ⟨hunitSelector, hcheckComplete, houtputAddress, hroceAck, hchooseActions, hpreNode, hpreMgid, hswitching, hregs⟩

/-! ### Channels that fit -/

private theorem insertAll_of_fits (hs : s.bitmaps = WorkerBitmaps.counted count)
    (hports : ∀ p ∈ parts, pipeOf p.switchPort = 0 ∨ pipeOf p.switchPort = 3)
    (hroom : ∀ pipe, count pipe + countOn parts pipe ≤ CollectiveChannel.capacity pipe) :
    ∃ s', parts.foldlM (insertParticipant rc) s = .ok s' := by
  induction parts generalizing s count with
  | nil => exact ⟨s, rfl⟩
  | cons part parts ih =>
      have hpart := hports part List.mem_cons_self
      obtain ⟨recirc, hrecirc⟩ : ∃ recirc, recircPipe (pipeOf part.switchPort) = some recirc := by
        rcases hpart with h | h
        · exact ⟨1, by rw [h]; rfl⟩
        · exact ⟨2, by rw [h]; rfl⟩
      have hcons : countOn (part :: parts) (pipeOf part.switchPort) =
          countOn parts (pipeOf part.switchPort) + 1 := by
        simp [countOn]
      have hroomPart := hroom (pipeOf part.switchPort)
      have hlt : count (pipeOf part.switchPort) <
          CollectiveChannel.capacity (pipeOf part.switchPort) := by
        omega
      have hhigh : ¬ (s.bitmaps.full (pipeOf part.switchPort)).high ≥
          bitmapLimit (pipeOf part.switchPort) := by
        have hle := (Nat.le_of_lt hlt).trans (capacity_le _)
        rw [hs]
        exact BitVec.not_le.2 ((high_lt_limit ⟨count (pipeOf part.switchPort), by omega⟩ _).2 hlt)
      have hstep : ∃ s₁, insertParticipant rc s part = .ok s₁ := by
        rw [insertParticipant]
        simp only [hhigh, if_false, hrecirc]
        exact ⟨_, rfl⟩
      obtain ⟨s₁, h₁⟩ := hstep
      obtain ⟨_, -, -, hs₁⟩ := insertParticipant_ok h₁
      have hbitmaps : s₁.bitmaps = WorkerBitmaps.counted (Function.update count
          (pipeOf part.switchPort) (count (pipeOf part.switchPort) + 1)) := by
        rw [hs₁, ← WorkerBitmaps.update_counted, ← hs]
      have hroom₁ : ∀ pipe, Function.update count (pipeOf part.switchPort)
          (count (pipeOf part.switchPort) + 1) pipe + countOn parts pipe ≤
            CollectiveChannel.capacity pipe := by
        intro pipe
        by_cases hpipe : pipe = pipeOf part.switchPort
        · rw [hpipe, Function.update_self]
          omega
        · simpa [countOn, hpipe, Ne.symm hpipe] using hroom pipe
      obtain ⟨s', hs'⟩ := ih hbitmaps (fun p hp => hports p (List.mem_cons_of_mem _ hp)) hroom₁
      exact ⟨s', Fallible.foldlM_cons_eq_ok.2 ⟨s₁, h₁, hs'⟩⟩

/-- Whether a channel is installed without an exception depends on the channel only. -/
theorem installChannel_of_fits (hfits : Fits rc) (asic : Asic) :
    ∃ asic', installChannel asic rc = .ok asic' := by
  have hroom : ∀ pipe, 0 + countOn rc.members pipe ≤ CollectiveChannel.capacity pipe := by
    intro pipe
    rw [Nat.zero_add]
    exact hfits.room pipe
  obtain ⟨s, hs⟩ := insertAll_of_fits
    (s := { asic := installMulticast rc asic, bitmaps := WorkerBitmaps.initial, pos := 1 })
    WorkerBitmaps.initial_eq hfits.ports hroom
  have hunit : aggUnitKey rc.aggUnit = .ok (rc.aggUnit.setWidth 8) := if_pos hfits.aggUnit_lt
  exact Fallible.exists_bind ⟨s, hs⟩ fun s =>
    Fallible.exists_bind ⟨_, hunit⟩ fun aggUnit => ⟨_, rfl⟩

end AsicDriver

end Mpitofino
