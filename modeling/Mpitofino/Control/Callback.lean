import Mpitofino.Control.AsicDriver
import Mpitofino.Dataplane.Slot
import Mpitofino.Library.Fallible
import Mathlib.Data.List.Sort
import Mathlib.Data.List.Dedup

/-!
# The callback, operation by operation

`on_st_repo_channels` as the list of the single operations it carries out on the tables and registers,
in the order of the source. Carried out one after the other they do what `onStRepoChannels` says.
-/

namespace Mpitofino

namespace AsicDriver

/-- An operation on a single entry or register cell, or an exception. -/
inductive Op where
  | putPreNode (nodeId : Nat) (node : PreNode)
  | putPreMgid (mgid : BitVec 16) (members : List PreMember)
  | putUnitSelector (pipe : PipeId) (k : UnitSelectorKey) (d : SelectAggUnit)
  | putOutputAddress (pipe : PipeId) (k : OutputAddressKey) (d : OutputAddressSet)
  | putRoceAckReflector (pipe : PipeId) (k : RoceAckReflectorKey) (dstQp : IbQp)
  | putCheckComplete (pipe : PipeId) (k : CheckCompleteKey) (a : CheckCompleteAction)
  | putChooseAction (j : Fin 32) (k : ChooseActionKey) (a : ChooseAction)
  | delUnitSelector (pipe : PipeId) (k : UnitSelectorKey)
  | delCheckComplete (pipe : PipeId) (k : CheckCompleteKey)
  | delOutputAddress (pipe : PipeId) (k : OutputAddressKey)
  | delRoceAckReflector (pipe : PipeId) (k : RoceAckReflectorKey)
  | delChooseAction (j : Fin 32) (k : ChooseActionKey)
  | delPreMgid (mgid : BitVec 16)
  | delPreNode (nodeId : Nat)
  | clearValues (j : Fin 32) (i : Nat)
  | clearStateBitmapLow (i : Nat)
  | clearStateBitmapHigh (i : Nat)
  | fail (message : String)

namespace Op

def delete {K V : Type} [DecidableEq K] (t : FinTable K V) (k : K) (set : FinTable K V → Asic) :
    Except String Asic :=
  match t.erase? k with
  | some t' => .ok (set t')
  | none => .error "tableEntryDel"

def clear (asic : Asic) (i : Nat) (message : String)
    (set : BitVec 14 → Registers → Registers) : Except String Asic :=
  if i < 16384 then
    .ok { asic with regs := fun pipe => set (BitVec.ofNat 14 i) (asic.regs pipe) }
  else .error message

def apply (asic : Asic) : Op → Except String Asic
  | putPreNode nodeId node => .ok { asic with preNode := asic.preNode.put nodeId node }
  | putPreMgid mgid members => .ok { asic with preMgid := asic.preMgid.put mgid members }
  | putUnitSelector pipe k d => .ok (asic.putUnitSelector pipe k d)
  | putOutputAddress pipe k d => .ok (asic.putOutputAddress pipe k d)
  | putRoceAckReflector pipe k dstQp => .ok (asic.putRoceAckReflector pipe k dstQp)
  | putCheckComplete pipe k a => .ok (asic.putCheckComplete pipe k a)
  | putChooseAction j k a => .ok { asic with
      chooseAction := Function.update asic.chooseAction j ((asic.chooseAction j).put k a) }
  | delUnitSelector pipe k => delete (asic.pipes pipe).unitSelector k fun t =>
      asic.onPipe pipe fun p => { p with unitSelector := t }
  | delCheckComplete pipe k => delete (asic.pipes pipe).checkComplete k fun t =>
      asic.onPipe pipe fun p => { p with checkComplete := t }
  | delOutputAddress pipe k => delete (asic.pipes pipe).outputAddress k fun t =>
      asic.onPipe pipe fun p => { p with outputAddress := t }
  | delRoceAckReflector pipe k => delete (asic.pipes pipe).roceAckReflector k fun t =>
      asic.onPipe pipe fun p => { p with roceAckReflector := t }
  | delChooseAction j k => delete (asic.chooseAction j) k fun t =>
      { asic with chooseAction := Function.update asic.chooseAction j t }
  | delPreMgid mgid => delete asic.preMgid mgid fun t => { asic with preMgid := t }
  | delPreNode nodeId => delete asic.preNode nodeId fun t => { asic with preNode := t }
  | clearValues j i => clear asic i "Clear values register failed" fun i regs =>
      { regs with values := Function.update regs.values j (Function.update (regs.values j) i ⟨0, 0⟩) }
  | clearStateBitmapLow i => clear asic i "Clear state bitmap low failed" fun i regs =>
      { regs with stateBitmapsLow := Function.update regs.stateBitmapsLow i 0 }
  | clearStateBitmapHigh i => clear asic i "Clear state bitmap high failed" fun i regs =>
      { regs with stateBitmapsHigh := Function.update regs.stateBitmapsHigh i 0 }
  | fail message => .error message

end Op

def carryOut (ops : List Op) (asic : Asic) : Except String Asic := ops.foldlM Op.apply asic

/-! ### Installing a channel -/

def multicastOps (rc : CollectiveChannel) : List Op :=
  let ports := groupPorts rc.aggUnit rc.members 1
  ports.map (fun g => .putPreNode (preNodeEntry g).1 (preNodeEntry g).2) ++
    [.putPreMgid (mcastGroup rc.aggUnit) (ports.map fun g => ⟨g.1, false, 0⟩)]

/-- The unit selector of a participant is written before the driver finds that the output address of
its pipe cannot be. -/
def participantOps (rc : CollectiveChannel) (b : WorkerBitmaps) (pos : Nat) (part : Participant) :
    List Op :=
  let pipe := pipeOf part.switchPort
  if (b.full pipe).high ≥ bitmapLimit pipe then [.fail "Too many clients per pipe"]
  else
    .putUnitSelector pipe (participantKey rc part) (selectData rc (b.node pipe)) ::
      match recircPipe pipe with
      | none => [.fail "Failed to update CollectivesDistributor.output_address table"]
      | some recirc =>
          [.putOutputAddress recirc ⟨rc.aggUnit, BitVec.ofNat 16 pos⟩ (outputAddress rc part),
            .putRoceAckReflector pipe ⟨part.ip, part.fabricQp⟩ part.localQp]

def participantsOps (rc : CollectiveChannel) : List Participant → WorkerBitmaps → Nat → List Op
  | [], _, _ => []
  | part :: parts, b, pos => participantOps rc b pos part ++
      participantsOps rc parts (b.update (pipeOf part.switchPort)) (pos + 1)

/-- The bitmaps after the loop over the participants. -/
def participantBitmaps (parts : List Participant) (b : WorkerBitmaps) : WorkerBitmaps :=
  parts.foldl (fun b part => b.update (pipeOf part.switchPort)) b

def acceptOps (rc : CollectiveChannel) (s : List Op × WorkerBitmaps) (pipe : PipeId) :
    List Op × WorkerBitmaps :=
  if (s.2.full pipe).low = 0 then s
  else (s.1 ++ [.putUnitSelector 3 (interPipeKey rc (3 * 128 + 64)) (selectData rc (s.2.node 3))],
    s.2.update 3)

def connectOps (rc : CollectiveChannel) (b : WorkerBitmaps) : List Op × WorkerBitmaps :=
  if haveConnectedPipes b.full then
    let s := [0, 1, 2].foldl (acceptOps rc) ([], b)
    (s.1 ++ [.putUnitSelector 3 (interPipeKey rc (3 * 128 + 68)) (selectData rc (s.2.node 3))], s.2)
  else ([], b)

def completionOps (rc : CollectiveChannel) (connected : Bool) (full : PipeId → NodeBitmap)
    (aggUnit : BitVec 8) (pipe : PipeId) : List Op :=
  if (full pipe).low = 0 then []
  else
    [.putCheckComplete pipe (completeKey aggUnit (full pipe)) (.checkCompleteTrue (recircPort pipe)),
      .putCheckComplete pipe (clearKey aggUnit) (clearAction connected rc pipe)]

def chooseActionOps (aggUnit : BitVec 8) (j : Fin 32) : List Op :=
  [.putChooseAction j ⟨aggUnit, false⟩ .aggInt32Add, .putChooseAction j ⟨aggUnit, true⟩ .aggInt32Clear]

/-- What depends on the bitmaps and on the unit as a key. -/
def unitOps (rc : CollectiveChannel) (connected : Bool) (full : PipeId → NodeBitmap) : List Op :=
  match aggUnitKey rc.aggUnit with
  | .ok aggUnit => (List.finRange 4).flatMap (completionOps rc connected full aggUnit) ++
      (List.finRange 32).flatMap (chooseActionOps aggUnit)
  | .error message => [.fail message]

def channelOps (rc : CollectiveChannel) : List Op :=
  let b := participantBitmaps rc.members WorkerBitmaps.initial
  multicastOps rc ++ (participantsOps rc rc.members WorkerBitmaps.initial 1 ++
    ((connectOps rc b).1 ++ unitOps rc (haveConnectedPipes b.full) (connectOps rc b).2.full))

/-! ### Deleting what is not in use -/

def sweepPipe (channels : List CollectiveChannel) (asic : Asic) (pipe recirc : PipeId) : List Op :=
  ((asic.pipes pipe).unitSelector.swept fun _ d => aggUnitInUse channels d.aggUnit).map
      (.delUnitSelector pipe) ++
    (((asic.pipes pipe).checkComplete.swept fun k _ => aggUnitInUse channels k.aggUnit).map
      (.delCheckComplete pipe) ++
    (((asic.pipes recirc).outputAddress.swept fun k _ => aggUnitInUse channels k.aggUnit).map
      (.delOutputAddress recirc) ++
    ((asic.pipes pipe).roceAckReflector.swept fun k _ => keepRoceAck channels k).map
      (.delRoceAckReflector pipe)))

def sweepChooseAction (channels : List CollectiveChannel) (asic : Asic) (j : Fin 32) : List Op :=
  ((asic.chooseAction j).swept fun k _ => aggUnitInUse channels k.aggUnit).map (.delChooseAction j)

def sweepMulticast (channels : List CollectiveChannel) (asic : Asic) : List Op :=
  let keepGroup := fun (g : BitVec 16) (_ : List PreMember) =>
    decide (g < 0x10) || mcastGroupInUse channels g
  let nodesInUse := (asic.preMgid.filter keepGroup).entries.flatMap fun e => e.2.map PreMember.nodeId
  (asic.preMgid.swept keepGroup).map .delPreMgid ++
    (asic.preNode.swept fun nodeId _ => nodeId ∈ nodesInUse).map .delPreNode

def sweepTables (channels : List CollectiveChannel) (asic : Asic) : List Op :=
  sweepPipe channels asic 0 1 ++ (sweepPipe channels asic 3 2 ++
    ((List.finRange 32).flatMap (sweepChooseAction channels asic) ++ sweepMulticast channels asic))

def clearIndex (i : Nat) : List Op :=
  (List.finRange 32).map (.clearValues · i) ++ [.clearStateBitmapLow i, .clearStateBitmapHigh i]

def clearOps (aggUnit : BitVec 16) : List Op :=
  (List.range 256).flatMap fun n => clearIndex (aggUnit.toNat * 256 + n)

/-- The order in which a set of units is visited. -/
def ascending (units : List (BitVec 16)) : List (BitVec 16) :=
  units.dedup.insertionSort fun unit unit' => unit ≤ unit'

/-- The callback. Where its first part ends with an exception, nothing is deleted. -/
def callback (channels : List CollectiveChannel) (asic : Asic) : List Op :=
  let install := (knownChannels channels).flatMap channelOps
  match carryOut install asic with
  | .ok installed => install ++ (sweepTables channels installed ++
      (ascending (aggUnitsToClear channels installed)).flatMap clearOps)
  | .error _ => install

/-! ### Carrying out operations -/

section CarryOut

variable {asic : Asic}

@[simp] theorem carryOut_nil : carryOut [] asic = .ok asic := rfl

theorem carryOut_cons (op : Op) (ops : List Op) :
    carryOut (op :: ops) asic = (op.apply asic).bind (carryOut ops) :=
  List.foldlM_cons

theorem carryOut_append (ops ops' : List Op) :
    carryOut (ops ++ ops') asic = (carryOut ops asic).bind (carryOut ops') :=
  List.foldlM_append

theorem carryOut_map {A : Type} {op : A → Op} {f : Asic → A → Asic}
    (h : ∀ asic a, (op a).apply asic = .ok (f asic a)) (as : List A) :
    carryOut (as.map op) asic = .ok (as.foldl f asic) := by
  induction as generalizing asic with
  | nil => rfl
  | cons a as ih =>
      rw [List.map_cons, carryOut_cons, h]
      exact ih

theorem carryOut_flatMap {A : Type} {ops : A → List Op} {f : Asic → A → Asic} {as : List A}
    (h : ∀ asic, ∀ a ∈ as, carryOut (ops a) asic = .ok (f asic a)) :
    carryOut (as.flatMap ops) asic = .ok (as.foldl f asic) := by
  induction as generalizing asic with
  | nil => rfl
  | cons a as ih =>
      rw [List.flatMap_cons, carryOut_append, h asic a List.mem_cons_self]
      exact ih fun asic b hb => h asic b (List.mem_cons_of_mem _ hb)

theorem carryOut_swept {K V : Type} [DecidableEq K] {op : K → Op} {g : Asic → FinTable K V}
    {s : Asic → FinTable K V → Asic}
    (hop : ∀ asic k, (op k).apply asic = Op.delete (g asic) k (s asic))
    (hget : ∀ asic t, g (s asic t) = t) (hset : ∀ asic t t', s (s asic t) t' = s asic t')
    (hself : ∀ asic, s asic (g asic) = asic) (keep : K → V → Bool) {t : FinTable K V}
    (ht : g asic = t) :
    carryOut ((t.swept keep).map op) asic = .ok (s asic (t.filter keep)) := by
  have hloop : ∀ (ks : List K) (asic : Asic) (t' : FinTable K V),
      ks.foldlM FinTable.erase? (g asic) = some t' → carryOut (ks.map op) asic = .ok (s asic t') := by
    intro ks
    induction ks with
    | nil =>
        intro asic t' h
        obtain rfl := Option.some.inj h
        rw [hself]
        rfl
    | cons k ks ih =>
        intro asic t' h
        rw [List.foldlM_cons] at h
        obtain ⟨t₁, h₁, h₂⟩ := Option.bind_eq_some_iff.1 h
        rw [List.map_cons, carryOut_cons, hop, Op.delete, h₁]
        rw [← hget asic t₁] at h₂
        refine (ih _ _ h₂).trans ?_
        rw [hset]
  exact hloop _ _ _ (ht ▸ t.foldlM_swept keep)

end CarryOut

/-! ### The operations of a channel -/

section Channel

variable {rc : CollectiveChannel} {asic : Asic}

theorem carryOut_multicastOps :
    carryOut (multicastOps rc) asic = .ok (installMulticast rc asic) := by
  have hnodes : ∀ (ports : List (Nat × PortId × Nat)) (asic : Asic),
      ports.foldl (fun (asic : Asic) g => { asic with
        preNode := asic.preNode.put (preNodeEntry g).1 (preNodeEntry g).2 }) asic =
      { asic with preNode := asic.preNode.putAll (ports.map preNodeEntry) } := by
    intro ports
    induction ports with
    | nil => intro asic; rfl
    | cons g ports ih => intro asic; exact ih _
  rw [multicastOps, carryOut_append, carryOut_map fun _ _ => rfl, hnodes]
  rfl

theorem insertParticipant_eq (b : WorkerBitmaps) (pos : Nat) (part : Participant) :
    insertParticipant rc ⟨asic, b, pos⟩ part = (carryOut (participantOps rc b pos part) asic).map
      fun asic' => ⟨asic', b.update (pipeOf part.switchPort), pos + 1⟩ := by
  rw [insertParticipant, participantOps]
  dsimp only
  split
  · rfl
  · cases recircPipe (pipeOf part.switchPort) <;> rfl

theorem insertParticipants_eq (parts : List Participant) (b : WorkerBitmaps) (pos : Nat) :
    parts.foldlM (insertParticipant rc) ⟨asic, b, pos⟩ =
      (carryOut (participantsOps rc parts b pos) asic).map
        fun asic' => ⟨asic', participantBitmaps parts b, pos + parts.length⟩ := by
  induction parts generalizing asic b pos with
  | nil => rfl
  | cons part parts ih =>
      rw [List.foldlM_cons, insertParticipant_eq, participantsOps, carryOut_append]
      cases carryOut (participantOps rc b pos part) asic with
      | error message => rfl
      | ok asic' =>
          refine (ih _ _).trans ?_
          rw [List.length_cons, Nat.add_comm parts.length, ← Nat.add_assoc]
          rfl

theorem carryOut_acceptOps {asic₀ : Asic} (pipes : List PipeId) (s : List Op × WorkerBitmaps)
    (h : carryOut s.1 asic₀ = .ok asic) :
    carryOut (pipes.foldl (acceptOps rc) s).1 asic₀ =
        .ok (pipes.foldl (acceptPipe rc) (asic, s.2)).1 ∧
      (pipes.foldl (acceptOps rc) s).2 = (pipes.foldl (acceptPipe rc) (asic, s.2)).2 := by
  induction pipes generalizing s asic with
  | nil => exact ⟨h, rfl⟩
  | cons pipe pipes ih =>
      rw [List.foldl_cons, List.foldl_cons, acceptOps, acceptPipe]
      split
      · exact ih s h
      · refine ih _ ?_
        rw [carryOut_append, h]
        rfl

theorem carryOut_connectOps (b : WorkerBitmaps) :
    carryOut (connectOps rc b).1 asic = .ok (connectPipes rc asic b).1 ∧
      (connectOps rc b).2 = (connectPipes rc asic b).2 := by
  rw [connectOps, connectPipes]
  split
  · obtain ⟨hcarry, hbitmaps⟩ := @carryOut_acceptOps rc asic asic [0, 1, 2] ([], b) rfl
    dsimp only at hbitmaps ⊢
    rw [carryOut_append, hcarry, hbitmaps]
    exact ⟨rfl, rfl⟩
  · exact ⟨rfl, rfl⟩

theorem carryOut_completionOps (connected : Bool) (full : PipeId → NodeBitmap) (aggUnit : BitVec 8)
    (pipe : PipeId) : carryOut (completionOps rc connected full aggUnit pipe) asic =
      .ok (installCompletion rc connected full aggUnit asic pipe) := by
  rw [completionOps, installCompletion]
  split <;> rfl

theorem carryOut_chooseActionOps (aggUnit : BitVec 8) :
    carryOut ((List.finRange 32).flatMap (chooseActionOps aggUnit)) asic =
      .ok (installChooseAction aggUnit asic) := by
  have hloop : ∀ (js : List (Fin 32)), js.Nodup → ∀ asic : Asic,
      carryOut (js.flatMap (chooseActionOps aggUnit)) asic = .ok { asic with
        chooseAction := fun j => if j ∈ js then
            ((asic.chooseAction j).put ⟨aggUnit, false⟩ .aggInt32Add).put ⟨aggUnit, true⟩ .aggInt32Clear
          else asic.chooseAction j } := by
    intro js
    induction js with
    | nil => intro _ asic; rfl
    | cons j js ih =>
        intro hnodup asic
        rw [List.nodup_cons] at hnodup
        rw [List.flatMap_cons, carryOut_append]
        refine (ih hnodup.2 _).trans ?_
        congr 2
        funext j'
        by_cases hj : j' = j
        · subst hj
          simp [hnodup.1]
        · simp [hj]
  rw [hloop _ (List.nodup_finRange 32), installChooseAction]
  simp only [List.mem_finRange, if_true]

theorem carryOut_unitOps (connected : Bool) (full : PipeId → NodeBitmap) :
    carryOut (unitOps rc connected full) asic = (aggUnitKey rc.aggUnit).bind fun aggUnit =>
      .ok (installChooseAction aggUnit
        ((List.finRange 4).foldl (installCompletion rc connected full aggUnit) asic)) := by
  rw [unitOps]
  cases aggUnitKey rc.aggUnit with
  | error message => rfl
  | ok aggUnit =>
      dsimp only
      rw [carryOut_append, carryOut_flatMap fun _ _ _ => carryOut_completionOps _ _ _ _,
        Fallible.ok_bind, Fallible.ok_bind, carryOut_chooseActionOps]

theorem installChannel_eq : installChannel asic rc =
    (rc.members.foldlM (insertParticipant rc) ⟨installMulticast rc asic, WorkerBitmaps.initial, 1⟩).bind
      fun s => carryOut (unitOps rc (haveConnectedPipes s.bitmaps.full)
        (connectPipes rc s.asic s.bitmaps).2.full) (connectPipes rc s.asic s.bitmaps).1 := by
  rw [installChannel]
  refine congrArg _ (funext fun s => ?_)
  rw [carryOut_unitOps]
  rfl

theorem carryOut_channelOps : carryOut (channelOps rc) asic = installChannel asic rc := by
  rw [channelOps, carryOut_append, carryOut_multicastOps, Fallible.ok_bind, carryOut_append,
    installChannel_eq, insertParticipants_eq]
  cases carryOut (participantsOps rc rc.members WorkerBitmaps.initial 1) (installMulticast rc asic) with
  | error message => rfl
  | ok inserted =>
      obtain ⟨hcarry, hbitmaps⟩ := @carryOut_connectOps rc inserted
        (participantBitmaps rc.members WorkerBitmaps.initial)
      rw [Fallible.ok_bind, carryOut_append, hcarry, Fallible.ok_bind, hbitmaps]
      rfl

theorem carryOut_install (channels : List CollectiveChannel) :
    carryOut (channels.flatMap channelOps) asic = channels.foldlM installChannel asic := by
  induction channels generalizing asic with
  | nil => rfl
  | cons rc channels ih =>
      rw [List.flatMap_cons, carryOut_append, carryOut_channelOps, List.foldlM_cons]
      refine congrArg (Except.bind _) (funext fun asic' => ih)

end Channel

/-! ### The operations that delete -/

section Sweep

variable {channels : List CollectiveChannel} {asic asic' : Asic}

private theorem onPipe_self {asic : Asic} {pipe : PipeId} {p : PipeTables → PipeTables}
    (h : p (asic.pipes pipe) = asic.pipes pipe) : asic.onPipe pipe p = asic := by
  rw [Asic.onPipe, h, Function.update_eq_self]

private theorem onPipe_onPipe (asic : Asic) (pipe : PipeId) (p q : PipeTables → PipeTables) :
    (asic.onPipe pipe p).onPipe pipe q = asic.onPipe pipe fun t => q (p t) := by
  simp [Asic.onPipe]

private theorem onPipe_pipes (asic : Asic) (pipe : PipeId) (p : PipeTables → PipeTables) :
    (asic.onPipe pipe p).pipes pipe = p (asic.pipes pipe) := by
  simp [Asic.onPipe]

private theorem carryOut_sweptOnPipe {K V : Type} [DecidableEq K] {pipe : PipeId} {op : K → Op}
    {g : PipeTables → FinTable K V} {s : PipeTables → FinTable K V → PipeTables}
    (hop : ∀ asic k, (op k).apply asic = Op.delete (g (asic.pipes pipe)) k fun t =>
      asic.onPipe pipe fun p => s p t)
    (hget : ∀ p t, g (s p t) = t) (hset : ∀ p t t', s (s p t) t' = s p t')
    (hself : ∀ p, s p (g p) = p) (keep : K → V → Bool) {t : FinTable K V}
    (ht : g (asic.pipes pipe) = t) :
    carryOut ((t.swept keep).map op) asic = .ok (asic.onPipe pipe fun p => s p (t.filter keep)) := by
  refine carryOut_swept (g := fun asic => g (asic.pipes pipe)) hop (fun asic t => ?_)
    (fun asic t t' => ?_) (fun asic => onPipe_self (hself _)) keep ht
  · rw [onPipe_pipes, hget]
  · rw [onPipe_onPipe]
    simp only [hset]

theorem carryOut_sweepPipe {pipe recirc : PipeId} (hne : recirc ≠ pipe)
    (hpipe : asic'.pipes pipe = asic.pipes pipe) (hrecirc : asic'.pipes recirc = asic.pipes recirc) :
    carryOut (sweepPipe channels asic pipe recirc) asic' =
      .ok ((asic'.onPipe pipe (cleanSelectors channels)).onPipe recirc (cleanOutput channels)) := by
  have hother : ∀ (asic : Asic) p, (asic.onPipe pipe p).pipes recirc = asic.pipes recirc :=
    fun asic p => Function.update_of_ne hne _ _
  have hother' : ∀ (asic : Asic) p, (asic.onPipe recirc p).pipes pipe = asic.pipes pipe :=
    fun asic p => Function.update_of_ne hne.symm _ _
  rw [sweepPipe, carryOut_append, carryOut_sweptOnPipe
      (g := PipeTables.unitSelector) (s := fun p t => { p with unitSelector := t })
      (fun _ _ => rfl) (fun _ _ => rfl) (fun _ _ _ => rfl) (fun _ => rfl) _ (by rw [hpipe]),
    Fallible.ok_bind, carryOut_append, carryOut_sweptOnPipe
      (g := PipeTables.checkComplete) (s := fun p t => { p with checkComplete := t })
      (fun _ _ => rfl) (fun _ _ => rfl) (fun _ _ _ => rfl) (fun _ => rfl) _
      (by rw [onPipe_pipes, hpipe]),
    Fallible.ok_bind, carryOut_append, carryOut_sweptOnPipe
      (g := PipeTables.outputAddress) (s := fun p t => { p with outputAddress := t })
      (fun _ _ => rfl) (fun _ _ => rfl) (fun _ _ _ => rfl) (fun _ => rfl) _
      (by rw [hother, hother, hrecirc]),
    Fallible.ok_bind, carryOut_sweptOnPipe
      (g := PipeTables.roceAckReflector) (s := fun p t => { p with roceAckReflector := t })
      (fun _ _ => rfl) (fun _ _ => rfl) (fun _ _ _ => rfl) (fun _ => rfl) _
      (by rw [hother', onPipe_pipes, onPipe_pipes, hpipe])]
  refine congrArg Except.ok ?_
  simp only [Asic.onPipe, Asic.mk.injEq, and_self, and_true]
  funext pipe'
  by_cases hr : pipe' = recirc
  · subst hr
    simp [Function.update_of_ne hne, cleanOutput, hrecirc]
  · by_cases hp : pipe' = pipe
    · subst hp
      simp [Function.update_of_ne hr, cleanSelectors, hpipe]
    · simp [Function.update_of_ne hr, Function.update_of_ne hp]

theorem carryOut_sweepChooseAction (h : asic'.chooseAction = asic.chooseAction) :
    carryOut ((List.finRange 32).flatMap (sweepChooseAction channels asic)) asic' =
      .ok { asic' with chooseAction := fun j =>
        (asic.chooseAction j).filter fun k _ => aggUnitInUse channels k.aggUnit } := by
  have hloop : ∀ js : List (Fin 32), js.Nodup → ∀ asic' : Asic,
      (∀ j ∈ js, asic'.chooseAction j = asic.chooseAction j) →
      carryOut (js.flatMap (sweepChooseAction channels asic)) asic' = .ok { asic' with
        chooseAction := fun j => if j ∈ js then
            (asic.chooseAction j).filter fun k _ => aggUnitInUse channels k.aggUnit
          else asic'.chooseAction j } := by
    intro js
    induction js with
    | nil => intro _ asic' _; rfl
    | cons j js ih =>
        intro hnodup asic' hsame
        rw [List.nodup_cons] at hnodup
        rw [List.flatMap_cons, carryOut_append, sweepChooseAction, carryOut_swept
          (g := fun asic => asic.chooseAction j)
          (s := fun asic t => { asic with chooseAction := Function.update asic.chooseAction j t })
          (fun _ _ => rfl) (fun _ _ => Function.update_self ..)
          (fun _ _ _ => by simp only [Function.update_idem])
          (fun _ => by simp only [Function.update_eq_self]) _ (hsame j List.mem_cons_self),
          Fallible.ok_bind]
        refine (ih hnodup.2 _ fun j' hj' => ?_).trans ?_
        · have hne : j' ≠ j := by
            rintro rfl
            exact hnodup.1 hj'
          exact (Function.update_of_ne hne _ _).trans (hsame j' (List.mem_cons_of_mem _ hj'))
        · congr 2
          funext j'
          by_cases hj : j' = j
          · subst hj
            simp [hnodup.1]
          · simp [hj]
  rw [hloop _ (List.nodup_finRange 32) _ fun j _ => congrFun h j]
  simp only [List.mem_finRange, if_true]

theorem carryOut_sweepMulticast (hmgid : asic'.preMgid = asic.preMgid)
    (hnode : asic'.preNode = asic.preNode) :
    carryOut (sweepMulticast channels asic) asic' = .ok (cleanMulticast channels asic') := by
  rw [sweepMulticast, carryOut_append, carryOut_swept
      (g := Asic.preMgid) (s := fun asic t => { asic with preMgid := t })
      (fun _ _ => rfl) (fun _ _ => rfl) (fun _ _ _ => rfl) (fun _ => rfl) _ hmgid,
    Fallible.ok_bind, carryOut_swept
      (g := Asic.preNode) (s := fun asic t => { asic with preNode := t })
      (fun _ _ => rfl) (fun _ _ => rfl) (fun _ _ _ => rfl) (fun _ => rfl) _ (by exact hnode),
    cleanMulticast, hmgid, hnode]

theorem carryOut_sweepTables :
    carryOut (sweepTables channels asic) asic = .ok (cleanTables channels asic) := by
  rw [sweepTables, carryOut_append, carryOut_sweepPipe (by decide) rfl rfl, Fallible.ok_bind,
    carryOut_append, carryOut_sweepPipe (by decide) (by rfl) (by rfl), Fallible.ok_bind,
    carryOut_append, carryOut_sweepChooseAction (by rfl), Fallible.ok_bind,
    carryOut_sweepMulticast (by rfl) (by rfl)]
  rfl

end Sweep

/-! ### The operations that clear -/

section Clear

variable {asic : Asic}

private theorem registers_ext {regs regs' : Registers} (h : ∀ i, regs.cell i = regs'.cell i) :
    regs = regs' := by
  have hvalues : regs.values = regs'.values := by
    funext j i
    exact congrFun (congrArg Cell.values (h i)) j
  have hlow : regs.stateBitmapsLow = regs'.stateBitmapsLow := by
    funext i
    exact congrArg (fun c => c.bitmap.low) (h i)
  have hhigh : regs.stateBitmapsHigh = regs'.stateBitmapsHigh := by
    funext i
    exact congrArg (fun c => c.bitmap.high) (h i)
  cases regs
  cases regs'
  simp_all

/-- The registers after the values of some units at an index were set to zero. -/
private def zeroValues (i : BitVec 14) (js : List (Fin 32)) (regs : Registers) : Registers :=
  { regs with values := fun j =>
      if j ∈ js then Function.update (regs.values j) i ⟨0, 0⟩ else regs.values j }

theorem carryOut_clearIndex {i : Nat} (hi : i < 16384) : carryOut (clearIndex i) asic =
    .ok { asic with regs := fun pipe => (asic.regs pipe).setCell (BitVec.ofNat 14 i) Cell.zero } := by
  have hvalues : ∀ js : List (Fin 32), js.Nodup → ∀ asic : Asic,
      carryOut (js.map (.clearValues · i)) asic =
        .ok { asic with regs := fun pipe => zeroValues (BitVec.ofNat 14 i) js (asic.regs pipe) } := by
    intro js
    induction js with
    | nil => intro _ asic; rfl
    | cons j js ih =>
        intro hnodup asic
        rw [List.nodup_cons] at hnodup
        rw [List.map_cons, carryOut_cons, Op.apply, Op.clear, if_pos hi, Fallible.ok_bind,
          ih hnodup.2]
        refine congrArg Except.ok (congrArg _ (funext fun pipe => ?_))
        simp only [zeroValues, Registers.mk.injEq, and_self, and_true]
        funext j'
        by_cases hj : j' = j
        · subst hj
          simp [hnodup.1]
        · simp [hj]
  rw [clearIndex, carryOut_append, hvalues _ (List.nodup_finRange 32), Fallible.ok_bind,
    carryOut_cons, Op.apply, Op.clear, if_pos hi, Fallible.ok_bind, carryOut_cons, Op.apply, Op.clear,
    if_pos hi, Fallible.ok_bind, carryOut_nil]
  simp only [zeroValues, List.mem_finRange, if_true]
  rfl

private theorem carryOut_clearIndices {is : List Nat} (his : ∀ i ∈ is, i < 16384) :
    ∃ regs : PipeId → Registers, carryOut (is.flatMap clearIndex) asic = .ok { asic with regs := regs } ∧
      ∀ pipe i, (regs pipe).cell i = if i.toNat ∈ is then Cell.zero else (asic.regs pipe).cell i := by
  induction is generalizing asic with
  | nil => exact ⟨asic.regs, rfl, fun _ _ => by simp⟩
  | cons i is ih =>
      let first (pipe : PipeId) : Registers := (asic.regs pipe).setCell (BitVec.ofNat 14 i) Cell.zero
      obtain ⟨regs, hcarry, hcells⟩ := @ih { asic with regs := first } fun i' hi' =>
        his i' (List.mem_cons_of_mem _ hi')
      refine ⟨regs, ?_, fun pipe i' => ?_⟩
      · rw [List.flatMap_cons, carryOut_append, carryOut_clearIndex (his i List.mem_cons_self)]
        exact hcarry
      · have hi := his i List.mem_cons_self
        rw [hcells]
        by_cases hi' : i' = BitVec.ofNat 14 i
        · have htoNat : i'.toNat = i := by
            rw [hi', BitVec.toNat_ofNat, Nat.mod_eq_of_lt (by omega)]
          rw [htoNat, if_pos List.mem_cons_self]
          split
          · rfl
          · simp only [first]
            rw [hi', Registers.cell_setCell]
        · have hne : i'.toNat ≠ i := by
            rintro rfl
            exact hi' (BitVec.eq_of_toNat_eq (by simp))
          simp only [List.mem_cons, hne, false_or]
          split
          · rfl
          · exact Registers.cell_setCell_of_ne _ _ hi'

private def unitIndices (n : Nat) (aggUnit : BitVec 16) : List Nat :=
  (List.range n).map fun i => aggUnit.toNat * 256 + i

private theorem clearOps_eq (aggUnit : BitVec 16) :
    clearOps aggUnit = (unitIndices 256 aggUnit).flatMap clearIndex := by
  rw [clearOps, unitIndices, List.flatMap_map]

private theorem mem_unitIndices {aggUnit : BitVec 16} {i : Nat} :
    i ∈ unitIndices 256 aggUnit ↔ i / 256 = aggUnit.toNat := by
  rw [unitIndices, List.mem_map]
  constructor
  · rintro ⟨n, hn, heq⟩
    have hlt := List.mem_range.1 hn
    omega
  · intro heq
    exact ⟨i % 256, List.mem_range.2 (Nat.mod_lt _ (by decide)), by omega⟩

/-- The first operation fails where the registers have no cells for the unit. -/
private theorem exists_clearOps_eq_cons (aggUnit : BitVec 16) :
    ∃ ops, clearOps aggUnit = .clearValues 0 (aggUnit.toNat * 256) :: ops := by
  have hcons : ∀ n, ∃ ops, (unitIndices (n + 1) aggUnit).flatMap clearIndex =
      .clearValues 0 (aggUnit.toNat * 256) :: ops := by
    intro n
    rw [unitIndices, List.range_succ_eq_map, List.map_cons, List.flatMap_cons, clearIndex,
      List.finRange_succ, List.map_cons, Nat.add_zero (aggUnit.toNat * 256),
      List.cons_append, List.cons_append]
    exact ⟨_, rfl⟩
  obtain ⟨ops, hops⟩ := hcons 255
  exact ⟨ops, (clearOps_eq aggUnit).trans hops⟩

theorem carryOut_clearOps (aggUnit : BitVec 16) :
    carryOut (clearOps aggUnit) asic = clearUnit asic aggUnit := by
  rw [clearUnit]
  split
  · rename_i hunit
    obtain ⟨regs, hcarry, hcells⟩ := @carryOut_clearIndices asic (unitIndices 256 aggUnit)
      fun i hi => by
        rw [mem_unitIndices] at hi
        omega
    rw [clearOps_eq, hcarry]
    refine congrArg Except.ok (congrArg _ (funext fun pipe => registers_ext fun i => ?_))
    rw [hcells]
    simp only [mem_unitIndices]
    by_cases hi : i.toNat / 256 = aggUnit.toNat
    · simp only [Registers.cell, hi, if_true]
      rfl
    · simp only [Registers.cell, hi, if_false]
  · rename_i hunit
    obtain ⟨ops, hops⟩ := exists_clearOps_eq_cons aggUnit
    rw [hops, carryOut_cons, Op.apply, Op.clear, if_neg hunit, Fallible.error_bind]

/-- The order in which units are cleared, and whether one is cleared twice, is of no consequence. -/
private theorem clearUnits_eq (units : List (BitVec 16)) : ∃ cleared : Registers → Registers,
    (∀ regs i, (cleared regs).cell i =
      if ∃ unit ∈ units, i.toNat / 256 = unit.toNat then Cell.zero else regs.cell i) ∧
    ∀ asic : Asic, units.foldlM clearUnit asic =
      if ∀ unit ∈ units, unit.toNat * 256 < 16384 then
        .ok { asic with regs := fun pipe => cleared (asic.regs pipe) }
      else .error "Clear values register failed" := by
  induction units with
  | nil => exact ⟨id, fun regs i => by simp, fun asic => by simp; rfl⟩
  | cons unit units ih =>
      obtain ⟨cleared, hcells, hclear⟩ := ih
      let first (regs : Registers) : Registers := {
        values := fun j i => if i.toNat / 256 = unit.toNat then ⟨0, 0⟩ else regs.values j i
        stateBitmapsLow := fun i => if i.toNat / 256 = unit.toNat then 0 else regs.stateBitmapsLow i
        stateBitmapsHigh := fun i => if i.toNat / 256 = unit.toNat then 0 else regs.stateBitmapsHigh i }
      refine ⟨fun regs => cleared (first regs), fun regs i => ?_, fun asic => ?_⟩
      · rw [hcells]
        by_cases hrest : ∃ unit' ∈ units, i.toNat / 256 = unit'.toNat
        · obtain ⟨unit', hunit', heq⟩ := hrest
          rw [if_pos ⟨unit', hunit', heq⟩, if_pos ⟨unit', List.mem_cons_of_mem _ hunit', heq⟩]
        · rw [if_neg hrest]
          by_cases hi : i.toNat / 256 = unit.toNat
          · rw [if_pos ⟨unit, List.mem_cons_self, hi⟩]
            simp only [Registers.cell, first, hi, if_true]
            rfl
          · rw [if_neg]
            · simp only [Registers.cell, first, hi, if_false]
            · rintro ⟨unit', hunit', heq⟩
              rcases List.mem_cons.1 hunit' with rfl | hunit'
              · exact hi heq
              · exact hrest ⟨unit', hunit', heq⟩
      · rw [List.foldlM_cons, clearUnit]
        by_cases hfirst : unit.toNat * 256 < 16384
        · rw [if_pos hfirst]
          refine (hclear _).trans ?_
          simp only [List.forall_mem_cons, hfirst, true_and]
          rfl
        · rw [if_neg hfirst, if_neg fun hall => hfirst (hall unit List.mem_cons_self)]
          rfl

theorem foldlM_clearUnit_ascending (units : List (BitVec 16)) :
    (ascending units).foldlM clearUnit asic = units.foldlM clearUnit asic := by
  have hmem : ∀ unit, unit ∈ ascending units ↔ unit ∈ units := by
    intro unit
    rw [ascending, List.mem_insertionSort, List.mem_dedup]
  obtain ⟨cleared, hcells, hclear⟩ := clearUnits_eq units
  obtain ⟨cleared', hcells', hclear'⟩ := clearUnits_eq (ascending units)
  have hsame : cleared' = cleared := by
    funext regs
    refine registers_ext fun i => ?_
    rw [hcells, hcells']
    simp only [hmem]
  rw [hclear, hclear', hsame]
  simp only [hmem]

/-- The operations of the callback do what `onStRepoChannels` says. -/
theorem carryOut_callback (channels : List CollectiveChannel) :
    carryOut (callback channels asic) asic = onStRepoChannels channels asic := by
  have hclear : ∀ (units : List (BitVec 16)) (asic : Asic),
      carryOut (units.flatMap clearOps) asic = units.foldlM clearUnit asic := by
    intro units
    induction units with
    | nil => intro asic; rfl
    | cons unit units ih =>
        intro asic
        rw [List.flatMap_cons, carryOut_append, carryOut_clearOps, List.foldlM_cons]
        exact congrArg _ (funext ih)
  rw [callback, onStRepoChannels]
  rw [← carryOut_install]
  cases hinstall : carryOut ((knownChannels channels).flatMap channelOps) asic with
  | error message =>
      dsimp only
      rw [hinstall]
      rfl
  | ok installed =>
      dsimp only
      rw [carryOut_append, hinstall, Fallible.ok_bind, carryOut_append, carryOut_sweepTables,
        Fallible.ok_bind, hclear, foldlM_clearUnit_ascending]
      rfl

end Clear

end AsicDriver

end Mpitofino
