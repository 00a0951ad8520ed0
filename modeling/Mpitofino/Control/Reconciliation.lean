import Mpitofino.Control.Installation

/-!
# What the tables hold after a notification

`on_st_repo_channels` replays the writes of every known channel and deletes what belongs to none.
`Programmed` says that the tables hold exactly the entries of the channels of the repository; it is
what a first notification after `initial_setup` establishes, and what a later one establishes again
when the channels that stay known keep their keys.
-/

namespace Mpitofino

namespace AsicDriver

open FinTable (lastWrite)

/-! ### The entries of a repository -/

def selectorTable (channels : List CollectiveChannel) (pipe : PipeId) :
    List (UnitSelectorKey × SelectAggUnit) :=
  (knownChannels channels).flatMap fun rc => selectorWrites rc pipe

def completeTable (channels : List CollectiveChannel) (pipe : PipeId) :
    List (CheckCompleteKey × CheckCompleteAction) :=
  (knownChannels channels).flatMap fun rc => completeWrites rc pipe

def outputAddressTable (channels : List CollectiveChannel) (pipe : PipeId) :
    List (OutputAddressKey × OutputAddressSet) :=
  (knownChannels channels).flatMap fun rc => outputAddressWrites rc pipe

def roceAckTable (channels : List CollectiveChannel) (pipe : PipeId) :
    List (RoceAckReflectorKey × IbQp) :=
  (knownChannels channels).flatMap fun rc => roceAckWrites rc pipe

def chooseActionTable (channels : List CollectiveChannel) : List (ChooseActionKey × ChooseAction) :=
  (knownChannels channels).flatMap chooseActionWrites

def preNodeTable (channels : List CollectiveChannel) : List (Nat × PreNode) :=
  (knownChannels channels).flatMap preNodeWrites

def preMgidTable (channels : List CollectiveChannel) : List (BitVec 16 × List PreMember) :=
  (knownChannels channels).flatMap preMgidWrites

/-! ### Installing all channels -/

theorem installAll_ok {channels : List CollectiveChannel} {asic asic' : Asic}
    (h : channels.foldlM installChannel asic = .ok asic') : ∀ rc ∈ channels, Fits rc := by
  induction channels generalizing asic with
  | nil => simp
  | cons rc channels ih =>
      obtain ⟨asic₁, h₁, h₂⟩ := Fallible.foldlM_cons_eq_ok.1 h
      intro rc' hrc'
      rcases List.mem_cons.1 hrc' with rfl | hrc'
      · exact (installChannel_ok h₁).1
      · exact ih h₂ rc' hrc'

theorem installAll_table {K V : Type} [DecidableEq K] {g : Asic → FinTable K V}
    {w : CollectiveChannel → List (K × V)}
    (hg : ∀ rc asic asic', Installed rc asic asic' → g asic' = (g asic).putAll (w rc))
    {channels : List CollectiveChannel} {asic asic' : Asic}
    (h : channels.foldlM installChannel asic = .ok asic') (k : K) :
    (g asic').lookup k = (lastWrite k (channels.flatMap w)).or ((g asic).lookup k) := by
  rw [Fallible.foldlM_flatMap (g := g) (w := w) FinTable.putAll_nil FinTable.putAll_append h
    fun a rc a' hok => hg rc a a' (installChannel_ok hok).2, FinTable.lookup_putAll]

private theorem clearUnits_frame {T : Type} {g : Asic → T}
    (hg : ∀ (asic : Asic) (regs : PipeId → Registers), g { asic with regs := regs } = g asic)
    {units : List (BitVec 16)} {asic asic' : Asic} (h : units.foldlM clearUnit asic = .ok asic') :
    g asic' = g asic :=
  Fallible.foldlM_frame h fun a unit a' hok => by
    rw [clearUnit] at hok
    split at hok
    · obtain rfl := Except.ok.inj hok
      exact hg ..
    · contradiction

/-! ### One notification -/

/-- The pipes whose selectors are swept, and those whose output addresses are. -/
def isOuter (pipe : PipeId) : Bool := pipe = 0 || pipe = 3

/-- What the tables hold after a notification, given what they held before. -/
structure Reconciled (channels : List CollectiveChannel) (asic asic' : Asic) : Prop where
  fits : ∀ rc ∈ knownChannels channels, Fits rc
  unitSelector : ∀ pipe k, (asic'.pipes pipe).unitSelector.lookup k =
    ((lastWrite k (selectorTable channels pipe)).or ((asic.pipes pipe).unitSelector.lookup k)).filter
      fun d => !isOuter pipe || aggUnitInUse channels d.aggUnit
  checkComplete : ∀ pipe k, (asic'.pipes pipe).checkComplete.lookup k =
    ((lastWrite k (completeTable channels pipe)).or ((asic.pipes pipe).checkComplete.lookup k)).filter
      fun _ => !isOuter pipe || aggUnitInUse channels k.aggUnit
  outputAddress : ∀ pipe k, (asic'.pipes pipe).outputAddress.lookup k =
    ((lastWrite k (outputAddressTable channels pipe)).or
      ((asic.pipes pipe).outputAddress.lookup k)).filter
      fun _ => isOuter pipe || aggUnitInUse channels k.aggUnit
  roceAckReflector : ∀ pipe k, (asic'.pipes pipe).roceAckReflector.lookup k =
    ((lastWrite k (roceAckTable channels pipe)).or
      ((asic.pipes pipe).roceAckReflector.lookup k)).filter
      fun _ => !isOuter pipe || keepRoceAck channels k
  chooseAction : ∀ i k, (asic'.chooseAction i).lookup k =
    ((lastWrite k (chooseActionTable channels)).or ((asic.chooseAction i).lookup k)).filter
      fun _ => aggUnitInUse channels k.aggUnit
  preMgid : ∀ k, asic'.preMgid.lookup k =
    ((lastWrite k (preMgidTable channels)).or (asic.preMgid.lookup k)).filter
      fun _ => k < 0x10 || mcastGroupInUse channels k
  preNode : ∀ k, asic'.preNode.lookup k =
    ((lastWrite k (preNodeTable channels)).or (asic.preNode.lookup k)).filter
      fun _ => k ∈ asic'.preMgid.entries.flatMap fun e => e.2.map PreMember.nodeId
  switchingTable : asic'.switchingTable = asic.switchingTable

private theorem pipes_cleanTables (channels : List CollectiveChannel) (asic : Asic)
    (pipe : PipeId) :
    (cleanTables channels asic).pipes pipe =
      if isOuter pipe then cleanSelectors channels (asic.pipes pipe)
      else cleanOutput channels (asic.pipes pipe) := by
  obtain ⟨n, hn⟩ := pipe
  interval_cases n <;> rfl

private theorem lookup_sweep {K V : Type} [DecidableEq K] (t : FinTable K V) (swept : Bool)
    (keep : K → V → Bool) (k : K) :
    (if swept then t.filter keep else t).lookup k =
      (t.lookup k).filter fun v => !swept || keep k v := by
  cases swept with
  | false =>
      simp only [Bool.false_eq_true, if_false, Bool.not_false, Bool.true_or]
      cases t.lookup k <;> rfl
  | true => simpa using FinTable.lookup_filter t keep k

theorem onStRepoChannels_ok {channels : List CollectiveChannel} {asic asic' : Asic}
    (h : onStRepoChannels channels asic = .ok asic') : Reconciled channels asic asic' := by
  obtain ⟨installed, hinstall, hclear⟩ := Fallible.bind_eq_ok.1 h
  have hframe := fun {T : Type} {g : Asic → T} => clearUnits_frame (g := g) (h := hclear)
  have hpipes : asic'.pipes = (cleanTables channels installed).pipes := hframe fun _ _ => rfl
  have hchoose : asic'.chooseAction = (cleanTables channels installed).chooseAction :=
    hframe fun _ _ => rfl
  have hmgid : asic'.preMgid = (cleanTables channels installed).preMgid := hframe fun _ _ => rfl
  have hnode : asic'.preNode = (cleanTables channels installed).preNode := hframe fun _ _ => rfl
  have hswitching : asic'.switchingTable = (cleanTables channels installed).switchingTable :=
    hframe fun _ _ => rfl
  refine ⟨installAll_ok hinstall, fun pipe k => ?_, fun pipe k => ?_, fun pipe k => ?_,
    fun pipe k => ?_, fun i k => ?_, fun k => ?_, fun k => ?_, ?_⟩
  · rw [selectorTable, ← installAll_table (g := fun a => (a.pipes pipe).unitSelector)
      (fun rc a a' hi => hi.unitSelector pipe) hinstall, hpipes, pipes_cleanTables]
    refine Eq.trans ?_ (lookup_sweep (installed.pipes pipe).unitSelector (isOuter pipe)
      (fun _ d => aggUnitInUse channels d.aggUnit) k)
    cases isOuter pipe <;> rfl
  · rw [completeTable, ← installAll_table (g := fun a => (a.pipes pipe).checkComplete)
      (fun rc a a' hi => hi.checkComplete pipe) hinstall, hpipes, pipes_cleanTables]
    refine Eq.trans ?_ (lookup_sweep (installed.pipes pipe).checkComplete (isOuter pipe)
      (fun k _ => aggUnitInUse channels k.aggUnit) k)
    cases isOuter pipe <;> rfl
  · rw [outputAddressTable, ← installAll_table (g := fun a => (a.pipes pipe).outputAddress)
      (fun rc a a' hi => hi.outputAddress pipe) hinstall, hpipes, pipes_cleanTables]
    have hsweep := lookup_sweep (installed.pipes pipe).outputAddress (!isOuter pipe)
      (fun k _ => aggUnitInUse channels k.aggUnit) k
    rw [Bool.not_not] at hsweep
    refine Eq.trans ?_ hsweep
    cases isOuter pipe <;> rfl
  · rw [roceAckTable, ← installAll_table (g := fun a => (a.pipes pipe).roceAckReflector)
      (fun rc a a' hi => hi.roceAckReflector pipe) hinstall, hpipes, pipes_cleanTables]
    refine Eq.trans ?_ (lookup_sweep (installed.pipes pipe).roceAckReflector (isOuter pipe)
      (fun k _ => keepRoceAck channels k) k)
    cases isOuter pipe <;> rfl
  · rw [chooseActionTable, ← installAll_table (g := fun a => a.chooseAction i)
      (fun rc a a' hi => hi.chooseAction i) hinstall, hchoose]
    exact FinTable.lookup_filter ..
  · rw [preMgidTable, ← installAll_table (g := Asic.preMgid) (fun rc a a' hi => hi.preMgid) hinstall, hmgid]
    exact FinTable.lookup_filter ..
  · rw [preNodeTable, ← installAll_table (g := Asic.preNode) (fun rc a a' hi => hi.preNode) hinstall, hnode, hmgid]
    exact FinTable.lookup_filter ..
  · rw [hswitching]
    change installed.switchingTable = _
    exact Fallible.foldlM_frame (g := Asic.switchingTable) hinstall fun a rc a' hok =>
      (installChannel_ok hok).2.switchingTable

end AsicDriver

end Mpitofino
