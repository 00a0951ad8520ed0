import Mpitofino.Control.Reconciliation

/-!
# Programmed tables

`Programmed channels asic` says that the tables hold exactly the entries of these channels. A
notification establishes it on fresh tables, and again after any change of the repository that is
`Stable`: a channel that was known either keeps its keys or is no longer in use.
-/

namespace Mpitofino

namespace AsicDriver

open FinTable (lastWrite)

/-! ### Which channel an entry belongs to -/

section Provenance

variable {channels : List CollectiveChannel} {rc : CollectiveChannel} {pipe : PipeId}

theorem aggUnit_of_mem_selectorWrites {e : UnitSelectorKey × SelectAggUnit}
    (h : e ∈ selectorWrites rc pipe) : e.2.aggUnit = rc.aggUnit := by
  rw [selectorWrites, List.mem_append] at h
  rcases h with h | h
  · obtain ⟨x, -, rfl⟩ := List.mem_map.1 h
    rfl
  · by_cases hpipe : pipe = 3
    · rw [if_pos hpipe, interPipeSelectorWrites] at h
      split at h
      · simp only [List.mem_cons, List.not_mem_nil, or_false] at h
        rcases h with rfl | rfl <;> rfl
      · contradiction
    · rw [if_neg hpipe] at h
      contradiction

theorem aggUnit_of_mem_completeWrites {e : CheckCompleteKey × CheckCompleteAction}
    (h : e ∈ completeWrites rc pipe) : e.1.aggUnit = rc.aggUnit.setWidth 8 := by
  rw [completeWrites] at h
  split at h
  · contradiction
  · simp only [List.mem_cons, List.not_mem_nil, or_false] at h
    rcases h with rfl | rfl <;> rfl

theorem aggUnit_of_mem_outputAddressWrites {e : OutputAddressKey × OutputAddressSet}
    (h : e ∈ outputAddressWrites rc pipe) : e.1.aggUnit = rc.aggUnit := by
  obtain ⟨x, -, rfl⟩ := List.mem_map.1 h
  rfl

theorem aggUnit_of_mem_chooseActionWrites {e : ChooseActionKey × ChooseAction}
    (h : e ∈ chooseActionWrites rc) : e.1.aggUnit = rc.aggUnit.setWidth 8 := by
  simp only [chooseActionWrites, List.mem_cons, List.not_mem_nil, or_false] at h
  rcases h with rfl | rfl <;> rfl

theorem mem_of_mem_roceAckWrites {e : RoceAckReflectorKey × IbQp} (h : e ∈ roceAckWrites rc pipe) :
    ∃ p ∈ rc.members, pipeOf p.switchPort = pipe ∧ e.1 = ⟨p.ip, p.fabricQp⟩ := by
  obtain ⟨p, hp, rfl⟩ := List.mem_map.1 h
  rw [CollectiveChannel.onPipe, List.mem_filter, decide_eq_true_eq] at hp
  exact ⟨p, hp.1, hp.2, rfl⟩

theorem aggUnitInUse_iff {w : Nat} {aggUnit : BitVec w} :
    aggUnitInUse channels aggUnit = true ↔
      ∃ rc ∈ knownChannels channels, rc.aggUnit.toNat = aggUnit.toNat := by
  simp [aggUnitInUse]

theorem eq_of_aggUnit {rc' : CollectiveChannel}
    (hdistinct : channels.Pairwise fun rc rc' => rc.aggUnit ≠ rc'.aggUnit) (hrc : rc ∈ channels)
    (hrc' : rc' ∈ channels) (h : rc.aggUnit = rc'.aggUnit) : rc = rc' := by
  have hsymm : Std.Symm fun rc rc' : CollectiveChannel => rc.aggUnit ≠ rc'.aggUnit :=
    ⟨fun _ _ => Ne.symm⟩
  by_contra hne
  exact hdistinct.forall hrc hrc' hne h

theorem toNat_setWidth_aggUnit (hfits : Fits rc) :
    (rc.aggUnit.setWidth 8).toNat = rc.aggUnit.toNat := by
  rw [BitVec.toNat_setWidth, Nat.mod_eq_of_lt]
  exact hfits.aggUnit_lt

theorem mcastGroupInUse_iff {g : BitVec 16} : mcastGroupInUse channels g = true ↔
    ∃ rc ∈ knownChannels channels, mcastGroup rc.aggUnit = g := by
  simp [mcastGroupInUse]

theorem mcastGroup_toNat (hfits : Fits rc) : (mcastGroup rc.aggUnit).toNat = 16 + rc.aggUnit.toNat := by
  have hlt := hfits.aggUnit_lt
  rw [mcastGroup, BitVec.toNat_add, Nat.mod_eq_of_lt]
  · rfl
  · simp
    omega

theorem not_lt_mcastGroup (hfits : Fits rc) : ¬ mcastGroup rc.aggUnit < 0x10 := by
  rw [BitVec.lt_def, mcastGroup_toNat hfits]
  simp

theorem mcastGroup_injective {rc' : CollectiveChannel} (hfits : Fits rc) (hfits' : Fits rc')
    (h : mcastGroup rc.aggUnit = mcastGroup rc'.aggUnit) : rc.aggUnit = rc'.aggUnit := by
  have := congrArg BitVec.toNat h
  rw [mcastGroup_toNat hfits, mcastGroup_toNat hfits'] at this
  exact BitVec.eq_of_toNat_eq (by omega)

theorem le_of_mem_groupPorts {aggUnit : BitVec 16} {parts : List Participant} {pos : Nat}
    {g : Nat × PortId × Nat} (h : g ∈ groupPorts aggUnit parts pos) : 0x1000 ≤ g.1 := by
  induction parts generalizing pos with
  | nil => contradiction
  | cons part parts ih =>
      rw [groupPorts] at h
      split at h
      · rcases List.mem_cons.1 h with rfl | h
        · change 0x1000 ≤ 0x1000 + _ + _
          omega
        · exact ih h
      · exact ih h

end Provenance

/-! ### Channels with the same keys -/

/-- What the keys of a participant's entries depend on. -/
def address (p : Participant) : (IPv4Addr × IbQp) × PipeId :=
  ((p.ip, p.fabricQp), pipeOf p.switchPort)

structure SameKeys (rc rc' : CollectiveChannel) : Prop where
  fabricIp : rc'.fabricIp = rc.fabricIp
  fabricQpCommon : rc'.fabricQpCommon = rc.fabricQpCommon
  aggUnit : rc'.aggUnit = rc.aggUnit
  addresses : rc'.members.map address = rc.members.map address

namespace SameKeys

variable {rc rc' : CollectiveChannel}

theorem refl (rc : CollectiveChannel) : SameKeys rc rc := ⟨rfl, rfl, rfl, rfl⟩

private theorem onPipe_eq (rc : CollectiveChannel) (pipe : PipeId) :
    (rc.onPipe pipe).map (fun p => (p.ip, p.fabricQp)) =
      ((rc.members.map address).filter fun a => a.2 = pipe).map Prod.fst := by
  rw [List.filter_map, List.map_map]
  rfl

theorem onPipe (h : SameKeys rc rc') (pipe : PipeId) :
    (rc'.onPipe pipe).map (fun p => (p.ip, p.fabricQp)) =
      (rc.onPipe pipe).map fun p => (p.ip, p.fabricQp) := by
  rw [onPipe_eq, onPipe_eq, h.addresses]

theorem count (h : SameKeys rc rc') (pipe : PipeId) : rc'.count pipe = rc.count pipe := by
  have hlength := congrArg List.length (h.onPipe pipe)
  rw [List.length_map, List.length_map] at hlength
  exact hlength

theorem connected (h : SameKeys rc rc') : rc'.connected = rc.connected := by
  rw [CollectiveChannel.connected, CollectiveChannel.connected, h.count, h.count]

theorem contributions (h : SameKeys rc rc') (pipe : PipeId) :
    rc'.contributions pipe = rc.contributions pipe := by
  rw [CollectiveChannel.contributions, CollectiveChannel.contributions, h.connected, h.count,
    h.count]

theorem selectorWrites (h : SameKeys rc rc') (pipe : PipeId) :
    (selectorWrites rc' pipe).map Prod.fst = (selectorWrites rc pipe).map Prod.fst := by
  have hkeys : ∀ rc : CollectiveChannel, (participantSelectorWrites rc pipe).map Prod.fst =
      ((rc.onPipe pipe).map fun p => (p.ip, p.fabricQp)).map fun a =>
        (⟨Ternary.exact a.1, rc.fabricIp, ⟨a.2, 0xffffff⟩, Ternary.any⟩ : UnitSelectorKey) := by
    intro rc
    conv_rhs => rw [← List.zipIdx_map_fst 0 (rc.onPipe pipe)]
    rw [participantSelectorWrites, List.map_map, List.map_map, List.map_map]
    rfl
  have hinter : (interPipeSelectorWrites rc').map Prod.fst =
      (interPipeSelectorWrites rc).map Prod.fst := by
    rw [interPipeSelectorWrites, interPipeSelectorWrites, h.connected]
    split
    · simp [interPipeKey, h.fabricIp, h.fabricQpCommon]
    · rfl
  rw [AsicDriver.selectorWrites, AsicDriver.selectorWrites, List.map_append, List.map_append, hkeys,
    hkeys, h.onPipe, h.fabricIp]
  split
  · rw [hinter]
  · rfl

theorem completeWrites (h : SameKeys rc rc') (pipe : PipeId) :
    (completeWrites rc' pipe).map Prod.fst = (completeWrites rc pipe).map Prod.fst := by
  rw [AsicDriver.completeWrites, AsicDriver.completeWrites, h.count, h.contributions, h.aggUnit]
  split <;> rfl

theorem outputAddressWrites (h : SameKeys rc rc') (pipe : PipeId) :
    (outputAddressWrites rc' pipe).map Prod.fst = (outputAddressWrites rc pipe).map Prod.fst := by
  have hkeys : ∀ rc : CollectiveChannel, (AsicDriver.outputAddressWrites rc pipe).map Prod.fst =
      (((rc.members.map address).zipIdx 1).filter fun e => recircPipe e.1.2 = some pipe).map
        fun e => (⟨rc.aggUnit, BitVec.ofNat 16 e.2⟩ : OutputAddressKey) := by
    intro rc
    rw [AsicDriver.outputAddressWrites, List.zipIdx_map, List.filter_map, List.map_map, List.map_map]
    rfl
  rw [hkeys, hkeys, h.addresses, h.aggUnit]

theorem roceAckWrites (h : SameKeys rc rc') (pipe : PipeId) :
    (roceAckWrites rc' pipe).map Prod.fst = (roceAckWrites rc pipe).map Prod.fst := by
  have hkeys : ∀ rc : CollectiveChannel, (AsicDriver.roceAckWrites rc pipe).map Prod.fst =
      ((rc.onPipe pipe).map fun p => (p.ip, p.fabricQp)).map fun a =>
        (⟨a.1, a.2⟩ : RoceAckReflectorKey) := by
    intro rc
    rw [AsicDriver.roceAckWrites, List.map_map, List.map_map]
    rfl
  rw [hkeys, hkeys, h.onPipe]

end SameKeys

/-! ### Programmed tables -/

/-- The tables hold the entries of these channels and nothing else. -/
structure Programmed (channels : List CollectiveChannel) (asic : Asic) : Prop where
  fits : ∀ rc ∈ knownChannels channels, Fits rc
  unitSelector : ∀ pipe k, (asic.pipes pipe).unitSelector.lookup k =
    lastWrite k (selectorTable channels pipe)
  checkComplete : ∀ pipe k, (asic.pipes pipe).checkComplete.lookup k =
    lastWrite k (completeTable channels pipe)
  outputAddress : ∀ pipe k, (asic.pipes pipe).outputAddress.lookup k =
    lastWrite k (outputAddressTable channels pipe)
  roceAckReflector : ∀ pipe k, (asic.pipes pipe).roceAckReflector.lookup k =
    lastWrite k (roceAckTable channels pipe)
  chooseAction : ∀ i k, (asic.chooseAction i).lookup k = lastWrite k (chooseActionTable channels)
  preMgid : ∀ k, asic.preMgid.lookup k =
    (lastWrite k (preMgidTable channels)).or (basicGroups.lookup k)
  preNode : ∀ k, asic.preNode.lookup k =
    (lastWrite k (preNodeTable channels)).or (basicNodes.lookup k)

theorem programmed_initialSetup (mac : MacAddr) : Programmed [] (initialSetup mac) where
  fits := by simp [knownChannels]
  unitSelector _ _ := rfl
  checkComplete _ _ := rfl
  outputAddress _ _ := rfl
  roceAckReflector _ _ := rfl
  chooseAction _ _ := rfl
  preMgid k := by
    rw [show preMgidTable [] = [] from rfl, lastWrite, Option.none_or, initialSetup]
  preNode k := by
    rw [show preNodeTable [] = [] from rfl, lastWrite, Option.none_or, initialSetup]

/-- A change of the repository after which no key of a known channel is left over. -/
structure Stable (old new : List CollectiveChannel) : Prop where
  sameKeys : ∀ rc ∈ knownChannels old, ∀ rc' ∈ knownChannels new, rc'.aggUnit = rc.aggUnit →
    SameKeys rc rc'
  released : ∀ rc ∈ knownChannels old, ∀ p ∈ rc.members, ∀ rc' ∈ new, ∀ p' ∈ rc'.members,
    p'.ip = p.ip → p'.fabricQp = p.fabricQp → ∃ rc'' ∈ knownChannels new, SameKeys rc rc''
  distinct : (knownChannels new).Pairwise fun rc rc' => rc.aggUnit ≠ rc'.aggUnit

/-! ### The nodes and groups for broadcasts -/

private theorem mem_of_lookup_basicGroups {g : BitVec 16} {members : List PreMember}
    (h : basicGroups.lookup g = some members) :
    g = mcastFlood ∧ members = frontPanelPorts.map (fun p => ⟨p.toNat, true, p.toNat⟩) ∨
      g = mcastBcast ∧ members = bcastPorts.map fun p => ⟨p.toNat ||| 0x200, true, p.toNat⟩ := by
  rw [basicGroups, FinTable.lookup_putAll, FinTable.lookup_empty, Option.or_none] at h
  simpa using FinTable.mem_of_lastWrite h

theorem lt_of_lookup_basicGroups {g : BitVec 16} {members : List PreMember}
    (h : basicGroups.lookup g = some members) : g < 0x10 := by
  rcases mem_of_lookup_basicGroups h with ⟨rfl, -⟩ | ⟨rfl, -⟩ <;> decide

private theorem nodeId_lt_of_lookup_basicGroups {g : BitVec 16} {members : List PreMember}
    (h : basicGroups.lookup g = some members) : ∀ m ∈ members, m.nodeId < 0x1000 := by
  intro m hm
  rcases mem_of_lookup_basicGroups h with ⟨-, rfl⟩ | ⟨-, rfl⟩
  · obtain ⟨p, -, rfl⟩ := List.mem_map.1 hm
    exact p.isLt.trans (by decide)
  · obtain ⟨p, -, rfl⟩ := List.mem_map.1 hm
    exact (Nat.or_lt_two_pow (n := 10) (p.isLt.trans (by decide)) (by decide)).trans (by decide)

private theorem lookup_basicGroups_of_node {n : Nat} {node : PreNode}
    (h : basicNodes.lookup n = some node) :
    ∃ g members, basicGroups.lookup g = some members ∧ n ∈ members.map PreMember.nodeId := by
  rw [basicNodes, FinTable.lookup_putAll, FinTable.lookup_empty, Option.or_none] at h
  rcases List.mem_append.1 (FinTable.mem_of_lastWrite h) with hmem | hmem
  · obtain ⟨p, hp, heq⟩ := List.mem_map.1 hmem
    obtain rfl : p.toNat = n := congrArg Prod.fst heq
    refine ⟨mcastFlood, _, rfl, ?_⟩
    rw [List.map_map]
    exact List.mem_map_of_mem (f := fun p : PortId => p.toNat) hp
  · obtain ⟨p, hp, heq⟩ := List.mem_map.1 hmem
    obtain rfl : p.toNat ||| 0x200 = n := congrArg Prod.fst heq
    refine ⟨mcastBcast, _, rfl, ?_⟩
    rw [List.map_map]
    exact List.mem_map_of_mem (f := fun p : PortId => p.toNat ||| 0x200) hp

theorem lastWrite_group {channels : List CollectiveChannel}
    (hfits : ∀ rc ∈ knownChannels channels, Fits rc)
    (hdistinct : (knownChannels channels).Pairwise fun rc rc' => rc.aggUnit ≠ rc'.aggUnit)
    {rc : CollectiveChannel} (hrc : rc ∈ knownChannels channels) :
    lastWrite (mcastGroup rc.aggUnit) (preMgidTable channels) =
      some ((groupPorts rc.aggUnit rc.members 1).map fun g => ⟨g.1, false, 0⟩) := by
  have hnodup : ((preMgidTable channels).map Prod.fst).Nodup := by
    have hmap : (preMgidTable channels).map Prod.fst =
        (knownChannels channels).map fun rc => mcastGroup rc.aggUnit := by
      rw [preMgidTable, List.map_flatMap]
      exact List.map_eq_flatMap.symm
    rw [hmap, List.Nodup, List.pairwise_map]
    refine hdistinct.imp_of_mem fun ha hb hne heq => ?_
    exact hne (mcastGroup_injective (hfits _ ha) (hfits _ hb) heq)
  exact FinTable.lastWrite_of_nodup hnodup (List.mem_flatMap.2 ⟨rc, hrc, List.mem_singleton.2 rfl⟩)

theorem Reconciled.group {channels : List CollectiveChannel} {asic asic' : Asic}
    (h : Reconciled channels asic asic')
    (hdistinct : (knownChannels channels).Pairwise fun rc rc' => rc.aggUnit ≠ rc'.aggUnit)
    {rc : CollectiveChannel} (hrc : rc ∈ knownChannels channels) :
    asic'.preMgid.lookup (mcastGroup rc.aggUnit) =
      some ((groupPorts rc.aggUnit rc.members 1).map fun g => ⟨g.1, false, 0⟩) := by
  rw [h.preMgid, lastWrite_group h.fits hdistinct hrc, Option.some_or, Option.filter_some_pos]
  rw [mcastGroupInUse_iff.2 ⟨rc, hrc, rfl⟩, Bool.or_true]

section Reconcile

variable {old new : List CollectiveChannel}

private theorem mem_keys_flatMap {K V : Type} {w : CollectiveChannel → List (K × V)}
    {channels : List CollectiveChannel} {rc rc' : CollectiveChannel} {e : K × V}
    (hrc' : rc' ∈ channels) (hkeys : (w rc').map Prod.fst = (w rc).map Prod.fst) (he : e ∈ w rc) :
    e.1 ∈ (channels.flatMap w).map Prod.fst := by
  have hmem : e.1 ∈ (w rc').map Prod.fst := by
    rw [hkeys]
    exact List.mem_map_of_mem he
  obtain ⟨e', he', heq⟩ := List.mem_map.1 hmem
  rw [← heq]
  exact List.mem_map_of_mem (List.mem_flatMap.2 ⟨rc', hrc', he'⟩)

/-- A unit that is in use after the change is that of a channel with the same keys. -/
private theorem Stable.of_inUse (h : Stable old new) {w : Nat} {aggUnit : BitVec w}
    {rc : CollectiveChannel} (hrc : rc ∈ knownChannels old)
    (hunit : aggUnit.toNat = rc.aggUnit.toNat) (hinUse : aggUnitInUse new aggUnit = true) :
    ∃ rc' ∈ knownChannels new, SameKeys rc rc' := by
  obtain ⟨rc', hrc', heq⟩ := aggUnitInUse_iff.1 hinUse
  exact ⟨rc', hrc', h.sameKeys rc hrc rc' hrc' (BitVec.eq_of_toNat_eq (heq.trans hunit))⟩

private theorem onPipe_eq_nil {rc : CollectiveChannel} (hfits : Fits rc) {pipe : PipeId}
    (hpipe : isOuter pipe = false) : rc.onPipe pipe = [] := by
  simp only [isOuter, Bool.or_eq_false_iff, decide_eq_false_iff_not] at hpipe
  exact List.length_eq_zero_iff.1 (count_eq_zero_of_ports hfits.ports hpipe.1 hpipe.2)

theorem selectorWrites_inner {rc : CollectiveChannel} (hfits : Fits rc) {pipe : PipeId}
    (hpipe : isOuter pipe = false) : selectorWrites rc pipe = [] := by
  have hne : pipe ≠ 3 := by
    rintro rfl
    contradiction
  rw [selectorWrites, participantSelectorWrites, onPipe_eq_nil hfits hpipe, if_neg hne]
  rfl

private theorem completeWrites_inner {rc : CollectiveChannel} (hfits : Fits rc) {pipe : PipeId}
    (hpipe : isOuter pipe = false) : completeWrites rc pipe = [] := by
  rw [completeWrites, CollectiveChannel.count, onPipe_eq_nil hfits hpipe]
  rfl

private theorem roceAckWrites_inner {rc : CollectiveChannel} (hfits : Fits rc) {pipe : PipeId}
    (hpipe : isOuter pipe = false) : roceAckWrites rc pipe = [] := by
  rw [roceAckWrites, onPipe_eq_nil hfits hpipe]
  rfl

private theorem outputAddressWrites_outer {rc : CollectiveChannel} {pipe : PipeId}
    (hpipe : isOuter pipe = true) : outputAddressWrites rc pipe = [] := by
  have hrecirc : ∀ p, isOuter pipe = true → recircPipe p ≠ some pipe := by
    revert pipe
    decide
  rw [outputAddressWrites, List.filter_eq_nil_iff.2, List.map_nil]
  intro e _
  simpa using hrecirc (pipeOf e.1.switchPort) hpipe

private theorem reconcile_table {K V : Type} [DecidableEq K] (keep : K → V → Bool)
    {t t' : FinTable K V} {w : CollectiveChannel → List (K × V)} {k : K}
    (ht : t.lookup k = lastWrite k ((knownChannels old).flatMap w))
    (ht' : t'.lookup k = ((lastWrite k ((knownChannels new).flatMap w)).or (t.lookup k)).filter
      (keep k))
    (hnew : ∀ rc ∈ knownChannels new, ∀ e ∈ w rc, keep e.1 e.2 = true)
    (hdrop : ∀ rc ∈ knownChannels old, ∀ e ∈ w rc, keep e.1 e.2 = true →
      ∃ rc' ∈ knownChannels new, (w rc').map Prod.fst = (w rc).map Prod.fst) :
    t'.lookup k = lastWrite k ((knownChannels new).flatMap w) := by
  have hbase := @FinTable.filter_lastWrite_eq _ _ _ (keep k) k ((knownChannels old).flatMap w)
    ((knownChannels new).flatMap w) none
    (fun v hv => by
      obtain ⟨rc, hrc, he⟩ := List.mem_flatMap.1 hv
      exact hnew rc hrc _ he)
    (fun v hv => by contradiction)
    (fun v hv hkeep => by
      obtain ⟨rc, hrc, he⟩ := List.mem_flatMap.1 hv
      obtain ⟨rc', hrc', hkeys⟩ := hdrop rc hrc _ he hkeep
      exact mem_keys_flatMap hrc' hkeys he)
    (fun _ => rfl)
  rw [Option.or_none, Option.or_none] at hbase
  rw [ht', ht, hbase]

variable {asic asic' : Asic} (hold : Programmed old asic) (hstable : Stable old new)
  (h : Reconciled new asic asic')

include hold hstable h

private theorem reconcile_unitSelector (pipe : PipeId) (k : UnitSelectorKey) :
    (asic'.pipes pipe).unitSelector.lookup k = lastWrite k (selectorTable new pipe) := by
  refine reconcile_table (fun _ d => !isOuter pipe || aggUnitInUse new d.aggUnit)
    (hold.unitSelector pipe k) (h.unitSelector pipe k) (fun rc hrc e he => ?_)
    fun rc hrc e he hkeep => ?_
  · rw [aggUnit_of_mem_selectorWrites he, aggUnitInUse_iff.2 ⟨rc, hrc, rfl⟩, Bool.or_true]
  · cases hpipe : isOuter pipe with
    | false =>
        rw [selectorWrites_inner (hold.fits rc hrc) hpipe] at he
        contradiction
    | true =>
        rw [hpipe, Bool.not_true, Bool.false_or, aggUnit_of_mem_selectorWrites he] at hkeep
        obtain ⟨rc', hrc', hkeys⟩ := hstable.of_inUse hrc rfl hkeep
        exact ⟨rc', hrc', hkeys.selectorWrites pipe⟩

private theorem reconcile_checkComplete (pipe : PipeId) (k : CheckCompleteKey) :
    (asic'.pipes pipe).checkComplete.lookup k = lastWrite k (completeTable new pipe) := by
  refine reconcile_table (fun k _ => !isOuter pipe || aggUnitInUse new k.aggUnit)
    (hold.checkComplete pipe k) (h.checkComplete pipe k) (fun rc hrc e he => ?_)
    fun rc hrc e he hkeep => ?_
  · rw [aggUnit_of_mem_completeWrites he,
      aggUnitInUse_iff.2 ⟨rc, hrc, (toNat_setWidth_aggUnit (h.fits rc hrc)).symm⟩, Bool.or_true]
  · cases hpipe : isOuter pipe with
    | false =>
        rw [completeWrites_inner (hold.fits rc hrc) hpipe] at he
        contradiction
    | true =>
        rw [hpipe, Bool.not_true, Bool.false_or, aggUnit_of_mem_completeWrites he] at hkeep
        obtain ⟨rc', hrc', hkeys⟩ := hstable.of_inUse hrc
          (toNat_setWidth_aggUnit (hold.fits rc hrc)) hkeep
        exact ⟨rc', hrc', hkeys.completeWrites pipe⟩

private theorem reconcile_outputAddress (pipe : PipeId) (k : OutputAddressKey) :
    (asic'.pipes pipe).outputAddress.lookup k = lastWrite k (outputAddressTable new pipe) := by
  refine reconcile_table (fun k _ => isOuter pipe || aggUnitInUse new k.aggUnit)
    (hold.outputAddress pipe k) (h.outputAddress pipe k) (fun rc hrc e he => ?_)
    fun rc hrc e he hkeep => ?_
  · rw [aggUnit_of_mem_outputAddressWrites he, aggUnitInUse_iff.2 ⟨rc, hrc, rfl⟩, Bool.or_true]
  · cases hpipe : isOuter pipe with
    | true =>
        rw [outputAddressWrites_outer hpipe] at he
        contradiction
    | false =>
        rw [hpipe, Bool.false_or, aggUnit_of_mem_outputAddressWrites he] at hkeep
        obtain ⟨rc', hrc', hkeys⟩ := hstable.of_inUse hrc rfl hkeep
        exact ⟨rc', hrc', hkeys.outputAddressWrites pipe⟩

private theorem reconcile_roceAckReflector (pipe : PipeId) (k : RoceAckReflectorKey) :
    (asic'.pipes pipe).roceAckReflector.lookup k = lastWrite k (roceAckTable new pipe) := by
  refine reconcile_table (fun k _ => !isOuter pipe || keepRoceAck new k)
    (hold.roceAckReflector pipe k) (h.roceAckReflector pipe k) (fun rc hrc e he => ?_)
    fun rc hrc e he hkeep => ?_
  · obtain ⟨p, hp, -, hkey⟩ := mem_of_mem_roceAckWrites he
    have hkept : keepRoceAck new e.1 = true := by
      rw [hkey, keepRoceAck, List.any_eq_true]
      refine ⟨rc, (List.mem_filter.1 hrc).1, List.any_eq_true.2 ⟨p, hp, ?_⟩⟩
      simp
    rw [hkept, Bool.or_true]
  · cases hpipe : isOuter pipe with
    | false =>
        rw [roceAckWrites_inner (hold.fits rc hrc) hpipe] at he
        contradiction
    | true =>
        obtain ⟨p, hp, -, hkey⟩ := mem_of_mem_roceAckWrites he
        rw [hpipe, Bool.not_true, Bool.false_or, hkey, keepRoceAck, List.any_eq_true] at hkeep
        obtain ⟨rc', hrc', hany⟩ := hkeep
        obtain ⟨p', hp', hsame⟩ := List.any_eq_true.1 hany
        rw [decide_eq_true_eq] at hsame
        obtain ⟨rc'', hrc'', hkeys⟩ := hstable.released rc hrc p hp rc' hrc' p' hp' hsame.1 hsame.2
        exact ⟨rc'', hrc'', hkeys.roceAckWrites pipe⟩

private theorem reconcile_chooseAction (i : Fin 32) (k : ChooseActionKey) :
    (asic'.chooseAction i).lookup k = lastWrite k (chooseActionTable new) := by
  refine reconcile_table (fun k _ => aggUnitInUse new k.aggUnit)
    (hold.chooseAction i k) (h.chooseAction i k) (fun rc hrc e he => ?_)
    fun rc hrc e he hkeep => ?_
  · rw [aggUnit_of_mem_chooseActionWrites he]
    exact aggUnitInUse_iff.2 ⟨rc, hrc, (toNat_setWidth_aggUnit (h.fits rc hrc)).symm⟩
  · rw [aggUnit_of_mem_chooseActionWrites he] at hkeep
    obtain ⟨rc', hrc', hkeys⟩ := hstable.of_inUse hrc
      (toNat_setWidth_aggUnit (hold.fits rc hrc)) hkeep
    exact ⟨rc', hrc', by rw [chooseActionWrites, chooseActionWrites, hkeys.aggUnit]⟩

omit hstable in
private theorem reconcile_preMgid (g : BitVec 16) : asic'.preMgid.lookup g =
    (lastWrite g (preMgidTable new)).or (basicGroups.lookup g) := by
  have hkeys : ∀ {channels : List CollectiveChannel} {g : BitVec 16},
      g ∈ (preMgidTable channels).map Prod.fst ↔
        ∃ rc ∈ knownChannels channels, mcastGroup rc.aggUnit = g := by
    intro channels g
    simp [preMgidTable, preMgidWrites, eq_comm]
  rw [h.preMgid, hold.preMgid]
  refine FinTable.filter_lastWrite_eq (fun _ => g < 0x10 || mcastGroupInUse new g)
    (fun members hmem => ?_) (fun members hbase => ?_) (fun members hmem hkeep => ?_) fun hmem => ?_
  · have hmem := hkeys.1 (List.mem_map_of_mem (f := Prod.fst) hmem)
    rw [mcastGroupInUse_iff.2 hmem, Bool.or_true]
  · rw [decide_eq_true (lt_of_lookup_basicGroups hbase), Bool.true_or]
  · obtain ⟨rc, hrc, hgroup⟩ := hkeys.1 (List.mem_map_of_mem (f := Prod.fst) hmem)
    change mcastGroup rc.aggUnit = g at hgroup
    rw [decide_eq_false (hgroup ▸ not_lt_mcastGroup (hold.fits rc hrc)), Bool.false_or] at hkeep
    exact hkeys.2 (mcastGroupInUse_iff.1 hkeep)
  · obtain ⟨rc, hrc, rfl⟩ := hkeys.1 hmem
    cases hbase : basicGroups.lookup (mcastGroup rc.aggUnit) with
    | none => rfl
    | some members =>
        exact absurd (lt_of_lookup_basicGroups hbase) (not_lt_mcastGroup (hold.fits rc hrc))

private theorem reconcile_preNode (n : Nat) : asic'.preNode.lookup n =
    (lastWrite n (preNodeTable new)).or (basicNodes.lookup n) := by
  have hkeys : ∀ {channels : List CollectiveChannel} {n : Nat},
      n ∈ (preNodeTable channels).map Prod.fst ↔
        ∃ rc ∈ knownChannels channels, ∃ g ∈ groupPorts rc.aggUnit rc.members 1, g.1 = n := by
    intro channels n
    simp [preNodeTable, preNodeWrites, preNodeEntry]
  have hbasic : n ∈ (preNodeTable old).map Prod.fst → basicNodes.lookup n = none := by
    intro hmem
    obtain ⟨rc, hrc, g, hg, rfl⟩ := hkeys.1 hmem
    cases hbase : basicNodes.lookup g.1 with
    | none => rfl
    | some node =>
        obtain ⟨group, members, hgroup, hnode⟩ := lookup_basicGroups_of_node hbase
        obtain ⟨m, hm, hid⟩ := List.mem_map.1 hnode
        have hlt := nodeId_lt_of_lookup_basicGroups hgroup m hm
        have hle := le_of_mem_groupPorts hg
        omega
  have hentries : ∀ {g : BitVec 16} {members : List PreMember} {n : Nat},
      asic'.preMgid.lookup g = some members → n ∈ members.map PreMember.nodeId →
        n ∈ asic'.preMgid.entries.flatMap fun e => e.2.map PreMember.nodeId := fun hlookup hn =>
    List.mem_flatMap.2 ⟨_, asic'.preMgid.mem_entries_iff.2 hlookup, hn⟩
  rw [h.preNode, hold.preNode]
  refine FinTable.filter_lastWrite_eq (fun _ =>
    decide (n ∈ asic'.preMgid.entries.flatMap fun e => e.2.map PreMember.nodeId))
    (fun node hmem => ?_) (fun node hbase => ?_) (fun node hmem hkeep => ?_) hbasic
  · obtain ⟨rc, hrc, g, hg, hid⟩ := hkeys.1 (List.mem_map_of_mem (f := Prod.fst) hmem)
    change g.1 = n at hid
    refine decide_eq_true (hentries (h.group hstable.distinct hrc) ?_)
    rw [List.map_map, ← hid]
    exact List.mem_map_of_mem (f := fun g : Nat × PortId × Nat => g.1) hg
  · obtain ⟨g, members, hgroup, hnode⟩ := lookup_basicGroups_of_node hbase
    refine decide_eq_true (hentries (g := g) ?_ hnode)
    rw [reconcile_preMgid hold h, hgroup, Option.or_eq_some_iff]
    refine Or.inr ⟨FinTable.lastWrite_eq_none_iff.2 fun hmem => ?_, rfl⟩
    obtain ⟨rc, hrc, heq⟩ : ∃ rc ∈ knownChannels new, mcastGroup rc.aggUnit = g := by
      simpa [preMgidTable, preMgidWrites, eq_comm] using hmem
    exact not_lt_mcastGroup (h.fits rc hrc) (heq ▸ lt_of_lookup_basicGroups hgroup)
  · obtain ⟨rc, hrc, g, hg, hid⟩ := hkeys.1 (List.mem_map_of_mem (f := Prod.fst) hmem)
    obtain ⟨⟨group, members⟩, hentry, hn⟩ := List.mem_flatMap.1 (of_decide_eq_true hkeep)
    have hlookup := asic'.preMgid.mem_entries_iff.1 hentry
    rw [reconcile_preMgid hold h, Option.or_eq_some_iff] at hlookup
    rcases hlookup with hlast | ⟨-, hbase⟩
    · obtain ⟨rc', hrc', hwrite⟩ := List.mem_flatMap.1 (FinTable.mem_of_lastWrite hlast)
      rw [preMgidWrites, List.mem_singleton, Prod.mk.injEq] at hwrite
      rw [hwrite.2, List.map_map] at hn
      obtain ⟨g', hg', hid'⟩ := List.mem_map.1 hn
      exact hkeys.2 ⟨rc', hrc', g', hg', hid'⟩
    · obtain ⟨m, hm, hid'⟩ := List.mem_map.1 hn
      have hlt := nodeId_lt_of_lookup_basicGroups hbase m hm
      have hle := le_of_mem_groupPorts hg
      change g.1 = n at hid
      omega

/-- **Reconciliation.** After a stable change a notification leaves the tables programmed for the new
channels. -/
theorem Reconciled.programmed : Programmed new asic' where
  fits := h.fits
  unitSelector := reconcile_unitSelector hold hstable h
  checkComplete := reconcile_checkComplete hold hstable h
  outputAddress := reconcile_outputAddress hold hstable h
  roceAckReflector := reconcile_roceAckReflector hold hstable h
  chooseAction := reconcile_chooseAction hold hstable h
  preMgid := reconcile_preMgid hold h
  preNode := reconcile_preNode hold hstable h

end Reconcile

/-- A first notification programs the tables. -/
theorem programmed_of_initialSetup {channels : List CollectiveChannel} {mac : MacAddr} {asic : Asic}
    (hdistinct : (knownChannels channels).Pairwise fun rc rc' => rc.aggUnit ≠ rc'.aggUnit)
    (h : onStRepoChannels channels (initialSetup mac) = .ok asic) : Programmed channels asic :=
  (onStRepoChannels_ok h).programmed (programmed_initialSetup mac)
    ⟨fun _ hrc => by contradiction, fun _ hrc => by contradiction, hdistinct⟩

/-! ### Notifications that end normally -/

theorem aggUnitsToClear_installed {channels : List CollectiveChannel} {asic installed : Asic}
    (hinstall : (knownChannels channels).foldlM installChannel asic = .ok installed)
    (hasic : ∀ pipe, ∀ e ∈ (asic.pipes pipe).unitSelector.entries,
      aggUnitInUse channels e.2.aggUnit = true ∨ e.2.aggUnit.toNat < 64) :
    ∀ unit ∈ aggUnitsToClear channels installed, unit.toNat < 64 := by
  intro unit hunit
  obtain ⟨pipe, -, hmem⟩ := List.mem_flatMap.1 hunit
  obtain ⟨hmap, hnot⟩ := List.mem_filter.1 hmem
  obtain ⟨⟨k, d⟩, he, rfl⟩ := List.mem_map.1 hmap
  have hlookup := (installed.pipes pipe).unitSelector.mem_entries_iff.1 he
  rw [installAll_table (g := fun a => (a.pipes pipe).unitSelector)
    (fun rc a a' hi => hi.unitSelector pipe) hinstall, Option.or_eq_some_iff] at hlookup
  have hnotInUse : ¬ aggUnitInUse channels d.aggUnit = true := by simpa using hnot
  rcases hlookup with hwrite | ⟨-, hold⟩
  · obtain ⟨rc, hrc, hw⟩ := List.mem_flatMap.1 (FinTable.mem_of_lastWrite hwrite)
    exact absurd (aggUnitInUse_iff.2 ⟨rc, hrc, by rw [aggUnit_of_mem_selectorWrites hw]⟩) hnotInUse
  · exact (hasic pipe (k, d) ((asic.pipes pipe).unitSelector.mem_entries_iff.2 hold)).resolve_left
      hnotInUse

theorem exists_onStRepoChannels {channels : List CollectiveChannel} {asic : Asic}
    (hfits : ∀ rc ∈ knownChannels channels, Fits rc)
    (hasic : ∀ pipe, ∀ e ∈ (asic.pipes pipe).unitSelector.entries,
      aggUnitInUse channels e.2.aggUnit = true ∨ e.2.aggUnit.toNat < 64) :
    ∃ asic', onStRepoChannels channels asic = .ok asic' := by
  obtain ⟨installed, hinstall⟩ := Fallible.exists_foldlM (f := installChannel)
    (fun asic rc hrc => installChannel_of_fits (hfits rc hrc) asic) asic
  obtain ⟨asic', hclear⟩ := Fallible.exists_foldlM (f := clearUnit)
    (fun asic unit hunit => by
      have hlt := aggUnitsToClear_installed hinstall hasic unit hunit
      rw [clearUnit, if_pos (by omega)]
      exact ⟨_, rfl⟩) (cleanTables channels installed)
  exact ⟨asic', Fallible.bind_eq_ok.2 ⟨installed, hinstall, hclear⟩⟩

theorem exists_onStRepoChannels_initialSetup {channels : List CollectiveChannel}
    (hfits : ∀ rc ∈ knownChannels channels, Fits rc) (mac : MacAddr) :
    ∃ asic', onStRepoChannels channels (initialSetup mac) = .ok asic' :=
  exists_onStRepoChannels hfits fun _ _ he => by contradiction

end AsicDriver

end Mpitofino
