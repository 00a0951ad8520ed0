import Mpitofino.Control.Programmed
import Mpitofino.Dataplane.Egress

/-!
# Delivering results

The packet replication engine makes one copy for each port of each node of a group. The nodes of a
channel are numbered by its unit divided by eight and by the position of the participant, so channels
of one group of eight units share their nodes, and the last of them decides where the copies go.
-/

namespace Mpitofino

/-- The copies the replication engine makes for a multicast group: port and replication id. A member
whose exclusion id is that of the packet is pruned. -/
def Asic.replicas (asic : Asic) (mgid : BitVec 16) (xid : Nat) : List (PortId × BitVec 16) :=
  ((asic.preMgid.lookup mgid).getD []).flatMap fun m =>
    if m.l1XidValid && m.l1Xid = xid then []
    else
      match asic.preNode.lookup m.nodeId with
      | some node => node.devPort.map fun port => (port, node.rid)
      | none => []

namespace AsicDriver

open FinTable (lastWrite)

/-- The copy reaches the participant, readdressed to it. -/
structure Reaches (asic : Asic) (rc : CollectiveChannel) (part : Participant)
    (replica : PortId × BitVec 16) : Prop where
  port : Ingress.adaptRecircFanoutPort replica.1 = some part.switchPort
  address : ∃ d, (asic.pipes (pipeOf replica.1)).outputAddress.lookup ⟨rc.aggUnit, replica.2⟩ = some d ∧
    d.dstMac = part.mac ∧ d.dstIp = part.ip ∧ d.dstQp = part.localQp

instance (asic : Asic) (rc : CollectiveChannel) (part : Participant) (replica : PortId × BitVec 16) :
    Decidable (Reaches asic rc part replica) :=
  have : Decidable (∃ d, (asic.pipes (pipeOf replica.1)).outputAddress.lookup ⟨rc.aggUnit, replica.2⟩ = some d ∧
      d.dstMac = part.mac ∧ d.dstIp = part.ip ∧ d.dstQp = part.localQp) :=
    inferInstanceAs (Decidable (∃ d ∈ (asic.pipes (pipeOf replica.1)).outputAddress.lookup _, _))
  decidable_of_iff (_ ∧ _) ⟨fun h => ⟨h.1, h.2⟩, fun h => ⟨h.port, h.address⟩⟩

/-- The group of a channel makes one copy for each participant, which reaches it, and no other. -/
def Delivers (asic : Asic) (rc : CollectiveChannel) : Prop :=
  ∀ xid, List.Forall₂ (Reaches asic rc) rc.members (asic.replicas (mcastGroup rc.aggUnit) xid)

/-- Channels of one group of eight units have the same port at every position they share. -/
def SharePorts (channels : List CollectiveChannel) : Prop :=
  ∀ rc ∈ channels, ∀ rc' ∈ channels, rc.aggUnit.toNat / 8 = rc'.aggUnit.toNat / 8 →
    ∀ (i : Nat) (p p' : Participant), rc.members[i]? = some p → rc'.members[i]? = some p' →
      p.switchPort = p'.switchPort

theorem sharePorts_iff {channels : List CollectiveChannel} : SharePorts channels ↔
    ∀ rc ∈ channels, ∀ rc' ∈ channels, rc.aggUnit.toNat / 8 = rc'.aggUnit.toNat / 8 →
      ∀ x ∈ rc.members.zip rc'.members, x.1.switchPort = x.2.switchPort := by
  constructor
  · intro h rc hrc rc' hrc' hgroup x hx
    obtain ⟨i, hi⟩ := List.mem_iff_getElem?.1 hx
    obtain ⟨hp, hp'⟩ := List.getElem?_zip_eq_some.1 hi
    exact h rc hrc rc' hrc' hgroup i _ _ hp hp'
  · intro h rc hrc rc' hrc' hgroup i p p' hp hp'
    exact h rc hrc rc' hrc' hgroup (p, p') (List.mem_iff_getElem?.2 ⟨i, List.getElem?_zip_eq_some.2 ⟨hp, hp'⟩⟩)

instance (channels : List CollectiveChannel) : Decidable (SharePorts channels) :=
  decidable_of_iff _ sharePorts_iff.symm

/-! ### Ports -/

theorem adapt_fanoutPort (port : PortId) (h : pipeOf port = 0 ∨ pipeOf port = 3) :
    ∃ fanout, fanoutPort port = some fanout ∧
      Ingress.adaptRecircFanoutPort fanout = some port ∧
      recircPipe (pipeOf port) = some (pipeOf fanout) := by
  have hall : ∀ port : PortId, pipeOf port = 0 ∨ pipeOf port = 3 →
      (fanoutPort port).any fun fanout =>
        Ingress.adaptRecircFanoutPort fanout = some port ∧
          recircPipe (pipeOf port) = some (pipeOf fanout) := by
    decide +kernel
  obtain ⟨fanout, hfanout, hboth⟩ := (Option.any_eq_true _ _).1 (hall port h)
  exact ⟨fanout, hfanout, of_decide_eq_true hboth⟩

theorem groupPorts_eq {aggUnit : BitVec 16} {parts : List Participant}
    (hports : ∀ p ∈ parts, pipeOf p.switchPort = 0 ∨ pipeOf p.switchPort = 3) (pos : Nat) :
    groupPorts aggUnit parts pos = (parts.zipIdx pos).map fun e =>
      (multicastNodeId aggUnit e.2, (fanoutPort e.1.switchPort).getD 0, e.2) := by
  induction parts generalizing pos with
  | nil => rfl
  | cons part parts ih =>
      obtain ⟨fanout, hfanout, -, -⟩ := adapt_fanoutPort _ (hports part List.mem_cons_self)
      rw [groupPorts, hfanout, List.zipIdx_cons, List.map_cons,
        ih fun p hp => hports p (List.mem_cons_of_mem _ hp), hfanout]
      rfl

theorem length_members_le {rc : CollectiveChannel} (hfits : Fits rc) : rc.members.length ≤ 125 := by
  have hsplit : rc.members.length = rc.count 0 + rc.count 3 := by
    rw [List.length_eq_length_filter_add fun p => pipeOf p.switchPort = 0]
    congr 2
    refine List.filter_congr fun p hp => ?_
    rcases hfits.ports p hp with h | h <;> simp [h]
  have h0 : rc.count 0 ≤ 64 := hfits.room 0
  have h3 : rc.count 3 ≤ 61 := hfits.room 3
  omega

private theorem multicastNodeId_inj {u u' : BitVec 16} {i i' : Nat} (hi : i < 512) (hi' : i' < 512)
    (h : multicastNodeId u (i + 1) = multicastNodeId u' (i' + 1)) :
    u.toNat / 8 = u'.toNat / 8 ∧ i = i' := by
  simp only [multicastNodeId] at h
  omega

theorem forall₂_zipIdx {α : Type} {R : α → α × Nat → Prop} {l : List α} {k : Nat} :
    List.Forall₂ R l (l.zipIdx k) ↔ ∀ i a, l[i]? = some a → R a (a, k + i) := by
  induction l generalizing k with
  | nil => simp
  | cons b l ih =>
      rw [List.zipIdx_cons, List.forall₂_cons, ih]
      constructor
      · rintro ⟨hhead, htail⟩ i a ha
        cases i with
        | zero =>
            obtain rfl := Option.some.inj ha
            exact hhead
        | succ i =>
            have := htail i a ha
            rwa [Nat.add_assoc, Nat.add_comm 1 i] at this
      · intro h
        refine ⟨h 0 b rfl, fun i a ha => ?_⟩
        have := h (i + 1) a ha
        rwa [Nat.add_assoc, Nat.add_comm 1 i]

/-! ### The copies of a channel -/

/-- The entries that the copies of the known channels are made by. -/
structure Groups (channels : List CollectiveChannel) (asic : Asic) : Prop where
  fits : ∀ rc ∈ knownChannels channels, Fits rc
  group : ∀ rc ∈ knownChannels channels, asic.preMgid.lookup (mcastGroup rc.aggUnit) =
    some ((groupPorts rc.aggUnit rc.members 1).map fun g => ⟨g.1, false, 0⟩)
  node : ∀ rc ∈ knownChannels channels, ∀ g ∈ groupPorts rc.aggUnit rc.members 1,
    asic.preNode.lookup g.1 = lastWrite g.1 (preNodeTable channels)
  address : ∀ rc ∈ knownChannels channels, ∀ pipe rid d,
    lastWrite ⟨rc.aggUnit, rid⟩ (outputAddressTable channels pipe) = some d →
      (asic.pipes pipe).outputAddress.lookup ⟨rc.aggUnit, rid⟩ = some d

private theorem exists_lastWrite_node {channels : List CollectiveChannel} {rc : CollectiveChannel}
    (hrc : rc ∈ knownChannels channels) {g : Nat × PortId × Nat}
    (hg : g ∈ groupPorts rc.aggUnit rc.members 1) :
    ∃ node, lastWrite g.1 (preNodeTable channels) = some node := by
  have hwritten : g.1 ∈ (preNodeTable channels).map Prod.fst :=
    List.mem_map.2 ⟨_, List.mem_flatMap.2 ⟨rc, hrc, List.mem_map_of_mem hg⟩, rfl⟩
  exact Option.ne_none_iff_exists'.1 fun hnone => FinTable.lastWrite_eq_none_iff.1 hnone hwritten

theorem Reconciled.groups {channels : List CollectiveChannel} {asic asic' : Asic}
    (h : Reconciled channels asic asic')
    (hdistinct : (knownChannels channels).Pairwise fun rc rc' => rc.aggUnit ≠ rc'.aggUnit) :
    Groups channels asic' where
  fits := h.fits
  group _ hrc := h.group hdistinct hrc
  node rc hrc g hg := by
    obtain ⟨node, hnode⟩ := exists_lastWrite_node hrc hg
    rw [h.preNode, hnode, Option.some_or, Option.filter_some_pos]
    refine decide_eq_true (List.mem_flatMap.2 ⟨_, asic'.preMgid.mem_entries_iff.2
      (h.group hdistinct hrc), ?_⟩)
    rw [List.map_map]
    exact List.mem_map.2 ⟨_, hg, rfl⟩
  address rc hrc pipe rid d hd := by
    rw [h.outputAddress, hd, Option.some_or, Option.filter_some_pos]
    rw [aggUnitInUse_iff.2 ⟨rc, hrc, rfl⟩, Bool.or_true]

theorem Programmed.groups {channels : List CollectiveChannel} {asic : Asic}
    (h : Programmed channels asic)
    (hdistinct : (knownChannels channels).Pairwise fun rc rc' => rc.aggUnit ≠ rc'.aggUnit) :
    Groups channels asic where
  fits := h.fits
  group _ hrc := by rw [h.preMgid, lastWrite_group h.fits hdistinct hrc, Option.some_or]
  node rc hrc g hg := by
    obtain ⟨node, hnode⟩ := exists_lastWrite_node hrc hg
    rw [h.preNode, hnode, Option.some_or]
  address rc hrc pipe rid d hd := by rw [h.outputAddress, hd]

section Copies

variable {channels : List CollectiveChannel} {asic' : Asic} (h : Groups channels asic')
  (hdistinct : (knownChannels channels).Pairwise fun rc rc' => rc.aggUnit ≠ rc'.aggUnit)
  {rc : CollectiveChannel} (hrc : rc ∈ knownChannels channels)

include h hrc

private theorem position_lt {i : Nat} {p : Participant} (hi : rc.members[i]? = some p) : i < 512 := by
  have hlt := (List.getElem?_eq_some_iff.1 hi).1
  have hle := length_members_le (h.fits rc hrc)
  omega

/-- A node of a channel is what the last channel of its group that has the position made of it. -/
theorem lookup_node {i : Nat} {p : Participant} (hi : rc.members[i]? = some p) :
    ∃ rc' ∈ knownChannels channels, rc'.aggUnit.toNat / 8 = rc.aggUnit.toNat / 8 ∧
      ∃ p', rc'.members[i]? = some p' ∧
        asic'.preNode.lookup (multicastNodeId rc.aggUnit (i + 1)) =
          some ⟨BitVec.ofNat 16 (i + 1), [(fanoutPort p'.switchPort).getD 0]⟩ := by
  have hmem : ∀ {rc : CollectiveChannel} {i : Nat} {p : Participant}, rc ∈ knownChannels channels →
      rc.members[i]? = some p → (multicastNodeId rc.aggUnit (i + 1),
        (fanoutPort p.switchPort).getD 0, i + 1) ∈ groupPorts rc.aggUnit rc.members 1 := by
    intro rc i p hrc hi
    rw [groupPorts_eq (h.fits rc hrc).ports]
    exact List.mem_map.2 ⟨(p, i + 1), List.mk_mem_zipIdx_iff_le_and_getElem?_sub.2
      ⟨by omega, by simpa using hi⟩, rfl⟩
  obtain ⟨node, hnode⟩ := exists_lastWrite_node hrc (hmem hrc hi)
  obtain ⟨rc', hrc', hw⟩ := List.mem_flatMap.1 (FinTable.mem_of_lastWrite hnode)
  obtain ⟨g, hg, heq⟩ := List.mem_map.1 hw
  rw [groupPorts_eq (h.fits rc' hrc').ports] at hg
  obtain ⟨⟨p', pos⟩, he, rfl⟩ := List.mem_map.1 hg
  obtain ⟨hpos, hp'⟩ := List.mk_mem_zipIdx_iff_le_and_getElem?_sub.1 he
  obtain ⟨j, rfl⟩ : ∃ j, pos = j + 1 := ⟨pos - 1, by omega⟩
  rw [Nat.add_sub_cancel] at hp'
  obtain ⟨hgroup, rfl⟩ := multicastNodeId_inj (position_lt h hrc' hp') (position_lt h hrc hi)
    (congrArg Prod.fst heq)
  refine ⟨rc', hrc', hgroup, p', hp', ?_⟩
  rw [h.node rc hrc _ (hmem hrc hi), hnode, ← (Prod.mk.inj heq).2]

/-- The copy the node of a position makes. -/
private def copyAt (asic : Asic) (aggUnit : BitVec 16) (pos : Nat) : PortId × BitVec 16 :=
  match asic.preNode.lookup (multicastNodeId aggUnit pos) with
  | some node => (node.devPort.headD 0, node.rid)
  | none => (0, 0)

private theorem replicas_eq (xid : Nat) : asic'.replicas (mcastGroup rc.aggUnit) xid =
    (rc.members.zipIdx 1).map fun e => copyAt asic' rc.aggUnit e.2 := by
  rw [Asic.replicas, h.group rc hrc, groupPorts_eq (h.fits rc hrc).ports, Option.getD_some,
    List.map_map, List.flatMap_map, List.map_eq_flatMap]
  refine List.flatMap_congr fun e he => ?_
  obtain ⟨p, pos⟩ := e
  obtain ⟨hpos, hp⟩ := List.mk_mem_zipIdx_iff_le_and_getElem?_sub.1 he
  obtain ⟨i, rfl⟩ : ∃ i, pos = i + 1 := ⟨pos - 1, by omega⟩
  rw [Nat.add_sub_cancel] at hp
  obtain ⟨rc', -, -, p', -, hnode⟩ := lookup_node h hrc hp
  simp [copyAt, hnode]

private theorem delivers_iff : Delivers asic' rc ↔
    ∀ i p, rc.members[i]? = some p → Reaches asic' rc p (copyAt asic' rc.aggUnit (i + 1)) := by
  have hall : ∀ xid, List.Forall₂ (Reaches asic' rc) rc.members
      (asic'.replicas (mcastGroup rc.aggUnit) xid) ↔
        ∀ i p, rc.members[i]? = some p → Reaches asic' rc p (copyAt asic' rc.aggUnit (i + 1)) := by
    intro xid
    rw [replicas_eq h hrc, List.forall₂_map_right_iff, forall₂_zipIdx]
    simp only [Nat.add_comm]
  exact ⟨fun hdelivers => (hall 0).1 (hdelivers 0), fun hreaches xid => (hall xid).2 hreaches⟩

include hdistinct

theorem lookup_outputAddress {i : Nat} {p : Participant} (hi : rc.members[i]? = some p)
    {pipe : PipeId} (hpipe : recircPipe (pipeOf p.switchPort) = some pipe) :
    (asic'.pipes pipe).outputAddress.lookup ⟨rc.aggUnit, BitVec.ofNat 16 (i + 1)⟩ =
      some (outputAddress rc p) := by
  have hlast : lastWrite ⟨rc.aggUnit, BitVec.ofNat 16 (i + 1)⟩ (outputAddressTable channels pipe) =
      some (outputAddress rc p) := by
    refine FinTable.lastWrite_eq_some (List.mem_flatMap.2 ⟨rc, hrc, List.mem_map.2
      ⟨(p, i + 1), List.mem_filter.2 ⟨List.mk_mem_zipIdx_iff_le_and_getElem?_sub.2
        ⟨by omega, by simpa using hi⟩, decide_eq_true hpipe⟩, rfl⟩⟩) fun d hd => ?_
    obtain ⟨rc', hrc', hw⟩ := List.mem_flatMap.1 hd
    obtain ⟨⟨p', pos⟩, he, heq⟩ := List.mem_map.1 hw
    obtain ⟨hpos, hp'⟩ := List.mk_mem_zipIdx_iff_le_and_getElem?_sub.1 (List.mem_filter.1 he).1
    obtain ⟨j, rfl⟩ : ∃ j, pos = j + 1 := ⟨pos - 1, by omega⟩
    rw [Nat.add_sub_cancel] at hp'
    obtain ⟨hkey, rfl⟩ := Prod.mk.inj heq
    obtain ⟨hunit, hrid⟩ := OutputAddressKey.mk.inj hkey
    obtain rfl := eq_of_aggUnit hdistinct hrc' hrc hunit
    have hji : j = i := by
      have hj := position_lt h hrc' hp'
      have hi := position_lt h hrc hi
      have hnat := congrArg BitVec.toNat hrid
      rw [BitVec.toNat_ofNat, BitVec.toNat_ofNat] at hnat
      omega
    subst hji
    rw [Option.some.inj (hp'.symm.trans hi)]
  exact h.address rc hrc pipe _ _ hlast

end Copies

theorem sharePorts_of_delivers {channels : List CollectiveChannel} {asic' : Asic}
    (h : Groups channels asic') (hdelivers : ∀ rc ∈ knownChannels channels, Delivers asic' rc) :
    SharePorts (knownChannels channels) := by
  intro rc hrc rc' hrc' hgroup i p p' hp hp'
  have hreaches := (delivers_iff h hrc).1 (hdelivers rc hrc) i p hp
  have hreaches' := (delivers_iff h hrc').1 (hdelivers rc' hrc') i p' hp'
  have hnode : multicastNodeId rc.aggUnit (i + 1) = multicastNodeId rc'.aggUnit (i + 1) := by
    rw [multicastNodeId, multicastNodeId, hgroup]
  have hport := hreaches.port
  rw [copyAt, hnode] at hport
  exact Option.some.inj (hport.symm.trans hreaches'.port)

theorem delivers_of_sharePorts {channels : List CollectiveChannel} {asic' : Asic}
    (h : Groups channels asic')
    (hdistinct : (knownChannels channels).Pairwise fun rc rc' => rc.aggUnit ≠ rc'.aggUnit)
    (hshare : SharePorts (knownChannels channels)) {rc : CollectiveChannel}
    (hrc : rc ∈ knownChannels channels) : Delivers asic' rc := by
  refine (delivers_iff h hrc).2 fun i p hp => ?_
  obtain ⟨rc', hrc', hgroup, p', hp', hnode⟩ := lookup_node h hrc hp
  have hport : p'.switchPort = p.switchPort := hshare rc' hrc' rc hrc hgroup i p' p hp' hp
  have hpart := (h.fits rc hrc).ports p (List.mem_of_getElem? hp)
  obtain ⟨fanout, hfanout, hadapt, hrecirc⟩ := adapt_fanoutPort _ hpart
  have hcopy : copyAt asic' rc.aggUnit (i + 1) = (fanout, BitVec.ofNat 16 (i + 1)) := by
    rw [copyAt, hnode, hport, hfanout]
    rfl
  rw [hcopy]
  exact ⟨hadapt, outputAddress rc p, lookup_outputAddress h hdistinct hrc hp hrecirc, rfl, rfl, rfl⟩

/-- **Delivery.** After a notification every programmed channel delivers to its participants if and
only if the channels of each group of eight units have the same ports at the positions they share. -/
theorem delivers_iff_sharePorts {channels : List CollectiveChannel} {asic asic' : Asic}
    (hdistinct : (knownChannels channels).Pairwise fun rc rc' => rc.aggUnit ≠ rc'.aggUnit)
    (hok : onStRepoChannels channels asic = .ok asic') :
    (∀ rc ∈ knownChannels channels, Delivers asic' rc) ↔ SharePorts (knownChannels channels) :=
  have h := (onStRepoChannels_ok hok).groups hdistinct
  ⟨sharePorts_of_delivers h,
    fun hshare _ hrc => delivers_of_sharePorts h hdistinct hshare hrc⟩

/-! ### Two channels of one group -/

namespace Neighbours

def channel (aggUnit : BitVec 16) (port : PortId) : CollectiveChannel where
  tag := aggUnit.toNat
  fabricIp := 1
  fabricQpCommon := aggUnit + 1
  fabricMac := 1024
  aggUnit := aggUnit
  participants := OrderedMap.empty.insert 7
    ⟨7, 10, 5, (aggUnit + 1).setWidth 24 <<< 8, 6, port⟩

/-- A channel of two hosts with two participants each. -/
def team (aggUnit : BitVec 16) (port port' : PortId) : CollectiveChannel where
  tag := aggUnit.toNat
  fabricIp := 1
  fabricQpCommon := aggUnit + 1
  fabricMac := 1024
  aggUnit := aggUnit
  participants :=
    let qp (suffix : BitVec 24) : IbQp := ((aggUnit + 1).setWidth 24 <<< 8) + suffix
    (((OrderedMap.empty.insert 7 ⟨7, 10, 5, qp 0, 6, port⟩).insert 8 ⟨8, 11, 6, qp 1, 7, port'⟩).insert 9
      ⟨9, 10, 8, qp 2, 6, port⟩).insert 10 ⟨10, 11, 9, qp 3, 7, port'⟩

/-- Two channels of one group with their participants at the same ports, and one of another group. -/
def teams : List CollectiveChannel := [team 0 0 384, team 5 0 384, team 8 388 4]

theorem teams_deliver : ∃ asic', onStRepoChannels teams (initialSetup 1024) = .ok asic' ∧
    knownChannels teams = teams ∧ ∀ rc ∈ knownChannels teams, Delivers asic' rc := by
  obtain ⟨asic', hok⟩ := @exists_onStRepoChannels_initialSetup teams (by decide) 1024
  exact ⟨asic', hok, rfl, (delivers_iff_sharePorts (by decide) hok).2 (by decide)⟩

/-- The participants of the channels with the units 0 and 1 are at the ports 0 and 4. -/
theorem channels_not_delivers : ∃ asic',
    onStRepoChannels [channel 0 0, channel 1 4] (initialSetup 1024) = .ok asic' ∧
      ¬ ∀ rc ∈ knownChannels [channel 0 0, channel 1 4], Delivers asic' rc := by
  obtain ⟨asic', hok⟩ := @exists_onStRepoChannels_initialSetup
    [channel 0 0, channel 1 4] (by decide) 1024
  refine ⟨asic', hok, fun hdelivers => ?_⟩
  exact absurd (sharePorts_of_delivers ((onStRepoChannels_ok hok).groups (by decide)) hdelivers) (by decide)

end Neighbours

end AsicDriver

end Mpitofino
