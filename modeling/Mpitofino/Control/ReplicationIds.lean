import Mpitofino.Control.Multicast
import Mpitofino.Control.WholeDevice

/-!
# Replication ids and output addresses

The nodes of a multicast group are numbered in one loop and the output addresses in another. The first
one leaves out the participants of the inner pipes and does not count them, the second one counts all of
them.
-/

namespace Mpitofino

namespace AsicDriver

def OwnNode (asic : Asic) (rc : CollectiveChannel) (part : Participant) (m : PreMember) : Prop :=
  ∃ node port d, asic.preNode.lookup m.nodeId = some node ∧ node.devPort = [port] ∧
    Ingress.adaptRecircFanoutPort port = some part.switchPort ∧
    (asic.pipes (pipeOf port)).outputAddress.lookup ⟨rc.aggUnit, node.rid⟩ = some d ∧
    d.dstMac = part.mac ∧ d.dstIp = part.ip ∧ d.dstQp = part.localQp

/-- The group of the channel has a node of its own for every participant. -/
def RidsMatch (asic : Asic) (rc : CollectiveChannel) : Prop :=
  ∃ group, asic.preMgid.lookup (mcastGroup rc.aggUnit) = some group ∧
    List.Forall₂ (OwnNode asic rc) rc.members group

/-- Nothing is sent to a port of an inner pipe. -/
theorem pipeOf_adapt {port port' : PortId} (h : Ingress.adaptRecircFanoutPort port = some port') :
    pipeOf port' = 0 ∨ pipeOf port' = 3 := by
  have hall : ∀ port : PortId, (Ingress.adaptRecircFanoutPort port).all fun port' =>
      pipeOf port' = 0 ∨ pipeOf port' = 3 := by
    decide +kernel
  have hport := hall port
  rw [h] at hport
  exact of_decide_eq_true hport

theorem ports_of_ridsMatch {asic : Asic} {rc : CollectiveChannel} (h : RidsMatch asic rc) :
    ∀ part ∈ rc.members, pipeOf part.switchPort = 0 ∨ pipeOf part.switchPort = 3 := by
  obtain ⟨group, -, hnodes⟩ := h
  generalize rc.members = parts at hnodes
  induction hnodes with
  | nil => exact fun _ hpart => absurd hpart List.not_mem_nil
  | cons hnode _ ih =>
      refine List.forall_mem_cons.2 ⟨?_, ih⟩
      obtain ⟨-, port, -, -, -, hport, -⟩ := hnode
      exact pipeOf_adapt hport

theorem ridsMatch_of_groups {rc : CollectiveChannel} {asic : Asic} (h : Groups [rc] asic)
    (hknown : rc.allNodesKnown = true) : RidsMatch asic rc := by
  have hchannels : knownChannels [rc] = [rc] := List.filter_cons_of_pos hknown
  have hrc : rc ∈ knownChannels [rc] := by
    rw [hchannels]
    exact List.mem_singleton_self rc
  have hdistinct : (knownChannels [rc]).Pairwise fun rc rc' => rc.aggUnit ≠ rc'.aggUnit := by
    rw [hchannels]
    exact List.pairwise_singleton _ _
  refine ⟨_, h.group rc hrc, ?_⟩
  rw [groupPorts_eq (h.fits rc hrc).ports, List.map_map, List.forall₂_map_right_iff, forall₂_zipIdx]
  intro i part hi
  obtain ⟨rc', hrc', -, part', hpart', hnode⟩ := lookup_node h hrc hi
  rw [hchannels] at hrc'
  obtain rfl := List.mem_singleton.1 hrc'
  obtain rfl := Option.some.inj (hi.symm.trans hpart')
  obtain ⟨fanout, hfanout, hadapt, hrecirc⟩ :=
    adapt_fanoutPort _ ((h.fits rc' hrc).ports part (List.mem_of_getElem? hi))
  rw [hfanout, Option.getD_some] at hnode
  rw [Nat.add_comm]
  exact ⟨_, fanout, outputAddress rc' part, hnode, rfl, hadapt,
    lookup_outputAddress h hdistinct hrc hi hrecirc, rfl, rfl, rfl⟩

/-- **Replication ids.** When the callback has programmed a channel that is alone, its nodes have the
replication ids of the addresses of its participants if and only if none of them is on an inner pipe. -/
theorem ridsMatch_iff (w : WholeDevice) (rc : CollectiveChannel) (asic asic' : Asic)
    (hknown : rc.allNodesKnown = true) (hok : onStRepoChannelsOn w [rc] asic = .ok asic') :
    RidsMatch asic' rc ↔
      ∀ part ∈ rc.members, pipeOf part.switchPort = 0 ∨ pipeOf part.switchPort = 3 := by
  have hchannels : knownChannels [rc] = [rc] := List.filter_cons_of_pos hknown
  refine ⟨ports_of_ridsMatch, fun hports => ?_⟩
  rw [onStRepoChannelsOn_outer] at hok
  · refine ridsMatch_of_groups ((onStRepoChannels_ok hok).groups ?_) hknown
    rw [hchannels]
    exact List.pairwise_singleton _ _
  · rw [hchannels]
    intro rc' hrc'
    rwa [List.mem_singleton.1 hrc']

namespace InnerPipe

def channel (first second : PortId) : CollectiveChannel where
  tag := 0
  fabricIp := 1
  fabricQpCommon := 1
  fabricMac := 1024
  aggUnit := 0
  participants := (OrderedMap.empty.insert 7 ⟨7, 10, 5, 0x100, 6, first⟩).insert 8
    ⟨8, 11, 5, 0x100, 6, second⟩

theorem outer_ridsMatch : ∃ asic',
    onStRepoChannelsOn .everyPipe [channel 0 4] (initialSetup 1024) = .ok asic' ∧
      RidsMatch asic' (channel 0 4) := by
  obtain ⟨asic', hok⟩ := @exists_onStRepoChannels_initialSetup [channel 0 4] (by decide) 1024
  rw [← onStRepoChannelsOn_outer (w := .everyPipe) _ (by decide)] at hok
  exact ⟨asic', hok, (ridsMatch_iff .everyPipe _ _ asic' rfl hok).2 (by decide)⟩

/-- What a result for the second participant is sent with: the port it leaves on, the replication id,
and the address that is installed for it. -/
def replica (asic : Asic) : Option (PortId × BitVec 16 × Option IPv4Addr) :=
  (asic.preNode.lookup (multicastNodeId 0 1)).map fun node =>
    (node.devPort.headD 0, node.rid, ((asic.pipes 1).outputAddress.lookup ⟨0, node.rid⟩).map (·.dstIp))

/-- The first participant is at the port 128. It has no node, and the second one's results have its
address. -/
theorem inner_not_ridsMatch : ∃ asic',
    onStRepoChannelsOn .everyPipe [channel 128 4] (initialSetup 1024) = .ok asic' ∧
      asic'.preMgid.lookup (mcastGroup 0) = some [⟨multicastNodeId 0 1, false, 0⟩] ∧
      replica asic' = some (132, 1, some 10) ∧ ¬ RidsMatch asic' (channel 128 4) := by
  cases hok : onStRepoChannelsOn .everyPipe [channel 128 4] (initialSetup 1024) with
  | error message =>
      have hisOk : (onStRepoChannelsOn .everyPipe [channel 128 4] (initialSetup 1024)).isOk = true := by
        decide +kernel
      rw [hok] at hisOk
      contradiction
  | ok asic' =>
      have hgroup : ((onStRepoChannelsOn .everyPipe [channel 128 4] (initialSetup 1024)).toOption.map
          fun asic => asic.preMgid.lookup (mcastGroup 0)) =
            some (some [⟨multicastNodeId 0 1, false, 0⟩]) := by
        decide +kernel
      have hreplica : ((onStRepoChannelsOn .everyPipe [channel 128 4] (initialSetup 1024)).toOption.map
          replica) = some (some (132, 1, some 10)) := by
        decide +kernel
      rw [hok] at hgroup hreplica
      refine ⟨asic', rfl, Option.some.inj hgroup, Option.some.inj hreplica, fun hmatch => ?_⟩
      exact absurd (ports_of_ridsMatch hmatch) (by decide)

end InnerPipe

end AsicDriver

end Mpitofino
