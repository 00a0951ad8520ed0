import Mpitofino.Control.Installation

/-!
# Entries for the whole device

For a participant of an inner pipe `on_st_repo_channels` adds the output address with the target of the
whole device, though the table has its entries by pipe. What bfrt makes of that is not in the
repository: it refuses the entry, or adds it to every pipe. The callback of the other modules is the one
where it refuses.
-/

namespace Mpitofino

/-- What becomes of an entry for the whole device in a table that has its entries by pipe. -/
inductive WholeDevice where
  | refused
  | everyPipe

namespace WholeDevice

/-- An output address for a pipe, or for the whole device. -/
def putOutputAddress (w : WholeDevice) (asic : Asic) (k : OutputAddressKey) (d : OutputAddressSet) :
    Option PipeId → Except String Asic
  | some pipe => .ok (asic.putOutputAddress pipe k d)
  | none =>
      match w with
      | .refused => .error "Failed to update CollectivesDistributor.output_address table"
      | .everyPipe => .ok { asic with
          pipes := fun pipe =>
            { asic.pipes pipe with outputAddress := (asic.pipes pipe).outputAddress.put k d } }

end WholeDevice

namespace AsicDriver

variable (w : WholeDevice)

def insertParticipantOn (rc : CollectiveChannel) (s : Insertion) (part : Participant) :
    Except String Insertion :=
  let pipe := pipeOf part.switchPort
  if (s.bitmaps.full pipe).high ≥ bitmapLimit pipe then .error "Too many clients per pipe"
  else do
    let asic ← w.putOutputAddress (s.asic.putUnitSelector pipe (participantKey rc part)
      (selectData rc (s.bitmaps.node pipe))) ⟨rc.aggUnit, BitVec.ofNat 16 s.pos⟩ (outputAddress rc part)
      (recircPipe pipe)
    return {
      asic := asic.putRoceAckReflector pipe ⟨part.ip, part.fabricQp⟩ part.localQp
      bitmaps := s.bitmaps.update pipe
      pos := s.pos + 1 }

def installChannelOn (asic : Asic) (rc : CollectiveChannel) : Except String Asic := do
  let s ← rc.members.foldlM (insertParticipantOn w rc)
    { asic := installMulticast rc asic, bitmaps := WorkerBitmaps.initial, pos := 1 }
  let connected := haveConnectedPipes s.bitmaps.full
  let (asic, bitmaps) := connectPipes rc s.asic s.bitmaps
  let aggUnit ← aggUnitKey rc.aggUnit
  let asic := (List.finRange 4).foldl (installCompletion rc connected bitmaps.full aggUnit) asic
  return installChooseAction aggUnit asic

def onStRepoChannelsOn (channels : List CollectiveChannel) (asic : Asic) : Except String Asic := do
  let installed ← (knownChannels channels).foldlM (installChannelOn w) asic
  (aggUnitsToClear channels installed).foldlM clearUnit (cleanTables channels installed)

variable {w} {rc : CollectiveChannel} {s : Insertion} {part : Participant}

theorem insertParticipantOn_refused :
    insertParticipantOn .refused rc s part = insertParticipant rc s part := by
  rw [insertParticipantOn, insertParticipant]
  cases recircPipe (pipeOf part.switchPort) <;> rfl

theorem insertParticipantOn_outer
    (hport : pipeOf part.switchPort = 0 ∨ pipeOf part.switchPort = 3) :
    insertParticipantOn w rc s part = insertParticipant rc s part := by
  obtain ⟨recirc, hrecirc⟩ : ∃ recirc, recircPipe (pipeOf part.switchPort) = some recirc := by
    rcases hport with h | h <;> rw [h] <;> exact ⟨_, rfl⟩
  rw [insertParticipantOn, insertParticipant, hrecirc]
  rfl

theorem onStRepoChannelsOn_refused (channels : List CollectiveChannel) (asic : Asic) :
    onStRepoChannelsOn .refused channels asic = onStRepoChannels channels asic := by
  have hinsert : ∀ rc, insertParticipantOn .refused rc = insertParticipant rc := fun rc =>
    funext fun s => funext fun part => insertParticipantOn_refused
  have hinstall : installChannelOn .refused = installChannel := by
    funext asic rc
    rw [installChannelOn, hinsert, installChannel]
  rw [onStRepoChannelsOn, hinstall, onStRepoChannels]

/-- Where all participants are on outer pipes, it does not matter. -/
theorem onStRepoChannelsOn_outer {channels : List CollectiveChannel} (asic : Asic)
    (hports : ∀ rc ∈ knownChannels channels, ∀ part ∈ rc.members,
      pipeOf part.switchPort = 0 ∨ pipeOf part.switchPort = 3) :
    onStRepoChannelsOn w channels asic = onStRepoChannels channels asic := by
  have hinstall : ∀ asic, ∀ rc ∈ knownChannels channels,
      installChannelOn w asic rc = installChannel asic rc := by
    intro asic rc hrc
    rw [installChannelOn, installChannel, Fallible.foldlM_congr fun s part hpart =>
      insertParticipantOn_outer (hports rc hrc part hpart)]
  rw [onStRepoChannelsOn, onStRepoChannels, Fallible.foldlM_congr hinstall]

end AsicDriver

end Mpitofino
