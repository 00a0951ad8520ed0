import Mpitofino.Control.StateRepository
import Mpitofino.Control.WorkerBitmap
import Mpitofino.Dataplane.Ingress

/-!
# The ASIC driver

`initial_setup` and the callback `on_st_repo_channels`, which brings the tables in line with the
repository: it adds or modifies the entries of every channel whose participants are all known, then
deletes what belongs to no such channel. An exception of the source is the error of an `Except`, with
the text of the source. bfrt refuses a value that is wider than its key field, a register index beyond
the register, and a device-wide target for a table with an entry scope of one pipe.
-/

namespace Mpitofino

/-! ### Writes of single entries -/

namespace Asic

def onPipe (asic : Asic) (pipe : PipeId) (f : PipeTables → PipeTables) : Asic :=
  { asic with pipes := Function.update asic.pipes pipe (f (asic.pipes pipe)) }

def putUnitSelector (asic : Asic) (pipe : PipeId) (k : UnitSelectorKey) (d : SelectAggUnit) : Asic :=
  asic.onPipe pipe fun t => { t with unitSelector := t.unitSelector.put k d }

def putCheckComplete (asic : Asic) (pipe : PipeId) (k : CheckCompleteKey) (a : CheckCompleteAction) :
    Asic :=
  asic.onPipe pipe fun t => { t with checkComplete := t.checkComplete.put k a }

def putOutputAddress (asic : Asic) (pipe : PipeId) (k : OutputAddressKey) (d : OutputAddressSet) :
    Asic :=
  asic.onPipe pipe fun t => { t with outputAddress := t.outputAddress.put k d }

def putRoceAckReflector (asic : Asic) (pipe : PipeId) (k : RoceAckReflectorKey) (dstQp : IbQp) :
    Asic :=
  asic.onPipe pipe fun t => { t with roceAckReflector := t.roceAckReflector.put k dstQp }

end Asic

namespace AsicDriver

/-! ### Initial setup -/

/-- 16 ports per pipe, on the pipes 0 and 3. -/
def frontPanelPorts : List PortId :=
  [0, 3].flatMap fun i => (List.range 16).map fun j => BitVec.ofNat 9 (i * 128 + j * 4)

def floodNodes : List (Nat × PreNode) := frontPanelPorts.map fun p => (p.toNat, ⟨1, [p]⟩)

def bcastPorts : List PortId := frontPanelPorts ++ [64]

def bcastNodes : List (Nat × PreNode) := bcastPorts.map fun p => (p.toNat ||| 0x200, ⟨1, [p]⟩)

/-- The nodes and the groups for broadcasts. -/
def basicNodes : FinTable Nat PreNode := FinTable.empty.putAll (floodNodes ++ bcastNodes)

def basicGroups : FinTable (BitVec 16) (List PreMember) := FinTable.empty.putAll
  [(mcastFlood, frontPanelPorts.map fun p => ⟨p.toNat, true, p.toNat⟩),
    (mcastBcast, bcastPorts.map fun p => ⟨p.toNat ||| 0x200, true, p.toNat⟩)]

def initialSetup (collectivesMac : MacAddr) : Asic where
  pipes _ := ⟨FinTable.empty, FinTable.empty, FinTable.empty, FinTable.empty⟩
  chooseAction _ := FinTable.empty
  switchingTable := FinTable.empty.putAll [(0xffffffffffff, .bcast), (collectivesMac, .collective)]
  preNode := basicNodes
  preMgid := basicGroups
  regs _ := Registers.zero

/-! ### Installing a channel -/

/-- The switch port translated for recirculation. -/
def fanoutPort (port : PortId) : Option PortId :=
  if port &&& 0x180 = 0 then some (port + 128)
  else if port &&& 0x180 = 384 then some (port - 128)
  else none

def multicastNodeId (aggUnit : BitVec 16) (pos : Nat) : Nat :=
  0x1000 + 0x200 * (aggUnit.toNat / 8) + (pos - 1)

def mcastGroup (aggUnit : BitVec 16) : BitVec 16 := 0x10 + aggUnit

/-- `group_ports`: node id, port and replication id. -/
def groupPorts (aggUnit : BitVec 16) : List Participant → Nat → List (Nat × PortId × Nat)
  | [], _ => []
  | part :: parts, pos =>
      match fanoutPort part.switchPort with
      | some port => (multicastNodeId aggUnit pos, port, pos) :: groupPorts aggUnit parts (pos + 1)
      | none => groupPorts aggUnit parts pos

def preNodeEntry (g : Nat × PortId × Nat) : Nat × PreNode := (g.1, ⟨BitVec.ofNat 16 g.2.2, [g.2.1]⟩)

def installMulticast (rc : CollectiveChannel) (asic : Asic) : Asic :=
  let ports := groupPorts rc.aggUnit rc.members 1
  { asic with
    preNode := asic.preNode.putAll (ports.map preNodeEntry)
    preMgid := asic.preMgid.put (mcastGroup rc.aggUnit) (ports.map fun g => ⟨g.1, false, 0⟩) }

def participantKey (rc : CollectiveChannel) (part : Participant) : UnitSelectorKey where
  srcAddr := Ternary.exact part.ip
  dstAddr := rc.fabricIp
  dstQp := ⟨part.fabricQp, 0xffffff⟩
  ingressPort := Ternary.any

/-- The key of packets from another pipe, or recirculated ones, by their port of pipe 3. -/
def interPipeKey (rc : CollectiveChannel) (port : PortId) : UnitSelectorKey where
  srcAddr := Ternary.any
  dstAddr := rc.fabricIp
  dstQp := ⟨rc.fabricQpCommon.setWidth 24 <<< 8, 0xffff00⟩
  ingressPort := ⟨port, 0x1ff⟩

def selectData (rc : CollectiveChannel) (b : NodeBitmap) : SelectAggUnit := ⟨rc.aggUnit, b.low, b.high⟩

def outputAddress (rc : CollectiveChannel) (part : Participant) : OutputAddressSet where
  srcMac := rc.fabricMac
  dstMac := part.mac
  srcIp := rc.fabricIp
  dstIp := part.ip
  dstQp := part.localQp

/-- `pipe_tgt_recirc`, where it is a single pipe. -/
def recircPipe (pipe : PipeId) : Option PipeId :=
  if pipe = 0 then some 1 else if pipe = 3 then some 2 else none

/-- The state of the loop over the participants. -/
structure Insertion where
  asic : Asic
  bitmaps : WorkerBitmaps
  pos : Nat

def bitmapLimit (pipe : PipeId) : BitVec 32 := if pipe = 3 then 0x1fffffff else 0xffffffff

def insertParticipant (rc : CollectiveChannel) (s : Insertion) (part : Participant) :
    Except String Insertion :=
  let pipe := pipeOf part.switchPort
  if (s.bitmaps.full pipe).high ≥ bitmapLimit pipe then .error "Too many clients per pipe"
  else
    match recircPipe pipe with
    | none => .error "Failed to update CollectivesDistributor.output_address table"
    | some recirc =>
        .ok {
          asic := ((s.asic.putUnitSelector pipe (participantKey rc part)
              (selectData rc (s.bitmaps.node pipe))).putOutputAddress recirc
              ⟨rc.aggUnit, BitVec.ofNat 16 s.pos⟩ (outputAddress rc part)).putRoceAckReflector pipe
              ⟨part.ip, part.fabricQp⟩ part.localQp
          bitmaps := s.bitmaps.update pipe
          pos := s.pos + 1 }

/-- `have_connected_pipes`. -/
def haveConnectedPipes (full : PipeId → NodeBitmap) : Bool :=
  decide (1 < ((List.finRange 4).filter fun pipe => (full pipe).low ≠ 0).length)

/-- Accept packets from another pipe on pipe 3. -/
def acceptPipe (rc : CollectiveChannel) (s : Asic × WorkerBitmaps) (pipe : PipeId) :
    Asic × WorkerBitmaps :=
  if (s.2.full pipe).low = 0 then s
  else (s.1.putUnitSelector 3 (interPipeKey rc (3 * 128 + 64)) (selectData rc (s.2.node 3)),
    s.2.update 3)

/-- The inter-pipe entries of a channel whose participants are on more than one pipe. -/
def connectPipes (rc : CollectiveChannel) (asic : Asic) (b : WorkerBitmaps) : Asic × WorkerBitmaps :=
  if haveConnectedPipes b.full then
    let s := [0, 1, 2].foldl (acceptPipe rc) (asic, b)
    (s.1.putUnitSelector 3 (interPipeKey rc (3 * 128 + 68)) (selectData rc (s.2.node 3)), s.2)
  else (asic, b)

def completeKey (aggUnit : BitVec 8) (full : NodeBitmap) : CheckCompleteKey :=
  ⟨aggUnit, Ternary.exact full.low, Ternary.exact full.high, false⟩

def clearKey (aggUnit : BitVec 8) : CheckCompleteKey := ⟨aggUnit, Ternary.any, Ternary.any, true⟩

def recircPort (pipe : PipeId) : PortId := BitVec.ofNat 9 (pipe.val * 128 + 68)

/-- What a clear pass of a pipe does: chain up to the rightmost pipe, or distribute. -/
def clearAction (connected : Bool) (rc : CollectiveChannel) (pipe : PipeId) : CheckCompleteAction :=
  if connected ∧ pipe ≠ 3 then .checkCompleteNextPipe (BitVec.ofNat 9 (3 * 128 + 64 + pipe.val * 4))
  else .checkCompleteDistribute (mcastGroup rc.aggUnit)

def installCompletion (rc : CollectiveChannel) (connected : Bool) (full : PipeId → NodeBitmap)
    (aggUnit : BitVec 8) (asic : Asic) (pipe : PipeId) : Asic :=
  if (full pipe).low = 0 then asic
  else (asic.putCheckComplete pipe (completeKey aggUnit (full pipe))
      (.checkCompleteTrue (recircPort pipe))).putCheckComplete pipe (clearKey aggUnit)
      (clearAction connected rc pipe)

def installChooseAction (aggUnit : BitVec 8) (asic : Asic) : Asic :=
  { asic with
    chooseAction := fun i => ((asic.chooseAction i).put ⟨aggUnit, false⟩ .aggInt32Add).put
      ⟨aggUnit, true⟩ .aggInt32Clear }

/-- A key field of 8 bits set to the aggregation unit. -/
def aggUnitKey (aggUnit : BitVec 16) : Except String (BitVec 8) :=
  if aggUnit.toNat < 256 then .ok (aggUnit.setWidth 8)
  else .error "Failed to set table key field value"

def installChannel (asic : Asic) (rc : CollectiveChannel) : Except String Asic := do
  let s ← rc.members.foldlM (insertParticipant rc)
    { asic := installMulticast rc asic, bitmaps := WorkerBitmaps.initial, pos := 1 }
  let connected := haveConnectedPipes s.bitmaps.full
  let (asic, bitmaps) := connectPipes rc s.asic s.bitmaps
  let aggUnit ← aggUnitKey rc.aggUnit
  let asic := (List.finRange 4).foldl (installCompletion rc connected bitmaps.full aggUnit) asic
  return installChooseAction aggUnit asic

/-! ### Deleting what is not in use -/

def knownChannels (channels : List CollectiveChannel) : List CollectiveChannel :=
  channels.filter CollectiveChannel.allNodesKnown

/-- Membership in `agg_units_in_use`. -/
def aggUnitInUse (channels : List CollectiveChannel) {w : Nat} (aggUnit : BitVec w) : Bool :=
  (knownChannels channels).any fun rc => rc.aggUnit.toNat = aggUnit.toNat

def mcastGroupInUse (channels : List CollectiveChannel) (mgid : BitVec 16) : Bool :=
  (knownChannels channels).any fun rc => mcastGroup rc.aggUnit = mgid

/-- Whether the ACK reflector keeps an address: a participant of any channel has it. -/
def keepRoceAck (channels : List CollectiveChannel) (k : RoceAckReflectorKey) : Bool :=
  channels.any fun rc => rc.members.any fun part => part.ip = k.srcAddr ∧ part.fabricQp = k.dstQp

def cleanSelectors (channels : List CollectiveChannel) (t : PipeTables) : PipeTables :=
  { t with
    unitSelector := t.unitSelector.filter fun _ d => aggUnitInUse channels d.aggUnit
    checkComplete := t.checkComplete.filter fun k _ => aggUnitInUse channels k.aggUnit
    roceAckReflector := t.roceAckReflector.filter fun k _ => keepRoceAck channels k }

def cleanOutput (channels : List CollectiveChannel) (t : PipeTables) : PipeTables :=
  { t with outputAddress := t.outputAddress.filter fun k _ => aggUnitInUse channels k.aggUnit }

/-- `agg_units_to_clear`. -/
def aggUnitsToClear (channels : List CollectiveChannel) (asic : Asic) : List (BitVec 16) :=
  [0, 3].flatMap fun pipe => ((asic.pipes pipe).unitSelector.entries.map fun e => e.2.aggUnit).filter
    fun aggUnit => !aggUnitInUse channels aggUnit

def cleanMulticast (channels : List CollectiveChannel) (asic : Asic) : Asic :=
  let mgid := asic.preMgid.filter fun g _ => g < 0x10 || mcastGroupInUse channels g
  let nodesInUse := mgid.entries.flatMap fun e => e.2.map PreMember.nodeId
  { asic with
    preMgid := mgid
    preNode := asic.preNode.filter fun nodeId _ => nodeId ∈ nodesInUse }

def cleanTables (channels : List CollectiveChannel) (asic : Asic) : Asic :=
  let asic := (((asic.onPipe 0 (cleanSelectors channels)).onPipe 1 (cleanOutput channels)).onPipe 3
    (cleanSelectors channels)).onPipe 2 (cleanOutput channels)
  cleanMulticast channels { asic with
    chooseAction := fun i => (asic.chooseAction i).filter fun k _ => aggUnitInUse channels k.aggUnit }

/-- Set the 256 cells of a unit to zero, in every register of every pipe. -/
def clearUnit (asic : Asic) (aggUnit : BitVec 16) : Except String Asic :=
  if aggUnit.toNat * 256 < 16384 then
    let zeroed {α : Type} (zero : α) (reg : BitVec 14 → α) : BitVec 14 → α := fun i =>
      if i.toNat / 256 = aggUnit.toNat then zero else reg i
    .ok { asic with
      regs := fun pipe => {
        values := fun j => zeroed ⟨0, 0⟩ ((asic.regs pipe).values j)
        stateBitmapsLow := zeroed 0 (asic.regs pipe).stateBitmapsLow
        stateBitmapsHigh := zeroed 0 (asic.regs pipe).stateBitmapsHigh } }
  else .error "Clear values register failed"

def onStRepoChannels (channels : List CollectiveChannel) (asic : Asic) : Except String Asic := do
  let installed ← (knownChannels channels).foldlM installChannel asic
  (aggUnitsToClear channels installed).foldlM clearUnit (cleanTables channels installed)

end AsicDriver

end Mpitofino
