import Mpitofino.Dataplane.Headers
import Mpitofino.Library.Tcam
import Mathlib.Data.Fin.VecNotation

/-!
# The state of the ASIC

The match-action tables the control plane programs, the registers of the aggregation units and of the
state bitmaps, and the packet replication engine. Tables in asymmetric mode and the registers exist
once per pipe; `choose_action`, the switching table and the replication engine are shared.
-/

namespace Mpitofino

abbrev PipeId := Fin 4

instance neZero_pipes : NeZero 4 := ⟨by decide⟩

/-- The pipe a port belongs to. -/
def pipeOf (port : PortId) : PipeId := ⟨port.toNat / 128, by omega⟩

structure UnitSelectorKey where
  srcAddr : Ternary 32
  dstAddr : IPv4Addr
  dstQp : Ternary 24
  ingressPort : Ternary 9
  deriving DecidableEq

structure SelectAggUnit where
  aggUnit : BitVec 16
  nodeBitmapLow : BitVec 32
  nodeBitmapHigh : BitVec 32
  deriving DecidableEq

structure UnitSelectorQuery where
  srcAddr : IPv4Addr
  dstAddr : IPv4Addr
  dstQp : IbQp
  ingressPort : PortId

def UnitSelectorKey.Hits (k : UnitSelectorKey) (q : UnitSelectorQuery) : Prop :=
  k.srcAddr.Matches q.srcAddr ∧ k.dstAddr = q.dstAddr ∧ k.dstQp.Matches q.dstQp ∧
    k.ingressPort.Matches q.ingressPort

instance (k : UnitSelectorKey) (q : UnitSelectorQuery) : Decidable (k.Hits q) :=
  inferInstanceAs (Decidable (_ ∧ _ ∧ _ ∧ _))

structure CheckCompleteKey where
  aggUnit : BitVec 8
  nodeBitmapLow : Ternary 32
  nodeBitmapHigh : Ternary 32
  aggIsClear : Bool
  deriving DecidableEq

inductive CheckCompleteAction where
  | checkCompleteTrue (recircPort : PortId)
  | checkCompleteNextPipe (port : PortId)
  | checkCompleteDistribute (mcastGrp : BitVec 16)
  deriving DecidableEq

structure CheckCompleteQuery where
  aggUnit : BitVec 8
  nodeBitmap : NodeBitmap
  aggIsClear : Bool

def CheckCompleteKey.Hits (k : CheckCompleteKey) (q : CheckCompleteQuery) : Prop :=
  k.aggUnit = q.aggUnit ∧ k.nodeBitmapLow.Matches q.nodeBitmap.low ∧
    k.nodeBitmapHigh.Matches q.nodeBitmap.high ∧ k.aggIsClear = q.aggIsClear

instance (k : CheckCompleteKey) (q : CheckCompleteQuery) : Decidable (k.Hits q) :=
  inferInstanceAs (Decidable (_ ∧ _ ∧ _ ∧ _))

structure ChooseActionKey where
  aggUnit : BitVec 8
  aggIsClear : Bool
  deriving DecidableEq

inductive ChooseAction where
  | aggInt32Add
  | aggInt32Clear
  deriving DecidableEq

structure OutputAddressKey where
  aggUnit : BitVec 16
  egressRid : BitVec 16
  deriving DecidableEq

structure OutputAddressSet where
  srcMac : MacAddr
  dstMac : MacAddr
  srcIp : IPv4Addr
  dstIp : IPv4Addr
  dstQp : IbQp
  deriving DecidableEq

structure RoceAckReflectorKey where
  srcAddr : IPv4Addr
  dstQp : IbQp
  deriving DecidableEq

inductive SwitchingAction where
  | send (port : PortId)
  | flood
  | bcast
  | drop
  | collective
  deriving DecidableEq

structure PreNode where
  rid : BitVec 16
  devPort : List PortId
  deriving DecidableEq

/-- One member of a multicast group: a node, and whether and with which exclusion id it is pruned. -/
structure PreMember where
  nodeId : Nat
  l1XidValid : Bool
  l1Xid : Nat
  deriving DecidableEq

structure PipeTables where
  unitSelector : FinTable UnitSelectorKey SelectAggUnit
  checkComplete : FinTable CheckCompleteKey CheckCompleteAction
  outputAddress : FinTable OutputAddressKey OutputAddressSet
  roceAckReflector : FinTable RoceAckReflectorKey IbQp

/-- `value_pair_t`. -/
structure ValuePair where
  low : Value
  high : Value
  deriving DecidableEq

/-- The registers of one pipe: `values` of each of the 32 aggregation units, and the state
bitmaps. -/
structure Registers where
  values : Fin 32 → BitVec 14 → ValuePair
  stateBitmapsLow : BitVec 14 → BitVec 32
  stateBitmapsHigh : BitVec 14 → BitVec 32

/-- The registers as they are after the program was loaded. -/
def Registers.zero : Registers where
  values _ _ := ⟨0, 0⟩
  stateBitmapsLow _ := 0
  stateBitmapsHigh _ := 0

structure Asic where
  pipes : PipeId → PipeTables
  chooseAction : Fin 32 → FinTable ChooseActionKey ChooseAction
  switchingTable : FinTable MacAddr SwitchingAction
  preNode : FinTable Nat PreNode
  preMgid : FinTable (BitVec 16) (List PreMember)
  regs : PipeId → Registers

end Mpitofino
