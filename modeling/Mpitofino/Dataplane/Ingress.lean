import Mpitofino.Dataplane.Icrc
import Mpitofino.Dataplane.Tables

/-!
# The ingress pipeline

`IngressParser`, `AggregationUnit`, `Collectives` and `Ingress`, one definition per parser, table and
control. A pass takes a packet through one pipe: it reads the tables of that pipe and its registers,
and leaves new registers, the rewritten packet and the traffic manager's instructions.

The digest of the Ethernet switch is left out: it does not influence where a packet goes.
-/

namespace Mpitofino

structure IngressMetadata where
  cpoffload : Option (BitVec 16)
  ingressPort : PortId
  isColl : Bool
  aggUnit : BitVec 16
  nodeBitmap : NodeBitmap
  aggHaveUnit : Bool
  aggIsClear : Bool
  bridgeHeader : BridgeHeader

/-- The last header `IngressParser` extracts. All headers before it are valid; `recircFanout` stands
alone. -/
inductive Extracted where
  | ethernet
  | ipv4
  | udp
  | roce
  | aggregate
  | recircFanout
  deriving DecidableEq

namespace IngressParser

def parseRoce (f : Frame) : Extracted :=
  if f.udp.length = 28 then .roce
  else if f.udp.length = 280 then .aggregate
  else .roce

def parseUdp (f : Frame) : Extracted := if f.udp.dstPort = 4791 then parseRoce f else .udp

def parseIpv4 (f : Frame) : Extracted :=
  if f.ipv4.protocol = Ipv4Protocol.udp then parseUdp f else .ipv4

def parseEthernet (f : Frame) : Extracted :=
  if f.ethernet.etherType = EtherType.ipv4 then parseIpv4 f else .ethernet

/-- The `select` on the ingress port in `meta_init`. -/
def start (port : PortId) (f : Frame) : Extracted :=
  if port = 64 then parseEthernet f
  else if port &&& 0x180 = 128 then .recircFanout
  else if port &&& 0x180 = 256 then .recircFanout
  else parseEthernet f

/-- The ports on which `parse_aggregate` goes on to `parse_aggregate_recirculated`. -/
def isRecirculationPort (port : PortId) : Bool :=
  port = 68 || port = 196 || port = 324 || port = 452

/-- The metadata `IngressParser` sets up. -/
def metadata (port : PortId) (f : Frame) : IngressMetadata where
  cpoffload := if port = 64 then some f.cpoffload else none
  ingressPort := port
  isColl := false
  aggUnit := 65535
  nodeBitmap := ⟨0, 0⟩
  aggHaveUnit := false
  aggIsClear := start port f = .aggregate && isRecirculationPort port
  bridgeHeader := ⟨65535, 0, false⟩

end IngressParser

/-- What the controls of the ingress pipeline read and write. -/
structure IngressState where
  extracted : Extracted
  hdr : Frame
  md : IngressMetadata
  regs : Registers
  dropCtl : Bool
  ucastEgressPort : Option PortId
  mcastGrpA : Option (BitVec 16)
  bypassEgress : Bool

/-- The lookups in tables with ternary keys. -/
structure Matcher where
  unitSelector : Tcam UnitSelectorKey.Hits SelectAggUnit
  checkComplete : Tcam CheckCompleteKey.Hits CheckCompleteAction

/-- The matcher that answers with the first entry. -/
def Matcher.first : Matcher := ⟨Tcam.first _ _, Tcam.first _ _⟩

namespace AggregationUnit

/-- `values` after `value_int_32_add` at an index, and the new low value. -/
def valueInt32Add (values : BitVec 14 → ValuePair) (i : BitVec 14) (a b : Value) :
    (BitVec 14 → ValuePair) × Value :=
  (Function.update values i ⟨(values i).low + a, (values i).high + b⟩, (values i).low + a)

/-- `values` after `value_int_32_clear` at an index, and the old high value. -/
def valueInt32Clear (values : BitVec 14 → ValuePair) (i : BitVec 14) :
    (BitVec 14 → ValuePair) × Value :=
  (Function.update values i ⟨0, 0⟩, (values i).high)

def apply (chooseAction : FinTable ChooseActionKey ChooseAction) (md : IngressMetadata)
    (values : BitVec 14 → ValuePair) (a b : Value) : (BitVec 14 → ValuePair) × Value × Value :=
  match chooseAction.lookup ⟨md.aggUnit.extractLsb' 8 8, md.aggIsClear⟩ with
  | some .aggInt32Add =>
      let (values', a') := valueInt32Add values (md.aggUnit.setWidth 14) a b
      (values', a', b)
  | some .aggInt32Clear =>
      let (values', b') := valueInt32Clear values (md.aggUnit.setWidth 14)
      (values', a, b')
  | none => (values, a, b)

end AggregationUnit

namespace Collectives

variable (m : Matcher) (asic : Asic) (pipe : PipeId)

def unitSelectorQuery (hdr : Frame) (port : PortId) : UnitSelectorQuery :=
  ⟨hdr.ipv4.srcAddr, hdr.ipv4.dstAddr, hdr.roce.dstQp, port⟩

/-- The register index of a unit and a packet number, `agg_unit[7:0] ++ psn[7:0]`. -/
def unitIndex (aggUnit : BitVec 16) (psn : IbPsn) : BitVec 16 :=
  aggUnit.extractLsb' 0 8 ++ psn.extractLsb' 0 8

def selectAggUnit (d : SelectAggUnit) (s : IngressState) : IngressState :=
  { s with
    dropCtl := true
    md := { s.md with
      aggHaveUnit := true
      aggUnit := unitIndex d.aggUnit s.hdr.roce.psn
      bridgeHeader := { s.md.bridgeHeader with aggUnit := d.aggUnit }
      nodeBitmap := ⟨d.nodeBitmapLow, d.nodeBitmapHigh⟩ } }

def unitSelector (s : IngressState) : IngressState :=
  match m.unitSelector.pick (asic.pipes pipe).unitSelector
      (unitSelectorQuery s.hdr s.md.ingressPort) with
  | some d => selectAggUnit d s
  | none => s

def tblUpdateBitmapLow (s : IngressState) : IngressState :=
  let i := s.md.aggUnit.setWidth 14
  match s.md.aggHaveUnit, s.md.aggIsClear with
  | true, false =>
      let bitmap := s.regs.stateBitmapsLow i ||| s.md.nodeBitmap.low
      { s with
        regs := { s.regs with stateBitmapsLow := Function.update s.regs.stateBitmapsLow i bitmap }
        md := { s.md with nodeBitmap := { s.md.nodeBitmap with low := bitmap } } }
  | true, true =>
      { s with
        regs := { s.regs with stateBitmapsLow := Function.update s.regs.stateBitmapsLow i 0 } }
  | false, _ => s

def tblUpdateBitmapHigh (s : IngressState) : IngressState :=
  let i := s.md.aggUnit.setWidth 14
  match s.md.aggHaveUnit, s.md.aggIsClear with
  | true, false =>
      let bitmap := s.regs.stateBitmapsHigh i ||| s.md.nodeBitmap.high
      { s with
        regs := { s.regs with stateBitmapsHigh := Function.update s.regs.stateBitmapsHigh i bitmap }
        md := { s.md with nodeBitmap := { s.md.nodeBitmap with high := bitmap } } }
  | true, true =>
      { s with
        regs := { s.regs with stateBitmapsHigh := Function.update s.regs.stateBitmapsHigh i 0 } }
  | false, _ => s

def checkCompleteQuery (md : IngressMetadata) : CheckCompleteQuery :=
  ⟨md.aggUnit.extractLsb' 8 8, md.nodeBitmap, md.aggIsClear⟩

def checkComplete (s : IngressState) : IngressState :=
  match m.checkComplete.pick (asic.pipes pipe).checkComplete (checkCompleteQuery s.md) with
  | some (.checkCompleteTrue recircPort) =>
      { s with dropCtl := false, ucastEgressPort := some recircPort, bypassEgress := true }
  | some (.checkCompleteNextPipe port) =>
      { s with dropCtl := false, ucastEgressPort := some port, bypassEgress := true }
  | some (.checkCompleteDistribute mcastGrp) =>
      { s with dropCtl := false, mcastGrpA := some mcastGrp }
  | none => s

def wordA (j : Fin 32) : Fin 64 := ⟨2 * j.val, by omega⟩
def wordB (j : Fin 32) : Fin 64 := ⟨2 * j.val + 1, by omega⟩

/-- The unit a word goes through. -/
def unitOf (w : Fin 64) : Fin 32 := ⟨w.val / 2, by omega⟩

/-- `agg00` .. `agg31`; unit `j` is applied to the words `2 * j` and `2 * j + 1`. -/
def aggregationUnits (s : IngressState) : IngressState :=
  let unit (j : Fin 32) := AggregationUnit.apply (asic.chooseAction j) s.md (s.regs.values j)
    (s.hdr.aggregate (wordA j)) (s.hdr.aggregate (wordB j))
  { s with
    regs := { s.regs with values := fun j => (unit j).1 }
    hdr := { s.hdr with
      aggregate := fun w => if w.val % 2 = 0 then (unit (unitOf w)).2.1 else (unit (unitOf w)).2.2 } }

def apply (s : IngressState) : IngressState :=
  aggregationUnits asic (checkComplete m asic pipe (tblUpdateBitmapHigh (tblUpdateBitmapLow
    (unitSelector m asic pipe s))))

end Collectives

/-- Broadcast groups. -/
def mcastFlood : BitVec 16 := 1
def mcastBcast : BitVec 16 := 2

namespace Ingress

variable (m : Matcher) (asic : Asic) (pipe : PipeId)

/-- `adapt_recirc_fanout_port`. -/
def adaptRecircFanoutPort (port : PortId) : Option PortId :=
  if port &&& 0x180 = 128 then some (port &&& 0x7f)
  else if port &&& 0x180 = 256 then some (port ||| 0x80)
  else none

/-- The branch for a packet that comes back with its ICRC in front of it. -/
def recircFanout (s : IngressState) : IngressState :=
  { s with
    ucastEgressPort := (adaptRecircFanoutPort s.md.ingressPort).or s.ucastEgressPort
    hdr := { s.hdr with icrc := s.hdr.recircFanout.getD s.hdr.icrc, recircFanout := none }
    bypassEgress := true
    dropCtl := false }

def switchingTable (s : IngressState) : IngressState :=
  match (asic.switchingTable.lookup s.hdr.ethernet.dstAddr).getD .flood with
  | .send port => { s with ucastEgressPort := some port }
  | .flood => { s with mcastGrpA := some mcastFlood }
  | .bcast => { s with mcastGrpA := some mcastBcast }
  | .drop => { s with dropCtl := true }
  | .collective => { s with md := { s.md with isColl := true } }

def roceAckReflect (dstQp : IbQp) (s : IngressState) : IngressState :=
  { s with
    hdr := { s.hdr with
      ethernet := { s.hdr.ethernet with
        srcAddr := s.hdr.ethernet.dstAddr, dstAddr := s.hdr.ethernet.srcAddr }
      ipv4 := { s.hdr.ipv4 with srcAddr := s.hdr.ipv4.dstAddr, dstAddr := s.hdr.ipv4.srcAddr }
      udp := { s.hdr.udp with srcPort := 4791 }
      roce := { s.hdr.roce with dstQp := dstQp } }
    ucastEgressPort := some s.md.ingressPort
    md := { s.md with bridgeHeader := { s.md.bridgeHeader with isRoceAck := true } } }

def roceAckReflector (s : IngressState) : IngressState :=
  match (asic.pipes pipe).roceAckReflector.lookup ⟨s.hdr.ipv4.srcAddr, s.hdr.roce.dstQp⟩ with
  | some dstQp => roceAckReflect dstQp s
  | none => s

/-- The branch behind the Ethernet switch. -/
def afterSwitching (s : IngressState) : IngressState :=
  if s.extracted = .aggregate then
    if s.md.aggHaveUnit then
      { s with md := { s.md with
        bridgeHeader := { s.md.bridgeHeader with icrc := ingressIcrc s.hdr.aggregate } } }
    else s
  else if s.md.isColl && s.extracted = .roce && s.hdr.roce.opcode = 17 then
    roceAckReflector asic pipe s
  else if s.md.isColl then { s with ucastEgressPort := some 64 }
  else s

/-- The part of `Ingress` behind the collectives unit. -/
def forward (s : IngressState) : IngressState :=
  match s.md.cpoffload with
  | some portId =>
      if portId ≠ 65535 then
        { s with ucastEgressPort := some (portId.setWidth 9), dropCtl := false }
      else afterSwitching asic pipe (switchingTable asic s)
  | none =>
      if s.extracted = .recircFanout then s
      else afterSwitching asic pipe (switchingTable asic s)

def initial (port : PortId) (f : Frame) : IngressState where
  extracted := IngressParser.start port f
  hdr := f
  md := IngressParser.metadata port f
  regs := asic.regs pipe
  dropCtl := false
  ucastEgressPort := none
  mcastGrpA := none
  bypassEgress := false

def apply (port : PortId) (f : Frame) : IngressState :=
  let s := initial asic pipe port f
  forward asic pipe
    (if s.extracted = .aggregate then Collectives.apply m asic pipe s
     else if s.extracted = .recircFanout then recircFanout s
     else s)

end Ingress

end Mpitofino
