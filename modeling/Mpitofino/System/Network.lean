import Mpitofino.Control.Multicast
import Mpitofino.System.Order

/-!
# The network around the switch

Each participant has a link to the switch and one back. A result that the switch distributes is copied
for each participant; the copies go through the fan-out ports of the inner pipes and leave on the front
panel. Links and ports keep the order of packets, and links may lose some.
-/

namespace Mpitofino

open AsicDriver

/-- A copy of a result at a fan-out port. -/
structure Copy where
  receiver : Participant
  port : PortId
  frame : Frame
  seq : Nat

/-- A packet that leaves the switch. -/
structure Delivery where
  port : PortId
  frame : Frame
  seq : Nat

/-- The switch, the copies at its fan-out ports, and for each participant the packets it sent and those
of them on the link, the packets on the link back and those it received. -/
structure Network where
  traffic : Traffic
  copies : List Copy
  packets : Participant → List Frame
  uplink : Participant → List (Frame × Nat)
  downlink : Participant → List Delivery
  received : Participant → List Delivery

inductive NetworkEvent where
  | send (p : Participant) (f : Frame)
  | arrive (p : Participant)
  | internal (k : Nat)
  | fanOut (k : Nat)
  | receive (p : Participant)
  | loseUp (p : Participant) (k : Nat)
  | loseDown (p : Participant) (k : Nat)

/-- What the replication engine and the egress pipes make of a result for the participants: the copies that
leave at the port of the participant of their position, with its address. -/
def copiesOf (asic : Asic) (rc : CollectiveChannel) (r : Result) : List Copy :=
  ((rc.members.zip (asic.replicas r.mcastGrp 0)).filter fun x => decide (Reaches asic rc x.1 x.2)).map fun x =>
    ⟨x.1, x.2.1, Egress.apply (asic.pipes (pipeOf x.2.1)) r.bridgeHeader x.2.2 r.hdr, r.seq⟩

/-- The ingress pass of a copy, with what leaves the switch. -/
def Switch.fanOut (m : Matcher) (asic : Asic) (c : Copy) (sw : Switch) : Switch × List Delivery :=
  let s := Ingress.apply m { asic with regs := sw.regs } (pipeOf c.port) c.port c.frame
  ({ sw with regs := Function.update sw.regs (pipeOf c.port) s.regs },
    match s.dropCtl, s.ucastEgressPort with
    | false, some port => [⟨port, s.hdr, c.seq⟩]
    | _, _ => [])

namespace Network

def start : Network :=
  ⟨Traffic.start, [], fun _ => [], fun _ => [], fun _ => [], fun _ => []⟩

section Steps

variable (m : Matcher) (asic : Asic) (rc : CollectiveChannel)

inductive Step (n : Network) : NetworkEvent → Network → Prop where
  | send {p : Participant} {f : Frame} (hp : p ∈ rc.members)
      (hf : SentBy rc p (n.packets p).length f) :
      Step n (.send p f)
        { n with
          packets := Function.update n.packets p (n.packets p ++ [f])
          uplink := Function.update n.uplink p (n.uplink p ++ [(f, (n.packets p).length)]) }
  | arrive {p : Participant} {f : Frame} {seq : Nat} {rest : List (Frame × Nat)}
      (huplink : n.uplink p = (f, seq) :: rest) :
      Step n (.arrive p)
        { n with
          traffic := ⟨n.traffic.switch.process m asic ⟨p.switchPort, f, seq⟩,
            Traffic.sentWith n.traffic.sent p seq f⟩
          uplink := Function.update n.uplink p rest }
  | internal {before after : List Packet} {pkt : Packet}
      (hinside : n.traffic.switch.inside = before ++ pkt :: after)
      (hfirst : ∀ x ∈ before, x.port ≠ pkt.port) {sw : Switch} {distributed : List Result}
      (hprocess : { n.traffic.switch with inside := before ++ after }.process m asic pkt = sw)
      (hresults : sw.results = n.traffic.switch.results ++ distributed) :
      Step n (.internal before.length)
        { n with
          traffic := ⟨sw, n.traffic.sent⟩
          copies := n.copies ++ distributed.flatMap (copiesOf asic rc) }
  | fanOut {before after : List Copy} {c : Copy} (hcopies : n.copies = before ++ c :: after)
      (hfirst : ∀ x ∈ before, x.port ≠ c.port) :
      Step n (.fanOut before.length)
        { n with
          traffic := ⟨(n.traffic.switch.fanOut m asic c).1, n.traffic.sent⟩
          copies := before ++ after
          downlink := Function.update n.downlink c.receiver
            (n.downlink c.receiver ++ (n.traffic.switch.fanOut m asic c).2) }
  | receive {p : Participant} {d : Delivery} {rest : List Delivery}
      (hdownlink : n.downlink p = d :: rest) :
      Step n (.receive p)
        { n with
          downlink := Function.update n.downlink p rest
          received := Function.update n.received p (n.received p ++ [d]) }
  | loseUp {p : Participant} {before after : List (Frame × Nat)} {x : Frame × Nat}
      (huplink : n.uplink p = before ++ x :: after) :
      Step n (.loseUp p before.length)
        { n with uplink := Function.update n.uplink p (before ++ after) }
  | loseDown {p : Participant} {before after : List Delivery} {d : Delivery}
      (hdownlink : n.downlink p = before ++ d :: after) :
      Step n (.loseDown p before.length)
        { n with downlink := Function.update n.downlink p (before ++ after) }

end Steps

end Network

/-! ### Copies -/

/-- What leaves the switch of a copy. -/
def Copy.delivery (c : Copy) : Delivery :=
  ⟨(Ingress.adaptRecircFanoutPort c.port).getD 0,
    { c.frame with icrc := c.frame.recircFanout.getD c.frame.icrc, recircFanout := none }, c.seq⟩

theorem Switch.fanOut_eq {m : Matcher} {asic : Asic} {c : Copy} {port : PortId}
    (hport : Ingress.adaptRecircFanoutPort c.port = some port) (sw : Switch) :
    sw.fanOut m asic c = (sw, [c.delivery]) := by
  rw [fanOut, Ingress.apply_of_fanOut m _ _ hport, Copy.delivery, Ingress.recircFanout]
  change (({ sw with regs := Function.update sw.regs _ (sw.regs _) } : Switch), _) = _
  rw [Function.update_eq_self]
  change (sw, match false, (Ingress.adaptRecircFanoutPort c.port).or none with
    | false, some port => [_]
    | _, _ => []) = _
  rw [hport]
  rfl

theorem map_fst_zip_sublist {A B : Type} (l : List A) (l' : List B) : ((l.zip l').map Prod.fst).Sublist l := by
  induction l generalizing l' with
  | nil => exact List.Sublist.refl _
  | cons a l ih =>
      cases l' with
      | nil => exact List.nil_sublist _
      | cons b l' => exact (ih l').cons_cons a

theorem filter_eq_singleton {A B : Type} [DecidableEq B] {l : List A} {f : A → B}
    (hnodup : (l.map f).Nodup) {a : A} (ha : a ∈ l) : l.filter (fun x => f x = f a) = [a] := by
  induction l with
  | nil => contradiction
  | cons b l ih =>
      obtain ⟨hb, hl⟩ := List.nodup_cons.1 hnodup
      rcases List.mem_cons.1 ha with rfl | ha
      · have hnone : l.filter (fun x => f x = f a) = [] := by
          refine List.filter_eq_nil_iff.2 fun x hx heq => hb ?_
          rw [← of_decide_eq_true heq]
          exact List.mem_map_of_mem hx
        rw [List.filter_cons, if_pos (decide_eq_true rfl), hnone]
      · have hne : f b ≠ f a := fun heq => hb (heq ▸ List.mem_map_of_mem ha)
        rw [List.filter_cons, if_neg (by simpa using hne), ih hl ha]

theorem Egress.apply_address (tables : PipeTables) {bridge : BridgeHeader} (egressRid : BitVec 16) (f : Frame)
    (hunit : bridge.aggUnit ≠ 65535) {d : OutputAddressSet}
    (hlookup : tables.outputAddress.lookup ⟨bridge.aggUnit, egressRid⟩ = some d) :
    (apply tables bridge egressRid f).ethernet.dstAddr = d.dstMac ∧
      (apply tables bridge egressRid f).ipv4.dstAddr = d.dstIp ∧
      (apply tables bridge egressRid f).roce.dstQp = d.dstQp := by
  rw [apply, EgressParser.parse, if_neg hunit, CollectivesDistributor.apply, hlookup]
  exact ⟨rfl, rfl, rfl⟩

section Copies

variable {asic : Asic} {rc : CollectiveChannel} {r r' : Result} {c c' : Copy} {p : Participant}

theorem seq_of_mem_copiesOf (hc : c ∈ copiesOf asic rc r) : c.seq = r.seq := by
  obtain ⟨x, -, rfl⟩ := List.mem_map.1 hc
  rfl

/-- A copy is for a participant, and at the fan-out port of its port. -/
theorem receiver_of_mem_copiesOf (hc : c ∈ copiesOf asic rc r) : c.receiver ∈ rc.members ∧
    Ingress.adaptRecircFanoutPort c.port = some c.receiver.switchPort := by
  obtain ⟨x, hx, rfl⟩ := List.mem_map.1 hc
  obtain ⟨hzip, hreaches⟩ := List.mem_filter.1 hx
  exact ⟨(List.of_mem_zip hzip).1, (of_decide_eq_true hreaches).port⟩

/-- What leaves the switch of a copy leaves at the port of its participant, with its address. -/
theorem delivery_address (hunit : r.bridgeHeader.aggUnit = rc.aggUnit) (hne : rc.aggUnit ≠ 65535)
    (hc : c ∈ copiesOf asic rc r) : c.delivery.port = c.receiver.switchPort ∧
      c.delivery.frame.ethernet.dstAddr = c.receiver.mac ∧ c.delivery.frame.ipv4.dstAddr = c.receiver.ip ∧
      c.delivery.frame.roce.dstQp = c.receiver.localQp := by
  obtain ⟨x, hx, rfl⟩ := List.mem_map.1 hc
  have hreaches : Reaches asic rc x.1 x.2 := of_decide_eq_true (List.mem_filter.1 hx).2
  obtain ⟨d, hlookup, hmac, hip, hqp⟩ := hreaches.address
  rw [← hunit] at hlookup hne
  obtain ⟨hmac', hip', hqp'⟩ :=
    Egress.apply_address (asic.pipes (pipeOf x.2.1)) x.2.2 r.hdr hne hlookup
  refine ⟨?_, hmac'.trans hmac, hip'.trans hip, hqp'.trans hqp⟩
  rw [Copy.delivery, hreaches.port, Option.getD_some]

theorem nodup_receivers (hnodup : rc.members.Nodup) : ((copiesOf asic rc r).map Copy.receiver).Nodup := by
  have hsublist : ((copiesOf asic rc r).map Copy.receiver).Sublist rc.members := by
    rw [copiesOf, List.map_map]
    refine (List.filter_sublist.map _).trans ?_
    change ((rc.members.zip (asic.replicas r.mcastGrp 0)).map Prod.fst).Sublist rc.members
    exact map_fst_zip_sublist ..
  exact hnodup.sublist hsublist

def Supplied (asic : Asic) (rc : CollectiveChannel) (p : Participant) : Prop :=
  ∃ x ∈ rc.members.zip (asic.replicas (mcastGroup rc.aggUnit) 0), x.1 = p ∧ Reaches asic rc p x.2

theorem supplied_of_delivers (h : Delivers asic rc) (hp : p ∈ rc.members) : Supplied asic rc p := by
  obtain ⟨hlength, hreaches⟩ := List.forall₂_iff_zip.1 (h 0)
  rw [← List.map_fst_zip hlength.le] at hp
  obtain ⟨x, hx, rfl⟩ := List.mem_map.1 hp
  exact ⟨x, hx, rfl, hreaches hx⟩

section Group

variable (hr : r.mcastGrp = mcastGroup rc.aggUnit) (hnodup : rc.members.Nodup)

include hr

theorem exists_mem_copiesOf : (∃ c ∈ copiesOf asic rc r, c.receiver = p) ↔ Supplied asic rc p := by
  rw [Supplied, copiesOf, hr]
  constructor
  · rintro ⟨c, hc, rfl⟩
    obtain ⟨x, hx, rfl⟩ := List.mem_map.1 hc
    obtain ⟨hzip, hreaches⟩ := List.mem_filter.1 hx
    exact ⟨x, hzip, rfl, of_decide_eq_true hreaches⟩
  · rintro ⟨x, hzip, rfl, hreaches⟩
    exact ⟨_, List.mem_map.2 ⟨x, List.mem_filter.2 ⟨hzip, decide_eq_true hreaches⟩, rfl⟩, rfl⟩

include hnodup

theorem port_eq_of_receiver (hr' : r'.mcastGrp = mcastGroup rc.aggUnit)
    (hc : c ∈ copiesOf asic rc r) (hc' : c' ∈ copiesOf asic rc r') (heq : c.receiver = c'.receiver) :
    c.port = c'.port := by
  rw [copiesOf, hr] at hc
  rw [copiesOf, hr'] at hc'
  obtain ⟨x, hx, rfl⟩ := List.mem_map.1 hc
  obtain ⟨x', hx', rfl⟩ := List.mem_map.1 hc'
  obtain ⟨i, hi⟩ := List.mem_iff_getElem?.1 (List.mem_filter.1 hx).1
  obtain ⟨i', hi'⟩ := List.mem_iff_getElem?.1 (List.mem_filter.1 hx').1
  obtain ⟨hfst, hsnd⟩ := List.getElem?_zip_eq_some.1 hi
  obtain ⟨hfst', hsnd'⟩ := List.getElem?_zip_eq_some.1 hi'
  have heq : x.1 = x'.1 := heq
  rw [← heq] at hfst'
  obtain rfl : i = i' :=
    (List.getElem?_inj (List.getElem?_eq_some_iff.1 hfst).1 hnodup).1 (hfst.trans hfst'.symm)
  rw [Option.some.inj (hsnd.symm.trans hsnd')]

/-- A result has one copy for a participant that is supplied. -/
theorem exists_filter_copiesOf (hp : Supplied asic rc p) : ∃ c ∈ copiesOf asic rc r,
    (copiesOf asic rc r).filter (fun c => c.receiver = p) = [c] := by
  obtain ⟨c, hc, rfl⟩ := (exists_mem_copiesOf hr).2 hp
  exact ⟨c, hc, filter_eq_singleton (nodup_receivers hnodup) hc⟩

omit hnodup

theorem filter_copiesOf_eq_nil (hp : ¬Supplied asic rc p) :
    (copiesOf asic rc r).filter (fun c => c.receiver = p) = [] := by
  refine List.filter_eq_nil_iff.2 fun c hc heq => hp ?_
  exact (exists_mem_copiesOf hr).1 ⟨c, hc, of_decide_eq_true heq⟩

end Group

theorem delivery_headers (hc : c ∈ copiesOf asic rc r) :
    c.delivery.frame.roce.opcode = r.hdr.roce.opcode ∧ c.delivery.frame.roce.psn = r.hdr.roce.psn ∧
      c.delivery.frame.ipv4.totalLength = r.hdr.ipv4.totalLength ∧
      c.delivery.frame.udp.length = r.hdr.udp.length ∧
      c.delivery.frame.aggregate = r.hdr.aggregate := by
  obtain ⟨x, -, rfl⟩ := List.mem_map.1 hc
  obtain ⟨hopcode, hpsn, htotal, hlength⟩ :=
    Egress.apply_headers (asic.pipes (pipeOf x.2.1)) r.bridgeHeader x.2.2 r.hdr
  exact ⟨hopcode, hpsn, htotal, hlength, Egress.apply_aggregate ..⟩

end Copies

end Mpitofino
