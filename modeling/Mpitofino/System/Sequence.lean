import Mpitofino.System.Delivery

/-!
# Results in order

Without loss every participant gets the results in the order of their numbers, with the opcodes and
lengths of the packets they are made of.
-/

namespace Mpitofino

open AsicDriver
open StateRepository (WellFormed)

/-- The opcode and the lengths in the headers. -/
def Frame.form (f : Frame) : BitVec 8 × BitVec 16 × BitVec 16 :=
  (f.roce.opcode, f.ipv4.totalLength, f.udp.length)

namespace Network

/-- What is distributed to a participant has consecutive PSNs, and the opcode and the lengths that the
participants used for them. -/
structure Sequential (rc : CollectiveChannel) (n : Network) : Prop where
  psns : ∀ p ∈ rc.members, (n.stream p).map (fun d => d.frame.roce.psn) =
    (List.range (n.stream p).length).map (BitVec.ofNat 24)
  forms : ∀ p ∈ rc.members, ∀ (seq : Nat) (d : Delivery), (n.stream p)[seq]? = some d →
    ∀ form, (∀ q ∈ rc.members, ∀ f : Frame, (n.packets q)[seq]? = some f → f.form = form) →
      d.frame.form = form

section Runs

variable {channels : List CollectiveChannel} {m : Matcher} {asic : Asic} {rc : CollectiveChannel}
  {n n' : Network} {p : Participant}

theorem forall₂_distributedTo (hnodup : rc.members.Nodup) (hp : Supplied asic rc p)
    {results : List Result} (hgroups : ∀ r ∈ results, r.mcastGrp = mcastGroup rc.aggUnit) :
    List.Forall₂ (fun r d => ∃ c ∈ copiesOf asic rc r, d = c.delivery) results
      (((results.flatMap (copiesOf asic rc)).filter (·.receiver = p)).map Copy.delivery) := by
  induction results with
  | nil => exact .nil
  | cons r results ih =>
      obtain ⟨hr, hrest⟩ := List.forall_mem_cons.1 hgroups
      obtain ⟨c, hc, hfilter⟩ := exists_filter_copiesOf hr hnodup hp
      rw [List.flatMap_cons, List.filter_append, hfilter, List.singleton_append, List.map_cons]
      exact .cons ⟨c, hc, rfl⟩ (ih hrest)

theorem Carried.distributedTo_eq_nil (hn : Carried asic rc n) (hp : ¬Supplied asic rc p) :
    n.distributedTo asic rc p = [] := by
  rw [distributedTo, List.map_eq_nil_iff, List.filter_flatMap, List.flatMap_eq_nil_iff]
  exact fun r hr => filter_copiesOf_eq_nil (hn.groups hr) hp

section State

variable (h : Serving channels asic rc) (hn : Carried asic rc n)

include h hn

/-- What was distributed to a participant at a place is the copy of the result with that number. -/
theorem Carried.distributedTo_getElem? {seq : Nat} {d : Delivery}
    (hd : (n.distributedTo asic rc p)[seq]? = some d) : ∃ r ∈ n.traffic.switch.results,
      r.seq = seq ∧ ∃ c ∈ copiesOf asic rc r, d = c.delivery := by
  have hp : Supplied asic rc p := by
    by_contra hp
    rw [hn.distributedTo_eq_nil hp] at hd
    contradiction
  have hall := forall₂_distributedTo h.nodup_members hp fun r hr => hn.groups hr
  have hlt := (List.getElem?_eq_some_iff.1 hd).1
  rw [distributedTo, ← hall.length_eq] at hlt
  have hget := List.getElem?_eq_getElem hlt
  refine ⟨_, List.getElem_mem hlt, ?_, ?_⟩
  · have hseq := congrArg (·[seq]?) hn.ordered.results
    simpa [hget, List.getElem?_range hlt] using hseq
  · obtain ⟨-, hrel⟩ := List.forall₂_iff_get.1 hall
    obtain ⟨hlt', heq⟩ := List.getElem?_eq_some_iff.1 hd
    rw [← heq]
    exact hrel seq hlt hlt'

variable (p) in
theorem Carried.length_distributedTo_le :
    (n.distributedTo asic rc p).length ≤ n.traffic.switch.results.length := by
  by_cases hp : Supplied asic rc p
  · have hall := forall₂_distributedTo h.nodup_members hp fun r hr => hn.groups hr
    exact hall.length_eq.ge
  · rw [hn.distributedTo_eq_nil hp]
    exact Nat.zero_le _

/-- A result is a packet of a participant with the sum of all of them. -/
theorem Carried.distributedTo_frame {seq : Nat} {d : Delivery}
    (hd : (n.distributedTo asic rc p)[seq]? = some d) : d.seq = seq ∧
      d.frame.roce.psn = BitVec.ofNat 24 seq ∧
      d.frame.aggregate = (rc.members.map (wordsOf fun q => n.traffic.sent q seq)).sum ∧
      ∃ q ∈ rc.members, ∃ f, (n.packets q)[seq]? = some f ∧ d.frame.form = f.form := by
  obtain ⟨r, hr, rfl, c, hc, rfl⟩ := hn.distributedTo_getElem? h hd
  obtain ⟨hopcode, hpsn, htotal, hlength, haggregate⟩ := delivery_headers hc
  obtain ⟨q, f, hf, horigin⟩ := hn.inv.origin r hr
  obtain ⟨hq, hsentBy⟩ := hn.inv.sentBy q r.seq f hf
  have hhdr : r.hdr = { f with aggregate := r.hdr.aggregate } := congrArg Result.hdr horigin
  refine ⟨seq_of_mem_copiesOf hc, ?_, ?_, q, hq, f, ?_, ?_⟩
  · rw [hpsn, hhdr]
    exact hsentBy.psn
  · rw [haggregate, hn.inv.sums hr]
  · obtain ⟨arrived, -, -, hsent⟩ := hn.uplinks q
    rw [hsent, List.getElem?_take] at hf
    split at hf
    · exact hf
    · contradiction
  · rw [Frame.form, hopcode, htotal, hlength, hhdr, Frame.form]

theorem Carried.sequential (hstream : n.stream p = n.distributedTo asic rc p) :
    (n.stream p).map (fun d => d.frame.roce.psn) =
      (List.range (n.stream p).length).map (BitVec.ofNat 24) := by
  refine List.ext_getElem? fun seq => ?_
  rw [List.getElem?_map, List.getElem?_map, hstream]
  cases hd : (n.distributedTo asic rc p)[seq]? with
  | none =>
      rw [List.getElem?_eq_none (by rw [List.length_range]; exact List.getElem?_eq_none_iff.1 hd)]
      rfl
  | some d =>
      rw [List.getElem?_range (List.getElem?_eq_some_iff.1 hd).1, Option.map_some, Option.map_some,
        (hn.distributedTo_frame h hd).2.1]

end State

/-- A run in which nothing is lost and no participant is ahead of its results. -/
def Orderly (m : Matcher) (asic : Asic) (rc : CollectiveChannel) (n : Network) (e : NetworkEvent)
    (n' : Network) : Prop :=
  Step m asic rc n e n' ∧ e.Lossless ∧ n.Windowed e

/-- What holds in a run without loss. -/
structure Flows (asic : Asic) (rc : CollectiveChannel) (n : Network) : Prop where
  carried : Carried asic rc n
  streams : ∀ p ∈ rc.members, n.stream p = n.distributedTo asic rc p

theorem Flows.distributed (hn : Flows asic rc n) (h : Serving channels asic rc)
    (hp : p ∈ rc.members) {d : Delivery}
    (hd : d ∈ n.received p) : n.traffic.Distributed d.seq := by
  have hmem : d ∈ n.distributedTo asic rc p := by
    rw [← hn.streams p hp, stream, List.append_assoc]
    exact List.mem_append_left _ hd
  obtain ⟨seq, hseq⟩ := List.mem_iff_getElem?.1 hmem
  obtain ⟨r, hr, -, c, hc, rfl⟩ := hn.carried.distributedTo_getElem? h hseq
  exact ⟨r, hr, (seq_of_mem_copiesOf hc).symm⟩

theorem Flows.step (hn : Flows asic rc n) (h : Serving channels asic rc)
    {e : NetworkEvent} (hstep : Orderly m asic rc n e n') :
    Flows asic rc n' := by
  obtain ⟨hstep, hlossless, hwindowed⟩ := hstep
  refine ⟨hn.carried.step h hstep ?_ ?_, fun p hp => ?_⟩
  · rintro p k rfl
    exact hlossless
  · rintro p f rfl seq heq
    cases hstep with
    | send hp hf =>
        obtain ⟨d, hd, rfl⟩ := hwindowed seq heq
        exact hn.distributed h hp hd
  · obtain ⟨new, hdistributed, -, hstream⟩ := hn.carried.stream_step h hstep p
    rw [hstream hlossless, hdistributed, hn.streams p hp]

theorem flows_start (h : Serving channels asic rc) : Flows asic rc start :=
  ⟨carried_start h, fun _ _ => rfl⟩

theorem Flows.sequential (hn : Flows asic rc n) (h : Serving channels asic rc)
    : Sequential rc n where
  psns p hp := hn.carried.sequential h (hn.streams p hp)
  forms p hp seq d hd form hall := by
    rw [hn.streams p hp] at hd
    obtain ⟨-, -, -, q, hq, f, hf, hform⟩ := hn.carried.distributedTo_frame h hd
    exact hform.trans (hall q hq f hf)

/-- **Order.** In every run without loss the results of a programmed channel get to each participant in
the order of their numbers, with the opcodes and lengths of the packets they are made of. -/
theorem run_sequential {r : StateRepository} (hr : WellFormed r)
    (hknown : rc ∈ knownChannels r.getChannels) (hnonempty : rc.members ≠ [])
    (hports : ∀ p ∈ rc.members, p.switchPort ∈ frontPanelPorts)
    (haddresses : (rc.members.map fun p => (p.ip, p.fabricQp)).Nodup)
    (hprogrammed : Programmed r.getChannels asic)
    (hcollective : asic.switchingTable.lookup rc.fabricMac = some .collective)
    {run : List (NetworkEvent × Network)} (hrun : Along (Orderly m asic rc) start run) :
    ∀ x ∈ run, Sequential rc x.2 := by
  have h := serving_of_programmed hr hknown hnonempty hports haddresses hprogrammed hcollective
  exact fun x hx => (hrun.invariant (fun _ _ _ hn hstep => Flows.step hn h hstep)
    (flows_start h) x hx).sequential h

end Runs

/-! ### Two participants -/

namespace TwoPipes

open Traffic.TwoPipes (asic packet left right)

def advance (n : Network) : NetworkEvent → Network
  | .send p f =>
      { n with
        packets := Function.update n.packets p (n.packets p ++ [f])
        uplink := Function.update n.uplink p (n.uplink p ++ [(f, (n.packets p).length)]) }
  | .arrive p =>
      match n.uplink p with
      | (f, seq) :: rest =>
          { n with
            traffic := ⟨n.traffic.switch.process Matcher.first asic ⟨p.switchPort, f, seq⟩,
              Traffic.sentWith n.traffic.sent p seq f⟩
            uplink := Function.update n.uplink p rest }
      | [] => n
  | .internal k =>
      match n.traffic.switch.inside[k]? with
      | some pkt =>
          let inside := n.traffic.switch.inside.take k ++ n.traffic.switch.inside.drop (k + 1)
          let sw := { n.traffic.switch with inside := inside }.process Matcher.first asic pkt
          { n with
            traffic := ⟨sw, n.traffic.sent⟩
            copies := n.copies ++ (sw.results.drop n.traffic.switch.results.length).flatMap
              (copiesOf asic Traffic.TwoPipes.channel) }
      | none => n
  | .fanOut k =>
      match n.copies[k]? with
      | some c =>
          { n with
            traffic := ⟨(n.traffic.switch.fanOut Matcher.first asic c).1, n.traffic.sent⟩
            copies := n.copies.take k ++ n.copies.drop (k + 1)
            downlink := Function.update n.downlink c.receiver
              (n.downlink c.receiver ++ (n.traffic.switch.fanOut Matcher.first asic c).2) }
      | none => n
  | .receive p =>
      match n.downlink p with
      | d :: rest =>
          { n with
            downlink := Function.update n.downlink p rest
            received := Function.update n.received p (n.received p ++ [d]) }
      | [] => n
  | .loseUp _ _ => n
  | .loseDown _ _ => n

/-- The events of a run in which no more than 256 packets are sent. -/
def Possible (n : Network) : NetworkEvent → Prop
  | .send p f => p ∈ Traffic.TwoPipes.channel.members ∧ (n.packets p).length < 256 ∧
      f = packet p (n.packets p).length (f.aggregate 0)
  | .arrive p => n.uplink p ≠ []
  | .internal k => ∃ pkt ∈ n.traffic.switch.inside[k]?,
      ∀ x ∈ n.traffic.switch.inside.take k, x.port ≠ pkt.port
  | .fanOut k => ∃ c ∈ n.copies[k]?, ∀ x ∈ n.copies.take k, x.port ≠ c.port
  | .receive p => n.downlink p ≠ []
  | .loseUp _ _ => False
  | .loseDown _ _ => False

instance (n : Network) : ∀ e, Decidable (Possible n e)
  | .send _ _ => inferInstanceAs (Decidable (_ ∧ _))
  | .arrive p =>
      match h : n.uplink p with
      | [] => isFalse fun hne => hne h
      | _ :: _ => isTrue fun hnil => by rw [h] at hnil; contradiction
  | .internal _ => inferInstanceAs (Decidable (∃ pkt ∈ _, _))
  | .fanOut _ => inferInstanceAs (Decidable (∃ c ∈ _, _))
  | .receive p =>
      match h : n.downlink p with
      | [] => isFalse fun hne => hne h
      | _ :: _ => isTrue fun hnil => by rw [h] at hnil; contradiction
  | .loseUp _ _ => isFalse id
  | .loseDown _ _ => isFalse id

private theorem split_at {A : Type} {l : List A} {k : Nat} {a : A} (h : l[k]? = some a) :
    l = l.take k ++ a :: l.drop (k + 1) ∧ (l.take k).length = k := by
  obtain ⟨hlt, rfl⟩ := List.getElem?_eq_some_iff.1 h
  rw [← List.drop_eq_getElem_cons hlt, List.take_append_drop]
  exact ⟨rfl, List.length_take_of_le hlt.le⟩

theorem orderly_advance {n : Network} {e : NetworkEvent} (h : Possible n e) :
    Orderly Matcher.first asic Traffic.TwoPipes.channel n e (advance n e) := by
  cases e with
  | send p f =>
      obtain ⟨hp, hlt, hf⟩ := h
      refine ⟨.send hp ?_, trivial, fun seq heq => by omega⟩
      rw [hf]
      exact ⟨⟨rfl, rfl, rfl, rfl⟩, rfl, rfl, rfl, rfl, rfl⟩
  | arrive p =>
      obtain ⟨⟨f, seq⟩, rest, hrest⟩ := List.exists_cons_of_ne_nil h
      rw [advance, hrest]
      exact ⟨.arrive hrest, trivial, trivial⟩
  | internal k =>
      obtain ⟨pkt, hpkt, hfirst⟩ := h
      have hget : n.traffic.switch.inside[k]? = some pkt := hpkt
      obtain ⟨hsplit, hlength⟩ := split_at hget
      have hstep : Step Matcher.first asic Traffic.TwoPipes.channel n
          (.internal (n.traffic.switch.inside.take k).length) _ :=
        .internal hsplit hfirst rfl rfl
      rw [hlength] at hstep
      rw [advance, hget]
      dsimp only
      rw [Switch.process, List.drop_left]
      exact ⟨hstep, trivial, trivial⟩
  | fanOut k =>
      obtain ⟨c, hc, hfirst⟩ := h
      have hget : n.copies[k]? = some c := hc
      obtain ⟨hsplit, hlength⟩ := split_at hget
      have hstep : Step Matcher.first asic Traffic.TwoPipes.channel n
          (.fanOut (n.copies.take k).length) _ :=
        .fanOut hsplit hfirst
      rw [hlength] at hstep
      rw [advance, hget]
      exact ⟨hstep, trivial, trivial⟩
  | receive p =>
      obtain ⟨d, rest, hrest⟩ := List.exists_cons_of_ne_nil h
      rw [advance, hrest]
      exact ⟨.receive hrest, trivial, trivial⟩
  | loseUp p k => exact absurd h id
  | loseDown p k => exact absurd h id

/-- Both numbers are on pipe 0 first, and the sums wait for pipe 3. -/
def events : List NetworkEvent :=
  [.send left (packet left 0 3), .send left (packet left 1 5), .arrive left, .arrive left,
    .internal 0, .internal 0, .internal 0, .internal 0,
    .send right (packet right 0 4), .send right (packet right 1 6), .arrive right, .arrive right,
    .internal 0, .internal 0, .fanOut 0, .fanOut 0, .fanOut 0, .fanOut 0,
    .receive left, .receive left, .receive right]

def results (n : Network) (p : Participant) : List (IbPsn × Value) :=
  (n.received p).map fun d => (d.frame.roce.psn, d.frame.aggregate 0)

theorem events_sequential :
    ((runOf advance start events).getLast?.map fun x => (results x.2 left, results x.2 right)) =
        some ([(0, 7), (1, 11)], [(0, 7)]) ∧
      ∀ x ∈ runOf advance start events, Sequential Traffic.TwoPipes.channel x.2 := by
  refine ⟨by decide +kernel, run_sequential (m := Matcher.first)
    Traffic.TwoPipes.wellFormed_repository ?_ (by decide) (by decide) (by decide)
    (programmed_of_initialSetup (distinct_of_wellFormed Traffic.TwoPipes.wellFormed_repository)
      Traffic.TwoPipes.programs_asic) (collective_of_initialSetup Traffic.TwoPipes.programs_asic) ?_⟩
  · exact List.mem_singleton.2 rfl
  · have hpossible : Along (fun n e _ => Possible n e) start (runOf advance start events) := by
      decide +kernel
    exact hpossible.of_runOf fun _ _ => orderly_advance

end TwoPipes

end Network

end Mpitofino
