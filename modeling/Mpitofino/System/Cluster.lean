import Mpitofino.Client.Failures
import Mpitofino.System.Sequence

/-!
# The cluster

The participants of a channel with their calls of `allreduce`, on the network around the switch. What a
queue pair sends goes on the link, and what comes out of the link back is what it receives. Where packets
are lost on the way from the switch only, a result is the sum of the packets with its number.
-/

namespace Mpitofino

open AsicDriver ClientLib
open StateRepository (WellFormed)

/-- The participants on the network, and the calls that each of them made, with the memory it made them
with. -/
structure Cluster where
  network : Network
  hosts : Participant → Host
  calls : Participant → List (Allreduce × Memory)

inductive ClusterEvent where
  | host (p : Participant) (e : Host.Event)
  | network (e : NetworkEvent)

/-- The events at a participant that are not on its links. -/
def ClientLib.Host.Event.Local : Host.Event → Prop
  | .transmit _ => False
  | .receive _ _ => False
  | _ => True

def ClientLib.Host.Event.made : Host.Event → List (Allreduce × Memory)
  | .call c mem => [(c, mem)]
  | _ => []

def NetworkEvent.Inner : NetworkEvent → Prop
  | .send _ _ => False
  | .receive _ => False
  | _ => True

namespace Cluster

def start : Cluster := ⟨Network.start, fun _ => Host.start, fun _ => []⟩

section Steps

variable (m : Matcher) (asic : Asic) (rc : CollectiveChannel)

inductive Step (c : Cluster) : ClusterEvent → Cluster → Prop where
  | host {p : Participant} {e : Host.Event} {h : Host} (hlocal : e.Local)
      (hstep : Host.Step (c.hosts p) e h) :
      Step c (.host p e)
        { c with
          hosts := Function.update c.hosts p h
          calls := Function.update c.calls p (c.calls p ++ e.made) }
  | send {p : Participant} {f : Frame} {h : Host} {n : Network}
      (hstep : Host.Step (c.hosts p) (.transmit f.aggregate) h)
      (hsend : Network.Step m asic rc c.network (.send p f) n) :
      Step c (.network (.send p f)) { c with network := n, hosts := Function.update c.hosts p h }
  | receive {p : Participant} {d : Delivery} {rest : List Delivery} {n : Network}
      (hdownlink : c.network.downlink p = d :: rest)
      (hreceive : Network.Step m asic rc c.network (.receive p) n) :
      Step c (.network (.receive p))
        { c with
          network := n
          hosts := Function.update c.hosts p
            ((c.hosts p).packetReceived d.frame.roce.psn d.frame.aggregate) }
  | inner {e : NetworkEvent} {n : Network} (hinner : e.Inner)
      (hstep : Network.Step m asic rc c.network e n) :
      Step c (.network e) { c with network := n }

end Steps

structure Fits (asic : Asic) (rc : CollectiveChannel) (c : Cluster) : Prop where
  carried : Network.Carried asic rc c.network
  streams : ∀ p ∈ rc.members, (c.network.stream p).Sublist (c.network.distributedTo asic rc p)
  sent : ∀ p ∈ rc.members, (c.network.packets p).length = (c.hosts p).sent
  received : ∀ p ∈ rc.members, (c.network.received p).length = (c.hosts p).received
  regular : ∀ p ∈ rc.members, (c.hosts p).Regular

/-- Every result is the sum of the packets with its number, one of each participant. -/
structure Summed (rc : CollectiveChannel) (n : Network) : Prop where
  once : (n.traffic.switch.results.map Result.seq).Nodup
  psns : ∀ r ∈ n.traffic.switch.results, r.hdr.roce.psn = BitVec.ofNat 24 r.seq
  sent : ∀ r ∈ n.traffic.switch.results, ∀ p ∈ rc.members, r.seq < (n.packets p).length
  sums : ∀ r ∈ n.traffic.switch.results,
    r.hdr.aggregate = (rc.members.map (wordsOf fun p => (n.packets p)[r.seq]?)).sum

end Cluster

namespace Network

variable {channels : List CollectiveChannel} {m : Matcher} {asic : Asic} {rc : CollectiveChannel}
  {n n' : Network} {p q : Participant} {seq : Nat}

theorem Carried.distributed_of_lt (h : Serving channels asic rc)
    (hn : Carried asic rc n) (hstream : (n.stream p).Sublist (n.distributedTo asic rc p)) (hlt : seq < (n.received p).length) :
    n.traffic.Distributed seq := by
  have hle := hstream.length_le.trans (hn.length_distributedTo_le p h)
  rw [stream, List.length_append, List.length_append] at hle
  have hmem : seq ∈ n.traffic.switch.results.map Result.seq := by
    rw [hn.ordered.results, List.mem_range]
    omega
  obtain ⟨r, hr, hseq⟩ := List.mem_map.1 hmem
  exact ⟨r, hr, hseq⟩

theorem Carried.sent_eq (hn : Carried asic rc n) (hsent : (n.traffic.sent q seq).isSome) :
    n.traffic.sent q seq = (n.packets q)[seq]? := by
  obtain ⟨arrived, -, -, harrived⟩ := hn.uplinks q
  rw [harrived, List.getElem?_take] at hsent ⊢
  split at hsent
  · rename_i hlt
    rw [if_pos hlt]
  · contradiction

theorem Carried.sent_of_distributed (hn : Carried asic rc n) (hdistributed : n.traffic.Distributed seq)
    (hq : q ∈ rc.members) : seq < (n.packets q).length := by
  have hsent := hn.inv.sent_of_distributed hdistributed hq
  rw [hn.sent_eq hsent] at hsent
  rwa [isSome_getElem?] at hsent

theorem Carried.words_eq (hn : Carried asic rc n) (hdistributed : n.traffic.Distributed seq) :
    rc.members.map (wordsOf fun q => n.traffic.sent q seq) =
      rc.members.map (wordsOf fun q => (n.packets q)[seq]?) := by
  refine List.map_congr_left fun q hq => ?_
  rw [wordsOf, wordsOf, hn.sent_eq (hn.inv.sent_of_distributed hdistributed hq)]

theorem Carried.summed (hn : Carried asic rc n) : Cluster.Summed rc n where
  once := hn.inv.nodup_results
  psns r hr := by
    obtain ⟨q, f, hf, horigin⟩ := hn.inv.origin r hr
    obtain ⟨-, hsentBy⟩ := hn.inv.sentBy q r.seq f hf
    rw [congrArg Result.hdr horigin]
    exact hsentBy.psn
  sent r hr p hp := hn.sent_of_distributed ⟨r, hr, rfl⟩ hp
  sums r hr := by rw [hn.inv.sums hr, hn.words_eq ⟨r, hr, rfl⟩]

/-! ### What an event changes for a participant -/

theorem Step.inner {e : NetworkEvent} (hstep : Step m asic rc n e n') (hinner : e.Inner) :
    n'.packets = n.packets ∧ n'.received = n.received := by
  cases hstep with
  | send | receive => exact absurd hinner id
  | arrive | internal | fanOut | loseUp | loseDown => exact ⟨rfl, rfl⟩

theorem Step.of_send {f : Frame} (hstep : Step m asic rc n (.send p f) n') : p ∈ rc.members ∧
    n'.packets = Function.update n.packets p (n.packets p ++ [f]) ∧ n'.received = n.received := by
  cases hstep with
  | send hp hf => exact ⟨hp, rfl, rfl⟩

theorem Step.of_receive {d : Delivery} {rest : List Delivery} (hdownlink : n.downlink p = d :: rest)
    (hstep : Step m asic rc n (.receive p) n') : n'.packets = n.packets ∧
      n'.received = Function.update n.received p (n.received p ++ [d]) := by
  cases hstep with
  | receive hdownlink' =>
      obtain ⟨rfl, rfl⟩ := List.cons.inj (hdownlink.symm.trans hdownlink')
      exact ⟨rfl, rfl⟩

end Network

namespace ClientLib.Host

variable {h h' : Host}

theorem Step.counts_of_local {e : Event} (hstep : Step h e h') (hlocal : e.Local) :
    h'.sent = h.sent ∧ h'.received = h.received := by
  cases hstep with
  | transmit | receive => exact absurd hlocal id
  | call | fill | poll | ret => exact ⟨rfl, rfl⟩

theorem Step.counts_of_transmit {words : AggregateH} (hstep : Step h (.transmit words) h') :
    (∃ w rest, h.sends = w :: rest) ∧ h'.sent = h.sent + 1 ∧ h'.received = h.received := by
  cases hstep with
  | @transmit w rest _ hsends hwords =>
      exact ⟨⟨w, rest, hsends⟩, packetSent_sent .., packetSent_received ..⟩

end ClientLib.Host

namespace Cluster

section Runs

variable {channels : List CollectiveChannel} {m : Matcher} {asic : Asic} {rc : CollectiveChannel}
  {c c' : Cluster}

theorem forall_members_update {P : Participant → Host → Prop} {p : Participant} {h : Host}
    (hp : p ∈ rc.members → P p h) (hall : ∀ q ∈ rc.members, P q (c.hosts q)) :
    ∀ q ∈ rc.members, P q (Function.update c.hosts p h q) :=
  (Function.forall_update_iff _ fun q h => q ∈ rc.members → P q h).2 ⟨hp, fun q _ => hall q⟩

theorem fits_start (h : Serving channels asic rc) : Fits asic rc start where
  carried := Network.carried_start h
  streams _ _ := List.Sublist.refl _
  sent _ _ := rfl
  received _ _ := rfl
  regular _ _ := Or.inl Host.idle_start

theorem Fits.windowed (hc : Fits asic rc c) {p : Participant} (hp : p ∈ rc.members) {w : Posted} {rest : List Posted}
    (hsends : (c.hosts p).sends = w :: rest) {seq : Nat}
    (heq : seq + 256 = (c.network.packets p).length) : seq < (c.network.received p).length := by
  have hwindow := (hc.regular p hp).window hsends
  rw [hc.sent p hp] at heq
  rw [hc.received p hp]
  omega

theorem forall_length_update {A : Type} {l : Participant → List A} {count : Host → Nat}
    {p : Participant} {host : Host} (hcount : count host = count (c.hosts p))
    (hall : ∀ q ∈ rc.members, (l q).length = count (c.hosts q)) :
    ∀ q ∈ rc.members, (l q).length = count (Function.update c.hosts p host q) :=
  forall_members_update (P := fun q h => (l q).length = count h)
    (fun hp => by rw [hcount, hall p hp]) hall

theorem forall_length_append {A : Type} {l : Participant → List A} {count : Host → Nat}
    {p : Participant} {host : Host} {x : A} (hcount : count host = count (c.hosts p) + 1)
    (hall : ∀ q ∈ rc.members, (l q).length = count (c.hosts q)) :
    ∀ q ∈ rc.members, (Function.update l p (l p ++ [x]) q).length =
      count (Function.update c.hosts p host q) := by
  intro q hq
  by_cases heq : q = p
  · subst heq
    rw [Function.update_self, Function.update_self, List.length_append, hall q hq, hcount]
    rfl
  · rw [Function.update_of_ne heq, Function.update_of_ne heq, hall q hq]

theorem Fits.streams_step (h : Serving channels asic rc)
    (hc : Fits asic rc c) {e : NetworkEvent} {n : Network}
    (hnetwork : Network.Step m asic rc c.network e n) :
    ∀ p ∈ rc.members, (n.stream p).Sublist (n.distributedTo asic rc p) := by
  intro p hp
  obtain ⟨new, hdistributed, hsublist, -⟩ := hc.carried.stream_step h hnetwork p
  rw [hdistributed]
  exact hsublist.trans ((hc.streams p hp).append_right new)

theorem Fits.host (hc : Fits asic rc c) {p : Participant} {e : Host.Event} {host : Host}
    {calls : Participant → List (Allreduce × Memory)} (hlocal : e.Local)
    (hhost : Host.Step (c.hosts p) e host) :
    Fits asic rc { c with hosts := Function.update c.hosts p host, calls := calls } := by
  obtain ⟨hsent, hreceived⟩ := hhost.counts_of_local hlocal
  exact ⟨hc.carried, hc.streams, forall_length_update hsent hc.sent,
    forall_length_update hreceived hc.received,
    forall_members_update (P := fun _ h => h.Regular) (fun hp => (hc.regular p hp).step hhost)
      hc.regular⟩

theorem Fits.send (h : Serving channels asic rc)
    (hc : Fits asic rc c) {p : Participant} {f : Frame} {host : Host} {n : Network}
    (hhost : Host.Step (c.hosts p) (.transmit f.aggregate) host)
    (hsend : Network.Step m asic rc c.network (.send p f) n) :
    Fits asic rc { c with network := n, hosts := Function.update c.hosts p host } := by
  obtain ⟨hp, hpackets, hreceived⟩ := hsend.of_send
  obtain ⟨⟨w, rest, hsends⟩, hsent', hreceived'⟩ := hhost.counts_of_transmit
  refine ⟨hc.carried.step h hsend nofun fun p' f' heq seq hseq => ?_,
    hc.streams_step h hsend, ?_, ?_,
    forall_members_update (P := fun _ h => h.Regular) (fun hp => (hc.regular p hp).step hhost)
      hc.regular⟩
  · obtain ⟨rfl, rfl⟩ := NetworkEvent.send.inj heq
    exact hc.carried.distributed_of_lt h (hc.streams p hp)
      (hc.windowed hp hsends hseq)
  · dsimp only
    rw [hpackets]
    exact forall_length_append hsent' hc.sent
  · dsimp only
    rw [hreceived]
    exact forall_length_update hreceived' hc.received

theorem Fits.receive (h : Serving channels asic rc)
    (hc : Fits asic rc c) {p : Participant} {d : Delivery} {rest : List Delivery} {n : Network}
    (hdownlink : c.network.downlink p = d :: rest)
    (hreceive : Network.Step m asic rc c.network (.receive p) n) :
    Fits asic rc { c with
      network := n
      hosts := Function.update c.hosts p
        ((c.hosts p).packetReceived d.frame.roce.psn d.frame.aggregate) } := by
  obtain ⟨hpackets, hreceived⟩ := hreceive.of_receive hdownlink
  refine ⟨hc.carried.step h hreceive nofun nofun, hc.streams_step h hreceive,
    ?_, ?_, forall_members_update (P := fun _ h => h.Regular)
      (fun hp => (hc.regular p hp).received _ _) hc.regular⟩
  · dsimp only
    rw [hpackets]
    exact forall_length_update (Host.packetReceived_sent ..) hc.sent
  · dsimp only
    rw [hreceived]
    exact forall_length_append (Host.packetReceived_received ..) hc.received

theorem Fits.inner (h : Serving channels asic rc)
    (hc : Fits asic rc c) {e : NetworkEvent} {n : Network} (hinner : e.Inner)
    (hnetwork : Network.Step m asic rc c.network e n) (hkeeps : ∀ p k, e ≠ .loseUp p k) :
    Fits asic rc { c with network := n } := by
  obtain ⟨hpackets, hreceived⟩ := hnetwork.inner hinner
  refine ⟨hc.carried.step h hnetwork hkeeps fun p f heq => ?_,
    hc.streams_step h hnetwork, ?_, ?_, hc.regular⟩
  · subst heq
    exact absurd hinner id
  · rw [hpackets]
    exact hc.sent
  · rw [hreceived]
    exact hc.received

theorem Fits.step (h : Serving channels asic rc)
    (hc : Fits asic rc c) {e : ClusterEvent} (hstep : Step m asic rc c e c')
    (hkeeps : ∀ p k, e ≠ .network (.loseUp p k)) : Fits asic rc c' := by
  cases hstep with
  | host hlocal hhost => exact hc.host hlocal hhost
  | send hhost hsend => exact hc.send h hhost hsend
  | receive hdownlink hreceive => exact hc.receive h hdownlink hreceive
  | inner hinner hnetwork =>
      exact hc.inner h hinner hnetwork fun p k heq => hkeeps p k (congrArg _ heq)

/-- **Losses.** In every run in which packets are lost on the links from the switch only, whatever the
participants call and get, every result is the sum of the packets with its number, one of each. -/
theorem run_summed {r : StateRepository} (hr : WellFormed r)
    (hknown : rc ∈ knownChannels r.getChannels) (hnonempty : rc.members ≠ [])
    (hports : ∀ p ∈ rc.members, p.switchPort ∈ frontPanelPorts)
    (haddresses : (rc.members.map fun p => (p.ip, p.fabricQp)).Nodup)
    (hprogrammed : Programmed r.getChannels asic)
    (hcollective : asic.switchingTable.lookup rc.fabricMac = some .collective)
    {run : List (ClusterEvent × Cluster)}
    (hrun : Along (fun c e c' => Step m asic rc c e c' ∧ ∀ p k, e ≠ .network (.loseUp p k)) start run) :
    ∀ x ∈ run, Summed rc x.2.network := by
  have h := serving_of_programmed hr hknown hnonempty hports haddresses hprogrammed hcollective
  have hfits : ∀ x ∈ run, Fits asic rc x.2 :=
    hrun.invariant (fun _ _ _ hc hstep => hc.step h hstep.1 hstep.2) (fits_start h)
  exact fun x hx => (hfits x hx).carried.summed

end Runs

/-! ### Two participants -/

namespace TwoHosts

open Traffic.TwoPipes (asic packet left right)

/-- What happens, where packets carry what is in the buffers, and the first one of a link may be lost. -/
inductive Act where
  | host (p : Participant) (a : Host.TwoCalls.Act)
  | transmit (p : Participant)
  | receive (p : Participant)
  | inner (e : NetworkEvent)
  | loseUp (p : Participant)
  | loseDown (p : Participant)

def nextFrame (c : Cluster) (p : Participant) : Frame :=
  { packet p (c.network.packets p).length 0 with
    aggregate :=
      match (c.hosts p).sends, (c.hosts p).running with
      | w :: _, some r => Host.readPacket w.2.addr ((c.hosts p).sent % 64) r.loop.mem
      | _, _ => 0 }

def event (c : Cluster) : Act → ClusterEvent
  | .host p (.call call mem) => .host p (.call call mem)
  | .host p (.poll polled) => .host p (.poll polled (Host.TwoCalls.completions polled true))
  | .host p .ret => .host p .ret
  | .host p _ => .host p .fill
  | .transmit p => .network (.send p (nextFrame c p))
  | .receive p => .network (.receive p)
  | .inner e => .network e
  | .loseUp p => .network (.loseUp p 0)
  | .loseDown p => .network (.loseDown p 0)

def advance (c : Cluster) : Act → Cluster
  | .host p a =>
      { c with
        hosts := Function.update c.hosts p (Host.TwoCalls.advance 0 0 (c.hosts p) a)
        calls := Function.update c.calls p (c.calls p ++
          match a with
          | .call call mem => [(call, mem)]
          | _ => []) }
  | .transmit p =>
      { c with
        network := Network.TwoPipes.advance c.network (.send p (nextFrame c p))
        hosts := Function.update c.hosts p (Host.TwoCalls.advance 0 0 (c.hosts p) .transmit) }
  | .receive p =>
      match c.network.downlink p with
      | d :: _ =>
          { c with
            network := Network.TwoPipes.advance c.network (.receive p)
            hosts := Function.update c.hosts p
              ((c.hosts p).packetReceived d.frame.roce.psn d.frame.aggregate) }
      | [] => c
  | .inner e => { c with network := Network.TwoPipes.advance c.network e }
  | .loseUp p =>
      { c with network := { c.network with
          uplink := Function.update c.network.uplink p (c.network.uplink p).tail } }
  | .loseDown p =>
      { c with network := { c.network with
          downlink := Function.update c.network.downlink p (c.network.downlink p).tail } }

def Possible (c : Cluster) : Act → Prop
  | .host p (.call call mem) => Host.TwoCalls.Possible 0 (c.hosts p) (.call call mem) ∧
      ∀ q ∈ [left, right], ∀ x ∈ (c.calls q)[(c.calls p).length]?, x.1.count = call.count
  | .host p .fill => Host.TwoCalls.Possible 0 (c.hosts p) .fill
  | .host p (.poll polled) => Host.TwoCalls.Possible 0 (c.hosts p) (.poll polled)
  | .host p .ret => Host.TwoCalls.Possible 0 (c.hosts p) .ret
  | .host _ _ => False
  | .transmit p => (p = left ∨ p = right) ∧ (c.hosts p).sends ≠ [] ∧ (c.hosts p).running.isSome = true
  | .receive p => c.network.downlink p ≠ []
  | .inner e => e.Inner ∧ Network.TwoPipes.Possible c.network e
  | .loseUp p => c.network.uplink p ≠ []
  | .loseDown p => c.network.downlink p ≠ []

instance (c : Cluster) : ∀ a, Decidable (Possible c a)
  | .host _ (.call _ _) => inferInstanceAs (Decidable (_ ∧ ∀ q ∈ _, ∀ x ∈ (_ : Option _), _))
  | .host p .fill => inferInstanceAs (Decidable (Host.TwoCalls.Possible 0 (c.hosts p) .fill))
  | .host p (.poll polled) =>
      inferInstanceAs (Decidable (Host.TwoCalls.Possible 0 (c.hosts p) (.poll polled)))
  | .host p .ret => inferInstanceAs (Decidable (Host.TwoCalls.Possible 0 (c.hosts p) .ret))
  | .host _ .transmit => isFalse id
  | .host _ .receive => isFalse id
  | .host _ .fillThrows => isFalse id
  | .host _ (.postThrows _) => isFalse id
  | .host _ (.completionThrows _) => isFalse id
  | .transmit _ => inferInstanceAs (Decidable (_ ∧ _ ∧ _))
  | .receive _ => inferInstanceAs (Decidable (_ ≠ []))
  | .inner e =>
      have : Decidable e.Inner :=
        match e with
        | .send _ _ => isFalse id
        | .receive _ => isFalse id
        | .arrive _ | .internal _ | .fanOut _ | .loseUp _ _ | .loseDown _ _ => isTrue trivial
      inferInstanceAs (Decidable (_ ∧ _))
  | .loseUp _ => inferInstanceAs (Decidable (_ ≠ []))
  | .loseDown _ => inferInstanceAs (Decidable (_ ≠ []))

theorem host_step {c : Cluster} {p : Participant} {a : Host.TwoCalls.Act} {e : Host.Event}
    (ha : Host.TwoCalls.Possible 0 (c.hosts p) a) (he : a.move 0 0 (c.hosts p) = .event e) :
    Host.Step (c.hosts p) e (Host.TwoCalls.advance 0 0 (c.hosts p) a) := by
  have hmoves := (@Host.TwoCalls.Possible.moves 0 0 _ _ ha).1
  rw [he] at hmoves
  cases hmoves with
  | event hstep => exact hstep

theorem Possible.step {c : Cluster} {a : Act} (ha : Possible c a) :
    Step Matcher.first asic Traffic.TwoPipes.channel c (event c a) (advance c a) := by
  cases a with
  | host p a =>
      cases a with
      | call call mem => exact .host trivial (host_step ha.1 rfl)
      | fill => exact .host trivial (host_step ha rfl)
      | poll polled => exact .host trivial (host_step ha rfl)
      | ret => exact .host trivial (host_step ha rfl)
      | transmit | receive | fillThrows | postThrows | completionThrows => exact absurd ha id
  | transmit p =>
      obtain ⟨hp, hsends, hrunning⟩ := ha
      obtain ⟨w, rest, hsends⟩ := List.exists_cons_of_ne_nil hsends
      obtain ⟨r, hrunning⟩ := Option.isSome_iff_exists.1 hrunning
      have hframe : (nextFrame c p).aggregate =
          Host.readPacket w.2.addr ((c.hosts p).sent % 64) r.loop.mem := by
        rw [nextFrame, hsends, hrunning]
      refine .send ?_ (.send ?_ ?_)
      · rw [Host.TwoCalls.advance, hsends]
        refine .transmit hsends fun r' hr' => ?_
        obtain rfl := Option.some.inj (hrunning.symm.trans hr')
        exact hframe
      · rcases hp with rfl | rfl <;> decide
      · exact ⟨⟨rfl, rfl, rfl, rfl⟩, rfl, rfl, rfl, rfl, rfl⟩
  | receive p =>
      obtain ⟨d, rest, hdownlink⟩ := List.exists_cons_of_ne_nil ha
      rw [event, advance, hdownlink]
      exact .receive hdownlink (Network.TwoPipes.orderly_advance (e := .receive p) ha).1
  | inner e =>
      exact .inner ha.1 (Network.TwoPipes.orderly_advance ha.2).1
  | loseUp p =>
      obtain ⟨x, rest, huplink⟩ := List.exists_cons_of_ne_nil ha
      rw [event, advance, huplink]
      exact .inner trivial (@Network.Step.loseUp _ _ _ _ p [] rest x huplink)
  | loseDown p =>
      obtain ⟨d, rest, hdownlink⟩ := List.exists_cons_of_ne_nil ha
      rw [event, advance, hdownlink]
      exact .inner trivial (@Network.Step.loseDown _ _ _ _ p [] rest d hdownlink)

def run (acts : List Act) : List (ClusterEvent × Cluster) := runOfActs event advance start acts

/-- Five messages, of which the last one has one word. -/
def call : Allreduce :=
  { OneWord.call with count := 16385, separate := by decide, room := by decide }

/-- The memory with the first words of the first and the fifth message. -/
def memory (first fifth : Value) : Memory := fun a =>
  if a = 0x40000 then first else if a = 0x44000 then fifth else 0

/-- A participant posts messages while none is done. -/
def post (p : Participant) (messages : Nat) : List Act :=
  (List.replicate messages [.host p .fill, .host p (.poll [])]).flatten

/-- Packets of both participants are added, and the left one gets their sum. -/
def exchange : List Act :=
  [.transmit left, .inner (.arrive left), .inner (.internal 0), .inner (.internal 0), .transmit right,
    .inner (.arrive right), .inner (.internal 0), .inner (.fanOut 0), .inner (.fanOut 0), .receive left]

/-- The first message of the left participant is lost, and its result is that of the second one. So it
sends the fifth message, while the switch still has the first one of the right participant. -/
def lossy : List Act :=
  [.host left (.call call (memory 1 100)), .host right (.call call (memory 7 1000))] ++
    post left 4 ++ post right 2 ++
    (List.replicate 64 [.transmit left, .loseUp left, .transmit right, .inner (.arrive right)]).flatten ++
    (List.replicate 64 exchange).flatten ++
    (List.replicate 128 [.transmit left, .loseUp left]).flatten ++
    [.host left .fill,
      .host left (.poll [(1, call.sendRequest 0), (1, call.sendRequest 1), (1, call.recvRequest 0)]),
      .host left .fill, .transmit left, .inner (.arrive left), .inner (.internal 0),
      .inner (.internal 0), .inner (.internal 0)]

def outcome (c : Cluster) : Option (Nat × IbPsn × Value) × Nat :=
  (c.network.traffic.switch.results.getLast?.map fun r => (r.seq, r.hdr.roce.psn, r.hdr.aggregate 0),
    (c.network.packets right).length)

private theorem lossy_possible : Along (fun c a _ => Possible c a) start (runOf advance start lossy) ∧
    outcome (lossy.foldl advance start) = (some (256, 256, 107), 128) := by
  decide +kernel

/-- The last result adds a packet of the fifth message of the left participant to one of the first
message of the right one. -/
theorem lossy_not_summed :
    Along (Step Matcher.first asic Traffic.TwoPipes.channel) start (run lossy) ∧
      ∃ x ∈ run lossy, outcome x.2 = (some (256, 256, 107), 128) ∧
        ¬ Summed Traffic.TwoPipes.channel x.2.network := by
  obtain ⟨hpossible, houtcome⟩ := lossy_possible
  refine ⟨Along.of_acts hpossible fun _ _ ha => ha.step, ?_⟩
  have hne : lossy ≠ [] := by decide
  obtain ⟨x, hx, hlast⟩ := foldl_mem_runOfActs event advance start hne
  rw [← hlast] at houtcome
  refine ⟨x, hx, houtcome, fun hsummed => ?_⟩
  obtain ⟨hresult, hpackets⟩ := Prod.mk.inj houtcome
  obtain ⟨r, hr, hvalue⟩ := Option.map_eq_some_iff.1 hresult
  have hseq : r.seq = 256 := congrArg Prod.fst hvalue
  have hsent := hsummed.sent r (List.mem_of_getLast? hr) right (by decide)
  rw [hpackets, hseq] at hsent
  exact absurd hsent (by decide)

/-- A result is lost on its way to the right participant. -/
def lossDown : List Act :=
  [.host left (.call OneWord.call (memory 3 0)), .host right (.call OneWord.call (memory 4 0))] ++ post left 1 ++
    post right 1 ++ exchange ++ [.loseDown right]

def Act.Delivers : Act → Prop
  | .loseUp _ => False
  | _ => True

instance : ∀ a : Act, Decidable a.Delivers
  | .loseUp _ => isFalse id
  | .host _ _ | .transmit _ | .receive _ | .inner _ | .loseDown _ => isTrue trivial

theorem event_ne_loseUp {c : Cluster} {a : Act} (ha : Possible c a) (hdelivers : a.Delivers)
    (p : Participant) (k : Nat) : event c a ≠ .network (.loseUp p k) := by
  cases a with
  | host q a => cases a <;> nofun
  | inner e =>
      rintro heq
      obtain rfl := ClusterEvent.network.inj heq
      exact ha.2
  | loseUp q => exact absurd hdelivers id
  | transmit q | receive q | loseDown q => nofun

theorem lossDown_summed :
    outcome (lossDown.foldl advance start) = (some (0, 0, 7), 1) ∧
      ∀ x ∈ run lossDown, Summed Traffic.TwoPipes.channel x.2.network := by
  have hpossible : Along (fun c a _ => Possible c a ∧ a.Delivers) start (runOf advance start lossDown) := by
    decide +kernel
  exact ⟨by decide +kernel, run_summed (m := Matcher.first) Traffic.TwoPipes.wellFormed_repository
    (List.mem_singleton.2 rfl) (by decide) (by decide) (by decide)
    (programmed_of_initialSetup (distinct_of_wellFormed Traffic.TwoPipes.wellFormed_repository)
      Traffic.TwoPipes.programs_asic) (collective_of_initialSetup Traffic.TwoPipes.programs_asic)
    (Along.of_acts hpossible fun _ _ ha => ⟨ha.1.step, event_ne_loseUp ha.1 ha.2⟩)⟩

end TwoHosts

end Cluster

end Mpitofino
