import Mathlib.Tactic.Ring
import Mpitofino.Client.Progress
import Mpitofino.System.EndToEnd

/-!
# Progress of the cluster

The participants, the links and the switch do a bounded amount of work for each message of a call, in
whatever order. While a call is running in which all participants are, some of it can be done. So no
interleaving comes to a state in which a call cannot return.
-/

namespace Mpitofino

open AsicDriver ClientLib
open StateRepository (WellFormed)

/-! ### What is left to do -/

namespace ClientLib.Host

/-- What is left at a participant whose calls have so many messages, where a packet that is not sent has
to go through a switch with `n` participants. -/
def remaining (n messages : Nat) (h : Host) : Nat :=
  (8 * n + 7) * (64 * messages - h.sent) + (64 * messages - h.received) + (messages - h.due) +
    h.completions.length + if h.running.isSome then 1 else 0

end ClientLib.Host

/-- What is left of a packet inside the switch: the passes, and the copies of the result. -/
def Packet.remaining (n : Nat) (pkt : Packet) : Nat := (2 * n + 1) * (5 - Traffic.portRank pkt.port)

/-- What is left in the switch and at its fan-out ports. -/
def Network.remaining (n : Nat) (net : Network) : Nat :=
  (net.traffic.switch.inside.map (Packet.remaining n)).sum + 2 * net.copies.length

namespace Cluster

section Work

variable (rc : CollectiveChannel) (c : Cluster)

def remainingAt (p : Participant) : Nat :=
  (c.hosts p).remaining rc.members.length (messagesOf (c.calls p)) +
    (8 * rc.members.length + 5) * (c.network.uplink p).length + (c.network.downlink p).length

def remaining : Nat := (rc.members.map (c.remainingAt rc)).sum + c.network.remaining rc.members.length

/-- The most work that a participant's calls can be. -/
def costAt (p : Participant) : Nat :=
  (512 * (rc.members.length + 1) + 1) * messagesOf (c.calls p) + (c.calls p).length

def cost : Nat := (rc.members.map (c.costAt rc)).sum

/-- How much an event does: a round of the loop of a participant, a packet that is sent, that goes through
the switch or that is received. -/
def work (c : Cluster) (e : ClusterEvent) (c' : Cluster) : Nat :=
  match e with
  | .host p e => if p ∈ rc.members then e.work (c.hosts p) (c'.hosts p) else 0
  | .network (.receive p) => if p ∈ rc.members then 1 else 0
  | .network _ => 1

end Work

end Cluster

/-- No call begins. -/
def ClusterEvent.Continues : ClusterEvent → Prop
  | .host _ (.call _ _) => False
  | _ => True

/-- A call that begins has buffers with an alignment. -/
def ClusterEvent.WordAligned : ClusterEvent → Prop
  | .host _ (.call c _) => c.WordAligned
  | _ => True

/-! ### Every event pays for its work -/

namespace ClientLib.Host

variable {h h' : Host} {n messages : Nat}

theorem remaining_call (c : Allreduce) (mem : Memory) (hidle : h.running = none) (messages : Nat) :
    remaining n (messages + c.messages) { h with
      running := some ⟨c, mem, c.start mem, false⟩
      calls := h.calls + 1 } ≤ remaining n messages h + (512 * (n + 1) + 1) * c.messages + 1 := by
  have hsend : (8 * n + 7) * (64 * (messages + c.messages) - h.sent) ≤
      (8 * n + 7) * (64 * messages - h.sent) + (8 * n + 7) * (64 * c.messages) := by
    rw [← Nat.mul_add]
    exact Nat.mul_le_mul_left _ (by omega)
  have hcost : (512 * (n + 1) + 1) * c.messages =
      (8 * n + 7) * (64 * c.messages) + 64 * c.messages + c.messages := by ring
  rw [remaining, remaining, hidle, hcost]
  simp only [Option.isSome_some, if_true, Option.isSome_none, Bool.false_eq_true, if_false]
  omega

theorem remaining_round {e : Event} (hstep : Step h e h') (hround : e.Round) (hdue : h'.due ≤ messages) :
    e.work h h' + remaining n messages h' ≤ remaining n messages h := by
  cases hstep with
  | fill hrunning hcontinues hfill =>
      rw [Event.work, remaining, remaining, hrunning]
      simp only [post, Option.isSome_some, if_true] at hdue ⊢
      omega
  | @poll c input t t' polled rest wcs hrunning hcompletions hbatch hcompletes hloop =>
      have hlength : h.completions.length = polled.length + rest.length := by
        have hcount : ∀ l : List Posted, l.length = (directed .recv l).length + (directed .send l).length := by
          intro l
          induction l with
          | nil => rfl
          | cons w l ih =>
              rw [List.length_cons, ih]
              cases hd : w.2.direction <;> simp [directed, hd] <;> omega
        rw [hcount, hcompletions, hcompletions, hcount polled, hcount rest, List.length_append,
          List.length_append]
        omega
      rw [Event.work, remaining, remaining, hrunning, hlength]
      simp only [Option.isSome_some, if_true]
      omega
  | ret hrunning hends =>
      rw [Event.work, remaining, remaining, hrunning]
      simp only [Option.isSome_some, if_true, Option.isSome_none, Bool.false_eq_true, if_false]
      omega
  | call | transmit | receive => exact absurd hround id

theorem remaining_packetSent (w : Posted) (rest : List Posted) (hlt : h.sent < 64 * messages) :
    remaining n messages (h.packetSent w rest) + (8 * n + 6) ≤ remaining n messages h := by
  have hsend : (8 * n + 7) * (64 * messages - (h.sent + 1)) + (8 * n + 7) =
      (8 * n + 7) * (64 * messages - h.sent) := by
    rw [← Nat.mul_succ]
    congr 1
    omega
  have hcompletions : (h.packetSent w rest).completions.length ≤ h.completions.length + 1 := by
    rw [packetSent]
    split
    · rw [List.length_append, List.length_singleton]
    · exact Nat.le_succ _
  have hdue : (h.packetSent w rest).due = h.due := by
    rw [packetSent]
    split <;> rfl
  rw [remaining, remaining, packetSent_sent, packetSent_received, packetSent_running, hdue]
  omega

theorem remaining_packetReceived (psn : IbPsn) (words : AggregateH) (hlt : h.received < 64 * messages) :
    remaining n messages (h.packetReceived psn words) ≤ remaining n messages h := by
  have hrunning : (h.packetReceived psn words).running.isSome = h.running.isSome := by
    have hcall := congrArg Option.isSome (packetReceived_running h psn words)
    rwa [Option.isSome_map, Option.isSome_map] at hcall
  have hcompletions : (h.packetReceived psn words).completions.length ≤ h.completions.length + 1 := by
    refine packetReceived_cases (P := fun h' => h'.completions.length ≤ h.completions.length + 1) h psn
      words (fun w rest => ?_) (Nat.le_succ _)
    rw [packetTaken]
    split
    · rw [List.length_append]
      rfl
    · exact Nat.le_succ _
  have hdue : (h.packetReceived psn words).due = h.due := by
    refine packetReceived_cases (P := fun h' => h'.due = h.due) h psn words (fun w rest => ?_) rfl
    rw [packetTaken]
    split <;> rfl
  rw [remaining, remaining, packetReceived_sent, packetReceived_received, hrunning, hdue]
  omega

end ClientLib.Host

namespace Traffic

variable {rc : CollectiveChannel} {t t' : Traffic} {n : Nat}

/-- A packet that goes through the switch has less left, and what it is copied for is less than what it
had. -/
theorem Passed.remaining_lt {before after : List Packet} {pkt : Packet}
    (h : Passed rc t (before ++ after) pkt t') (hinside : t.switch.inside = before ++ pkt :: after)
    {distributed : List Result} (hresults : t'.switch.results = t.switch.results ++ distributed) :
    1 + ((t'.switch.inside.map (Packet.remaining n)).sum + 2 * (n * distributed.length)) ≤
      (t.switch.inside.map (Packet.remaining n)).sum := by
  have hnew : ∀ r, t.switch.results ++ [r] = t.switch.results ++ distributed → distributed.length = 1 :=
    fun r heq => by rw [← List.append_cancel_left heq]; rfl
  have hnone : t.switch.results = t.switch.results ++ distributed → distributed.length = 0 :=
    fun heq => by rw [List.append_right_eq_self.1 heq.symm]; rfl
  have hleft : Packet.remaining n pkt = (2 * n + 1) * (5 - portRank pkt.port) := rfl
  rw [hinside]
  simp only [List.map_append, List.map_cons, List.sum_append, List.sum_cons]
  have hnext : ∀ f port, ([⟨port, f, pkt.seq⟩].map (Packet.remaining n)).sum =
      (2 * n + 1) * (5 - portRank port) := fun f port => Nat.add_zero _
  have h68 : portRank 68 = 1 := rfl
  have h448 : portRank 448 = 2 := rfl
  have h452 : portRank 452 = 4 := rfl
  cases h with
  | handed f hport hbefore hinside' hresults' hafter =>
      rw [hnone (hresults'.symm.trans hresults), hinside', List.map_append, List.map_append,
        List.sum_append, List.sum_append, hnext, hleft, hport, h68, h448]
      omega
  | taken hport hbefore hresults' hafter =>
      rw [hnone (hresults'.symm.trans hresults), hleft, hport, h448]
      rcases hafter with ⟨f, hinside', -⟩ | ⟨hinside', -⟩
      · rw [hinside', List.map_append, List.map_append, List.sum_append, List.sum_append, hnext, h452]
        omega
      · rw [hinside', List.map_append, List.sum_append]
        omega
  | distributed pipe p f sum hport hpipe hf hfinishes hinside' hresults' hafter =>
      rw [hnew _ (hresults'.symm.trans hresults), hinside', List.map_append, List.sum_append, hleft]
      have hrank := portRank_le pkt.port
      have hmul : (2 * n + 1) * 1 ≤ (2 * n + 1) * (5 - portRank pkt.port) :=
        Nat.mul_le_mul_left _ (by omega)
      omega

end Traffic

namespace Network

variable {channels : List CollectiveChannel} {m : Matcher} {asic : Asic} {rc : CollectiveChannel}
  {n n' : Network}

theorem length_copiesOf_le (asic : Asic) (rc : CollectiveChannel) (results : List Result) :
    (results.flatMap (copiesOf asic rc)).length ≤ rc.members.length * results.length := by
  induction results with
  | nil => exact Nat.zero_le _
  | cons r results ih =>
      rw [List.flatMap_cons, List.length_append, List.length_cons, Nat.mul_succ]
      have hcopies : (copiesOf asic rc r).length ≤ rc.members.length := by
        rw [copiesOf, List.length_map]
        exact (List.length_filter_le ..).trans (List.length_zip.trans_le (Nat.min_le_left _ _))
      omega

theorem Carried.remaining_arrive (h : Serving channels asic rc) (hn : Carried asic rc n) {p : Participant}
    {f : Frame} {seq : Nat} {rest : List (Frame × Nat)} (huplink : n.uplink p = (f, seq) :: rest) (k : Nat) :
    p ∈ rc.members ∧ (((n.traffic.switch.process m asic ⟨p.switchPort, f, seq⟩).inside.map
      (Packet.remaining k)).sum ≤ (n.traffic.switch.inside.map (Packet.remaining k)).sum + (8 * k + 4)) := by
  obtain ⟨hp, hf⟩ := hn.packets p seq f (hn.head_uplink huplink).1
  obtain ⟨i, hi⟩ := List.mem_iff_getElem?.1 (mem_onPipe.2 ⟨hp, rfl⟩)
  refine ⟨hp, ?_⟩
  rw [Traffic.process_arrive h hi hf]
  dsimp only
  rw [List.map_append, List.sum_append]
  refine Nat.add_le_add_left ?_ _
  split
  · have hrank : 1 ≤ Traffic.portRank (recircPort (pipeOf p.switchPort)) := by
      rcases Traffic.pipe_of_member h hp with hpipe | hpipe <;> rw [hpipe] <;> decide
    have hmul : (2 * k + 1) * (5 - Traffic.portRank (recircPort (pipeOf p.switchPort))) ≤
        (2 * k + 1) * 4 := Nat.mul_le_mul_left _ (by omega)
    simp only [List.map_cons, List.map_nil, List.sum_cons, List.sum_nil, Packet.remaining]
    omega
  · exact Nat.zero_le _

theorem Carried.remaining_internal (h : Serving channels asic rc) (hn : Carried asic rc n)
    {before after : List Packet} {pkt : Packet}
    (hinside : n.traffic.switch.inside = before ++ pkt :: after) {sw : Switch} {distributed : List Result}
    (hprocess : { n.traffic.switch with inside := before ++ after }.process m asic pkt = sw)
    (hresults : sw.results = n.traffic.switch.results ++ distributed) :
    1 + remaining rc.members.length { n with
      traffic := ⟨sw, n.traffic.sent⟩
      copies := n.copies ++ distributed.flatMap (copiesOf asic rc) } ≤ n.remaining rc.members.length := by
  have hpassed := (hn.inv.passed (m := m) h hinside).2.2
  rw [hprocess] at hpassed
  have hlt := hpassed.remaining_lt (n := rc.members.length) hinside hresults
  have hcopies := length_copiesOf_le asic rc distributed
  rw [remaining, remaining]
  dsimp only at hlt ⊢
  rw [List.length_append]
  omega

end Network

namespace ClientLib.Host

variable {sentWords others : Nat → AggregateH} {h : Host} {calls : List (Allreduce × Memory)}

theorem Tracks.due_le (hh : Tracks sentWords others h calls) : h.due ≤ messagesOf calls := by
  rcases hh with ⟨-, hdue⟩ | ⟨earlier, k, r, rfl, hserves⟩
  · exact hdue.le
  · have hposted := hserves.inCall.loop.posted_le
    rw [messagesOf_append, hserves.inCall.due]
    exact Nat.add_le_add_left hposted _

end ClientLib.Host

namespace Cluster

section Steps

variable {channels : List CollectiveChannel} {m : Matcher} {asic : Asic} {rc : CollectiveChannel}
  {c c' : Cluster} {p : Participant}

theorem remainingAt_congr {q : Participant} (hhost : c'.hosts q = c.hosts q) (hcalls : c'.calls q = c.calls q)
    (huplink : c'.network.uplink q = c.network.uplink q)
    (hdownlink : c'.network.downlink q = c.network.downlink q) : c'.remainingAt rc q = c.remainingAt rc q := by
  rw [remainingAt, hhost, hcalls, huplink, hdownlink, remainingAt]

theorem costAt_congr {q : Participant} (hcalls : c'.calls q = c.calls q) : c'.costAt rc q = c.costAt rc q := by
  rw [costAt, hcalls, costAt]

theorem remaining_of_ne (h : Serving channels asic rc) (hp : p ∈ rc.members)
    (hothers : ∀ q ∈ rc.members, q ≠ p → c'.remainingAt rc q = c.remainingAt rc q) {w v : Nat}
    (hwork : w + c'.remainingAt rc p + c'.network.remaining rc.members.length ≤
      c.remainingAt rc p + c.network.remaining rc.members.length + v) : w + c'.remaining rc ≤ c.remaining rc + v := by
  have hleft := sum_map_of_ne h.nodup_members hp hothers
  rw [remaining, remaining]
  omega

theorem remaining_of_forall (hsame : ∀ q ∈ rc.members, c'.remainingAt rc q = c.remainingAt rc q) {w : Nat}
    (hwork : w + c'.network.remaining rc.members.length ≤ c.network.remaining rc.members.length) :
    w + c'.remaining rc ≤ c.remaining rc := by
  rw [remaining, remaining, List.map_congr_left hsame]
  omega

theorem cost_of_made (h : Serving channels asic rc) (hp : p ∈ rc.members) {hosts : Participant → Host}
    {made : List (Allreduce × Memory)} :
    cost rc { c with hosts := hosts, calls := Function.update c.calls p (c.calls p ++ made) } =
      c.cost rc + ((512 * (rc.members.length + 1) + 1) * messagesOf made + made.length) := by
  have hcost := sum_map_of_ne h.nodup_members hp (f := c.costAt rc)
    (g := costAt rc { c with hosts := hosts, calls := Function.update c.calls p (c.calls p ++ made) })
    fun q _ hq => costAt_congr (Function.update_of_ne hq ..)
  have hmade : costAt rc { c with
      hosts := hosts, calls := Function.update c.calls p (c.calls p ++ made) } p =
      c.costAt rc p + ((512 * (rc.members.length + 1) + 1) * messagesOf made + made.length) := by
    rw [costAt, costAt]
    dsimp only
    rw [Function.update_self, messagesOf_append, List.length_append, Nat.mul_add]
    omega
  rw [cost, cost]
  omega

theorem pays_host (h : Serving channels asic rc) (hp : p ∈ rc.members)
    {e : Host.Event} {host : Host} (hlocal : e.Local) (hhost : Host.Step (c.hosts p) e host)
    (hdue : host.due ≤ messagesOf (c.calls p ++ e.made)) :
    e.work (c.hosts p) host + remaining rc { c with
        hosts := Function.update c.hosts p host
        calls := Function.update c.calls p (c.calls p ++ e.made) } ≤
      c.remaining rc + ((512 * (rc.members.length + 1) + 1) * messagesOf e.made + e.made.length) := by
  refine remaining_of_ne h hp (fun q _ hq => ?_) ?_
  · exact remainingAt_congr (Function.update_of_ne hq ..) (Function.update_of_ne hq ..) rfl rfl
  · rw [remainingAt, remainingAt]
    dsimp only
    rw [Function.update_self, Function.update_self]
    cases e with
    | call call mem =>
        cases hhost with
        | call hidle =>
            have hcall := Host.remaining_call (n := rc.members.length) call mem hidle (messagesOf (c.calls p))
            have hmade : messagesOf (Host.Event.call call mem).made = call.messages := Nat.add_zero _
            have hlength : (Host.Event.call call mem).made.length = 1 := rfl
            rw [Host.Event.work, messagesOf_append, hmade, hlength]
            omega
    | fill | poll | ret =>
        have hround := Host.remaining_round (n := rc.members.length) hhost trivial hdue
        have hnone : c.calls p ++ [] = c.calls p := List.append_nil _
        simp only [Host.Event.made, hnone] at hround ⊢
        omega
    | transmit | receive => exact absurd hlocal id

theorem pays_send (h : Serving channels asic rc) {f : Frame} {host : Host}
    {n : Network} (hhost : Host.Step (c.hosts p) (.transmit f.aggregate) host)
    (hsend : Network.Step m asic rc c.network (.send p f) n) (hsent_le : host.sent ≤ 64 * messagesOf (c.calls p)) :
    1 + remaining rc { c with network := n, hosts := Function.update c.hosts p host } ≤ c.remaining rc + 0 := by
  cases hsend with
  | send hp hf =>
      refine remaining_of_ne h hp (fun q _ hq => ?_) ?_
      · exact remainingAt_congr (Function.update_of_ne hq ..) rfl (Function.update_of_ne hq ..) rfl
      · cases hhost with
        | @transmit w rest _ hsends hwords =>
            rw [Host.packetSent_sent] at hsent_le
            have hsent := Host.remaining_packetSent (n := rc.members.length) w rest hsent_le
            rw [remainingAt, remainingAt]
            dsimp only
            rw [Function.update_self, Function.update_self, List.length_append, List.length_singleton]
            change _ + _ + c.network.remaining _ ≤ _
            rw [Nat.mul_add]
            omega

theorem Working.pays_receive (h : Serving channels asic rc)
    (hc : Working asic rc c) {d : Delivery} {rest : List Delivery} {n : Network}
    (hdownlink : c.network.downlink p = d :: rest)
    (hreceive : Network.Step m asic rc c.network (.receive p) n) :
    (if p ∈ rc.members then 1 else 0) + remaining rc { c with
      network := n
      hosts := Function.update c.hosts p
        ((c.hosts p).packetReceived d.frame.roce.psn d.frame.aggregate) } ≤ c.remaining rc + 0 := by
  cases hreceive with
  | @receive _ d' rest' hdownlink' =>
      obtain ⟨rfl, rfl⟩ := List.cons.inj (hdownlink.symm.trans hdownlink')
      by_cases hp : p ∈ rc.members
      · rw [if_pos hp]
        refine remaining_of_ne h hp (fun q _ hq => ?_) ?_
        · exact remainingAt_congr (Function.update_of_ne hq ..) rfl rfl (Function.update_of_ne hq ..)
        obtain ⟨hlt, -, -⟩ := hc.delivery h hp hdownlink
        have hreceived := Host.remaining_packetReceived (n := rc.members.length) d.frame.roce.psn d.frame.aggregate
          (hlt.trans_le (hc.served p hp).tracks.sent_le)
        rw [remainingAt, remainingAt, hdownlink]
        dsimp only
        rw [Function.update_self, Function.update_self, List.length_cons]
        change _ + _ + c.network.remaining _ ≤ _
        omega
      · rw [if_neg hp]
        refine remaining_of_forall (fun q hq => ?_) (Nat.zero_add _).le
        have hne : q ≠ p := fun heq => hp (heq ▸ hq)
        exact remainingAt_congr (Function.update_of_ne hne ..) rfl rfl (Function.update_of_ne hne ..)

theorem Working.pays_inner (h : Serving channels asic rc)
    (hc : Working asic rc c) {e : NetworkEvent} {n : Network} (hinner : e.Inner) (hlossless : e.Lossless)
    (hstep : Network.Step m asic rc c.network e n) : 1 + remaining rc { c with network := n } ≤ c.remaining rc + 0 := by
  cases hstep with
  | @arrive p f seq rest huplink =>
      obtain ⟨hp, hinside⟩ := hc.fits.carried.remaining_arrive (m := m) h huplink rc.members.length
      refine remaining_of_ne h hp (fun q _ hq => ?_) ?_
      · exact remainingAt_congr rfl rfl (Function.update_of_ne hq ..) rfl
      · rw [remainingAt, remainingAt, Network.remaining, Network.remaining, huplink]
        dsimp only
        rw [Function.update_self, List.length_cons, Nat.mul_succ]
        omega
  | internal hinside hfirst hprocess hresults =>
      refine remaining_of_forall (fun q _ => ?_) (hc.fits.carried.remaining_internal h hinside hprocess hresults)
      exact remainingAt_congr rfl rfl rfl rfl
  | @fanOut before after copy hcopies hfirst =>
      have hcopy : copy ∈ c.network.copies := hcopies ▸ List.mem_append_right _ List.mem_cons_self
      rw [hc.fits.carried.fanOut_eq hcopy]
      obtain ⟨r, hr, hcopy⟩ := hc.fits.carried.copies copy hcopy
      have hp := (receiver_of_mem_copiesOf hcopy).1
      refine remaining_of_ne h hp (fun q _ hq => ?_) ?_
      · exact remainingAt_congr rfl rfl rfl (Function.update_of_ne hq ..)
      · rw [remainingAt, remainingAt, Network.remaining, Network.remaining, hcopies]
        dsimp only
        rw [Function.update_self, List.length_append, List.length_append, List.length_append,
          List.length_singleton, List.length_cons]
        omega
  | send | receive => exact absurd hinner id
  | loseUp | loseDown => exact absurd hlossless id

theorem work_inner {e : NetworkEvent} (hinner : e.Inner) : work rc c (.network e) c' = 1 := by
  cases e with
  | send | receive => exact absurd hinner id
  | arrive | internal | fanOut | loseUp | loseDown => rfl

/-- What an event does is paid from what is left. -/
theorem Working.pays (h : Serving channels asic rc)
    (hc : Working asic rc c) {e : ClusterEvent} (hstep : Step m asic rc c e c')
    (hregulated : c.Regulated rc e) : work rc c e c' + c'.remaining rc + c.cost rc ≤ c.remaining rc + c'.cost rc := by
  have hc' := hc.step h hstep hregulated
  cases hstep with
  | @host p e host hlocal hhost =>
      rw [work]
      dsimp only
      rw [Function.update_self]
      by_cases hp : p ∈ rc.members
      · have hdue := (hc'.served p hp).tracks.due_le
        dsimp only at hdue
        rw [Function.update_self, Function.update_self] at hdue
        have hpays := pays_host h hp hlocal hhost hdue
        rw [if_pos hp, cost_of_made h hp]
        omega
      · have hne : ∀ q ∈ rc.members, q ≠ p := by
          rintro q hq rfl
          exact hp hq
        rw [if_neg hp, Nat.zero_add, remaining, remaining, cost, cost]
        refine (congrArg₂ (· + ·) (congrArg (List.sum · + _) ?_) (congrArg List.sum ?_)).le
        · exact List.map_congr_left fun q hq => remainingAt_congr (Function.update_of_ne (hne q hq) ..)
            (Function.update_of_ne (hne q hq) ..) rfl rfl
        · exact List.map_congr_left fun q hq => (costAt_congr (Function.update_of_ne (hne q hq) ..)).symm
  | @send p f host n hhost hsend =>
      obtain ⟨hp, -, -⟩ := hsend.of_send
      have hsent_le := (hc'.served p hp).tracks.sent_le
      dsimp only at hsent_le
      rw [Function.update_self] at hsent_le
      exact Nat.add_le_add_right (pays_send h hhost hsend hsent_le) _
  | receive hdownlink hreceive =>
      exact Nat.add_le_add_right (hc.pays_receive h hdownlink hreceive) _
  | @inner e n hinner hnetwork =>
      rw [work_inner hinner]
      exact Nat.add_le_add_right (hc.pays_inner h hinner hregulated hnetwork) _

/-! ### Work can be done -/

/-- The packet with these words that a participant sends as the number `seq`. -/
def packetOf (rc : CollectiveChannel) (p : Participant) (seq : Nat) (words : AggregateH) : Frame where
  ethernet := ⟨rc.fabricMac, p.mac, EtherType.ipv4⟩
  ipv4 := ⟨4, 5, 0, 300, 0, 2, 0, 64, Ipv4Protocol.udp, 0, p.ip, rc.fabricIp⟩
  udp := ⟨49152, 4791, 280, 0⟩
  roce := ⟨7, 0, 0, 0, 0xffff, 0, 0, p.fabricQp, 0, 0, BitVec.ofNat 24 seq⟩
  aggregate := words
  roceAck := ⟨0, 0, 0⟩
  icrc := 0

theorem sentBy_packetOf (rc : CollectiveChannel) (p : Participant) (seq : Nat) (words : AggregateH) :
    SentBy rc p seq (packetOf rc p seq words) := ⟨⟨rfl, rfl, rfl, rfl⟩, rfl, rfl, rfl, rfl, rfl⟩

/-- An event that begins no call, where nothing is lost. -/
def Continues (m : Matcher) (asic : Asic) (rc : CollectiveChannel) (c : Cluster) (e : ClusterEvent)
    (c' : Cluster) : Prop :=
  Step m asic rc c e c' ∧ c.Regulated rc e ∧ e.Continues

theorem Continues.calls {e : ClusterEvent} (h : Continues m asic rc c e c') : c'.calls = c.calls := by
  obtain ⟨hstep, -, hcontinues⟩ := h
  cases hstep with
  | @host p e host hlocal hhost =>
      have hmade : e.made = [] := by
        cases e with
        | call => exact absurd hcontinues id
        | _ => rfl
      dsimp only
      rw [hmade, List.append_nil, Function.update_eq_self]
  | send | receive | inner => rfl

/-- Where nothing is on its way, the participants have received the results of all numbers that all of them
have sent. -/
theorem Working.drained (h : Serving channels asic rc) (hdelivers : Delivers asic rc)
    (hc : Working asic rc c) (huplink : ∀ p, c.network.uplink p = [])
    (hinside : c.network.traffic.switch.inside = []) (hcopies : c.network.copies = [])
    (hdownlink : ∀ p ∈ rc.members, c.network.downlink p = []) :
    ∃ received, (∀ p ∈ rc.members, (c.hosts p).received = received ∧ received ≤ (c.hosts p).sent) ∧
      ∃ q ∈ rc.members, (c.hosts q).sent = received := by
  have hcarried := hc.fits.carried
  have hreceived : ∀ p ∈ rc.members,
      (c.hosts p).received = c.network.traffic.switch.results.length := by
    intro p hp
    have hall := Network.forall₂_distributedTo h.nodup_members (supplied_of_delivers hdelivers hp)
      fun r hr => hcarried.groups hr
    have hstream := hc.streams p hp
    rw [Network.stream, hdownlink p hp, hcopies, List.append_nil] at hstream
    rw [← hc.fits.received p hp, hall.length_eq]
    exact congrArg List.length ((List.append_nil _).symm.trans hstream)
  have hle : ∀ p ∈ rc.members, c.network.traffic.switch.results.length ≤ (c.hosts p).sent := by
    intro p hp
    rw [← hreceived p hp, ← hc.fits.sent p hp]
    exact hc.received_le h hp hp
  refine ⟨_, fun p hp => ⟨hreceived p hp, hle p hp⟩, ?_⟩
  by_contra hnone
  -- the first number without a result would have been sent by all
  have hsent : ∀ p ∈ rc.members,
      (c.network.traffic.sent p c.network.traffic.switch.results.length).isSome := by
    intro p hp
    have hlt : c.network.traffic.switch.results.length < (c.hosts p).sent :=
      lt_of_le_of_ne (hle p hp) fun heq => hnone ⟨p, hp, heq.symm⟩
    obtain ⟨arrived, -, hdrop, harrived⟩ := hcarried.uplinks p
    rw [huplink p, eq_comm, List.drop_eq_nil_iff, List.length_zipIdx] at hdrop
    rw [harrived, List.take_of_length_le hdrop, isSome_getElem?, hc.fits.sent p hp]
    exact hlt
  obtain ⟨r, hr, hseq⟩ := hcarried.inv.finished h hsent fun pkt hpkt => by
    rw [hinside] at hpkt
    contradiction
  have hmem := List.mem_map_of_mem (f := Result.seq) hr
  rw [hcarried.ordered.results, hseq, List.mem_range] at hmem
  exact lt_irrefl _ hmem

theorem exists_rounds (hp : p ∈ rc.members) {run : List (Host.Event × Host)}
    (hrun : Along (fun h e h' => Host.Step h e h' ∧ e.Round) (c.hosts p) run) :
    ∃ run', Along (Continues m asic rc) c run' ∧
      workOf (work rc) c run' = workOf Host.Event.work (c.hosts p) run := by
  generalize hhost : c.hosts p = host at hrun
  induction run generalizing c host with
  | nil => exact ⟨[], trivial, rfl⟩
  | cons x run ih =>
      obtain ⟨e, host'⟩ := x
      obtain ⟨⟨hstep, hround⟩, hrest⟩ := hrun
      subst hhost
      have hevent : e.Local ∧ c.Regulated rc (.host p e) ∧ (ClusterEvent.host p e).Continues := by
        cases e with
        | call | transmit | receive => exact absurd hround id
        | fill | poll | ret => exact ⟨trivial, trivial, trivial⟩
      have hnext : Step m asic rc c (.host p e) _ := .host hevent.1 hstep
      obtain ⟨run', hrun', hwork⟩ := ih (c := { c with
        hosts := Function.update c.hosts p host'
        calls := Function.update c.calls p (c.calls p ++ e.made) }) _ (Function.update_self ..) hrest
      refine ⟨(_, _) :: run', ⟨⟨hnext, hevent.2⟩, hrun'⟩, ?_⟩
      rw [workOf, workOf, hwork, work, if_pos hp]
      dsimp only
      rw [Function.update_self]

theorem continues_inner {e : NetworkEvent} {n : Network} (hstep : Network.Step m asic rc c.network e n)
    (hinner : e.Inner) (hlossless : e.Lossless) :
    ∃ e c', Continues m asic rc c e c' ∧ work rc c e c' = 1 :=
  ⟨_, _, ⟨.inner hinner hstep, hlossless, trivial⟩, work_inner hinner⟩

variable (m asic) in
theorem exists_inner (hway : ¬ ((∀ p, c.network.uplink p = []) ∧ c.network.traffic.switch.inside = [] ∧
      c.network.copies = [] ∧ ∀ p ∈ rc.members, c.network.downlink p = [])) :
    ∃ e c', Continues m asic rc c e c' ∧ work rc c e c' = 1 := by
  by_cases huplink : ∀ p, c.network.uplink p = []
  · by_cases hinside : c.network.traffic.switch.inside = []
    · by_cases hcopies : c.network.copies = []
      · obtain ⟨p, hp, hne⟩ : ∃ p ∈ rc.members, c.network.downlink p ≠ [] := by
          by_contra hnone
          exact hway ⟨huplink, hinside, hcopies, fun p hp => by_contra fun hne => hnone ⟨p, hp, hne⟩⟩
        obtain ⟨d, rest, hdownlink⟩ := List.exists_cons_of_ne_nil hne
        exact ⟨_, _, ⟨.receive hdownlink (.receive hdownlink), trivial, trivial⟩, if_pos hp⟩
      · obtain ⟨copy, rest, hcopies⟩ := List.exists_cons_of_ne_nil hcopies
        exact continues_inner (@Network.Step.fanOut _ _ _ _ [] rest copy hcopies nofun) trivial trivial
    · obtain ⟨pkt, rest, hinside⟩ := List.exists_cons_of_ne_nil hinside
      have hresults : ∃ distributed, ({ c.network.traffic.switch with inside := [] ++ rest }.process m asic
          pkt).results = c.network.traffic.switch.results ++ distributed := ⟨_, rfl⟩
      obtain ⟨distributed, hresults⟩ := hresults
      exact continues_inner (@Network.Step.internal _ _ _ _ [] rest pkt hinside nofun _ _ rfl hresults)
        trivial trivial
  · obtain ⟨p, hne⟩ := not_forall.1 huplink
    obtain ⟨⟨f, seq⟩, rest, huplink⟩ := List.exists_cons_of_ne_nil hne
    exact continues_inner (.arrive huplink) trivial trivial

theorem Working.exists_host (hc : Working asic rc c) (hp : p ∈ rc.members) {r : Running}
    (hrunning : (c.hosts p).running = some r) (haligned : r.call.WordAligned)
    (hreceived : (c.hosts p).received = (c.hosts p).sent) :
    ∃ run, Along (Continues m asic rc) c run ∧ 0 < workOf (work rc) c run := by
  by_cases hsends : (c.hosts p).sends = []
  · obtain ⟨earlier, k, -, hserves⟩ := (hc.served p hp).tracks.serves hrunning
    obtain ⟨run, hrun, hpositive⟩ := hserves.exists_round haligned hsends hreceived
    obtain ⟨run', hrun', hwork⟩ := exists_rounds hp hrun
    exact ⟨run', hrun', by rwa [hwork]⟩
  · obtain ⟨w, rest, hsends⟩ := List.exists_cons_of_ne_nil hsends
    have hstep : Host.Step (c.hosts p) (.transmit (packetOf rc p (c.network.packets p).length
        (Host.readPacket w.2.addr ((c.hosts p).sent % 64) r.loop.mem)).aggregate)
        ((c.hosts p).packetSent w rest) := by
      refine .transmit hsends fun r' hr' => ?_
      obtain rfl := Option.some.inj (hrunning.symm.trans hr')
      rfl
    exact ⟨[(_, _)], ⟨⟨.send hstep (.send hp (sentBy_packetOf ..)), trivial, trivial⟩, trivial⟩, Nat.one_pos⟩

/-- The calls of the participants have come to the same number, and their buffers have an alignment. -/
structure Balanced (rc : CollectiveChannel) (c : Cluster) : Prop where
  calls : ∀ p ∈ rc.members, ∀ q ∈ rc.members, (c.calls p).length = (c.calls q).length
  aligned : ∀ p ∈ rc.members, ∀ x ∈ c.calls p, x.1.WordAligned

/-- While a call is running, something can be done. -/
theorem Working.progresses (h : Serving channels asic rc) (hdelivers : Delivers asic rc)
    (hc : Working asic rc c) (hbalanced : c.Balanced rc)
    (hrunning : ¬ ∀ p ∈ rc.members, (c.hosts p).running = none) :
    ∃ run, Along (Continues m asic rc) c run ∧ 0 < workOf (work rc) c run := by
  by_cases hdrained : (∀ p, c.network.uplink p = []) ∧ c.network.traffic.switch.inside = [] ∧
      c.network.copies = [] ∧ ∀ p ∈ rc.members, c.network.downlink p = []
  · obtain ⟨huplink, hinside, hcopies, hdownlink⟩ := hdrained
    obtain ⟨received, hall, q, hq, hsent⟩ :=
      hc.drained h hdelivers huplink hinside hcopies hdownlink
    obtain ⟨p, hp, hrunning⟩ : ∃ p ∈ rc.members, (c.hosts p).running ≠ none := by
      by_contra hnone
      exact hrunning fun p hp => by_contra fun hne => hnone ⟨p, hp, hne⟩
    -- one that runs has sent no more than it received
    obtain ⟨p, hp, hrunning, hsent⟩ : ∃ p ∈ rc.members, (c.hosts p).running ≠ none ∧
        (c.hosts p).sent = received := by
      by_cases hidle : (c.hosts q).running = none
      · refine ⟨p, hp, hrunning, Nat.le_antisymm ?_ (hall p hp).2⟩
        obtain ⟨hrests, hdue⟩ := (hc.served q hq).tracks.rests hidle
        have hmessages := messagesOf_take_eq hc hp hq (n := (c.calls p).length) (Nat.le_refl _)
          (hbalanced.calls p hp q hq).le
        rw [List.take_length, hbalanced.calls p hp q hq, List.take_length] at hmessages
        have hle := (hc.served p hp).tracks.sent_le
        rw [hmessages, ← hdue, ← hrests.sent, hsent] at hle
        exact hle
      · exact ⟨q, hq, hidle, hsent⟩
    obtain ⟨r, hrunning⟩ := Option.ne_none_iff_exists'.1 hrunning
    obtain ⟨earlier, k, hcalls, -⟩ := (hc.served p hp).tracks.serves hrunning
    refine hc.exists_host hp hrunning (hbalanced.aligned p hp (r.call, r.input) ?_)
      ((hall p hp).1.trans hsent.symm)
    rw [hcalls]
    exact List.mem_append_right _ List.mem_cons_self
  · obtain ⟨e, c', hstep, hwork⟩ := exists_inner m asic hdrained
    refine ⟨[(e, c')], ⟨hstep, trivial⟩, ?_⟩
    rw [workOf, hwork]
    exact Nat.add_pos_left Nat.one_pos _

theorem Balanced.step (hc : c.Balanced rc) {e : ClusterEvent} (hstep : Continues m asic rc c e c') :
    c'.Balanced rc := by
  obtain ⟨hcalls, haligned⟩ := hc
  rw [← hstep.calls] at hcalls haligned
  exact ⟨hcalls, haligned⟩

theorem aligned_step (haligned : ∀ p ∈ rc.members, ∀ x ∈ c.calls p, x.1.WordAligned) {e : ClusterEvent}
    (hstep : Step m asic rc c e c') (he : e.WordAligned) :
    ∀ p ∈ rc.members, ∀ x ∈ c'.calls p, x.1.WordAligned := by
  cases hstep with
  | @host q e host hlocal hhost =>
      intro p hp x hx
      dsimp only at hx
      by_cases hpq : p = q
      · subst hpq
        rw [Function.update_self] at hx
        rcases List.mem_append.1 hx with hx | hx
        · exact haligned p hp x hx
        · cases e with
          | call call mem =>
              rw [List.mem_singleton.1 hx]
              exact he
          | _ => contradiction
      · rw [Function.update_of_ne hpq] at hx
        exact haligned p hp x hx
  | send | receive | inner => exact haligned

/-! ### Runs -/

section Runs

variable {r : StateRepository} {run : List (ClusterEvent × Cluster)}

theorem cost_start (rc : CollectiveChannel) : start.remaining rc = 0 ∧ start.cost rc = 0 := by
  have hzero : ∀ l : List Participant, (l.map fun _ => 0).sum = 0 := by
    intro l
    induction l with
    | nil => rfl
    | cons p l ih => exact (Nat.zero_add _).trans ih
  have hleft : start.remainingAt rc = fun _ => 0 := by
    funext p
    change (8 * rc.members.length + 7) * 0 + 0 + 0 + 0 + 0 + (8 * rc.members.length + 5) * 0 + 0 = 0
    rw [Nat.mul_zero, Nat.mul_zero]
  have hcost : start.costAt rc = fun _ => 0 := by
    funext p
    change (512 * (rc.members.length + 1) + 1) * 0 + 0 = 0
    rw [Nat.mul_zero]
  have hnetwork : start.network.remaining rc.members.length = 0 := rfl
  rw [remaining, cost, hleft, hcost, hzero, hnetwork]
  exact ⟨rfl, rfl⟩

/-- **Bounded work.** In every run of the participants of a programmed channel on a network that loses
nothing, the postings, completions and returns, the packets on the links and those inside the switch are no
more than the messages of the calls so far are worth, and the calls. A poll that gets nothing is no work. -/
theorem run_bounded (hr : WellFormed r) (hknown : rc ∈ knownChannels r.getChannels)
    (hnonempty : rc.members ≠ []) (hports : ∀ p ∈ rc.members, p.switchPort ∈ frontPanelPorts)
    (haddresses : (rc.members.map fun p => (p.ip, p.fabricQp)).Nodup)
    (hprogrammed : Programmed r.getChannels asic)
    (hcollective : asic.switchingTable.lookup rc.fabricMac = some .collective)
    (hrun : Along (fun c e c' => Step m asic rc c e c' ∧ c.Regulated rc e) start run) :
    workOf (work rc) start run + (finalState start run).remaining rc ≤ (finalState start run).cost rc := by
  have h := serving_of_programmed hr hknown hnonempty hports haddresses hprogrammed hcollective
  have hpaid := hrun.workOf_add_le (I := Working asic rc) (μ := remaining rc) (ν := cost rc)
    (fun _ _ _ hc hstep => hc.step h hstep.1 hstep.2)
    (fun _ _ _ hc hstep => hc.pays h hstep.1 hstep.2) (working_start h)
  rwa [(cost_start rc).1, (cost_start rc).2, Nat.zero_add, Nat.add_zero] at hpaid

/-- **Every call can return.** However a run of the participants of a programmed channel on a network that
loses nothing went so far, if neighbouring channels share their ports: once all of them have made the same
number of calls, it can go on, without another call, until every call has returned, each with its sums. -/
theorem run_completes (hr : WellFormed r) (hknown : rc ∈ knownChannels r.getChannels)
    (hnonempty : rc.members ≠ []) (hports : ∀ p ∈ rc.members, p.switchPort ∈ frontPanelPorts)
    (haddresses : (rc.members.map fun p => (p.ip, p.fabricQp)).Nodup)
    (hprogrammed : Programmed r.getChannels asic) (hshare : SharePorts (knownChannels r.getChannels))
    (hcollective : asic.switchingTable.lookup rc.fabricMac = some .collective)
    (hrun : Along (fun c e c' => (Step m asic rc c e c' ∧ c.Regulated rc e) ∧ e.WordAligned) start run)
    (hcalls : ∀ p ∈ rc.members, ∀ q ∈ rc.members,
      ((finalState start run).calls p).length = ((finalState start run).calls q).length) :
    ∃ rest, Along (Continues m asic rc) (finalState start run) rest ∧
      Along (fun c e _ => c.Summing rc e) (finalState start run) rest ∧
      ∀ p ∈ rc.members, ((finalState (finalState start run) rest).hosts p).running = none := by
  have h := serving_of_programmed hr hknown hnonempty hports haddresses hprogrammed hcollective
  have hdistinct := distinct_of_wellFormed hr
  have hdelivers := delivers_of_sharePorts (hprogrammed.groups hdistinct) hdistinct hshare hknown
  obtain ⟨hworking, haligned⟩ := hrun.final
    (I := fun c => Working asic rc c ∧ ∀ p ∈ rc.members, ∀ x ∈ c.calls p, x.1.WordAligned)
    (fun _ _ _ hc hstep => ⟨hc.1.step h hstep.1.1 hstep.1.2,
      aligned_step hc.2 hstep.1.1 hstep.2⟩)
    ⟨working_start h, fun p _ x hx => by contradiction⟩
  have hstep : ∀ c e c', Working asic rc c ∧ c.Balanced rc → Continues m asic rc c e c' →
      Working asic rc c' ∧ c'.Balanced rc := fun _ _ _ hc hstep =>
    ⟨hc.1.step h hstep.1 hstep.2.1, hc.2.step hstep⟩
  have hwork : ∀ c e c', Working asic rc c ∧ c.Balanced rc → Continues m asic rc c e c' →
      work rc c e c' + c'.remaining rc ≤ c.remaining rc := by
    intro c e c' hc hstep
    have hpays := hc.1.pays h hstep.1 hstep.2.1
    have hcost : c'.cost rc = c.cost rc :=
      congrArg List.sum (List.map_congr_left fun p _ => costAt_congr (congrFun hstep.calls p))
    omega
  obtain ⟨rest, hrest, hdone⟩ := Along.exists_done
    (D := fun c => ∀ p ∈ rc.members, (c.hosts p).running = none) hstep hwork
    (fun c hc hrunning => hc.1.progresses h hdelivers hc.2 hrunning)
    ⟨hworking, ⟨hcalls, haligned⟩⟩
  exact ⟨rest, hrest, hrest.imp hstep (fun _ _ _ hc hstep => hc.1.summing hstep.1 h)
    ⟨hworking, ⟨hcalls, haligned⟩⟩, hdone⟩

end Runs

end Steps

/-! ### Two participants -/

namespace TwoHosts

open Traffic.TwoPipes (asic channel left right)

/-- Both call, and the sum of the left one waits in the switch. -/
def waiting : List Act :=
  [.host left (.call OneWord.call (memory 3 0)), .host right (.call OneWord.call (memory 4 0))] ++
    post left 1 ++ [.transmit left, .inner (.arrive left), .inner (.internal 0), .inner (.internal 0)]

def Act.WordAligned : Act → Prop
  | .host _ (.call c _) => c.WordAligned
  | _ => True

instance : ∀ a : Act, Decidable a.WordAligned
  | .host _ (.call c _) => inferInstanceAs (Decidable c.WordAligned)
  | .host _ .fill | .host _ (.poll _) | .host _ .ret | .host _ .transmit | .host _ .receive
  | .host _ .fillThrows | .host _ (.postThrows _) | .host _ (.completionThrows _) | .transmit _
  | .receive _ | .inner _ | .loseUp _ | .loseDown _ => isTrue trivial

theorem event_wordAligned {c : Cluster} {a : Act} (ha : a.WordAligned) : (event c a).WordAligned := by
  cases a with
  | host p a =>
      cases a with
      | call call mem => exact ha
      | _ => trivial
  | _ => trivial

theorem finalState_run (acts : List Act) : finalState start (run acts) = acts.foldl advance start := by
  rw [run]
  generalize start = c
  induction acts generalizing c with
  | nil => rfl
  | cons a acts ih => exact (finalState_cons ..).trans (ih (advance c a))

private theorem waiting_possible :
    Along (fun c a _ => (Possible c a ∧ a.Lossless) ∧ a.WordAligned) start (runOf advance start waiting) ∧
      ∀ p ∈ channel.members, ((waiting.foldl advance start).calls p).length = 1 := by
  decide +kernel

private theorem waiting_along : Along (fun c e c' => (Step Matcher.first asic channel c e c' ∧
    c.Regulated channel e) ∧ e.WordAligned) start (run waiting) :=
  Along.of_acts waiting_possible.1 fun _ _ ha =>
    ⟨⟨ha.1.1.step, ha.1.1.regulated ha.1.2⟩, event_wordAligned ha.2⟩

/-- Five of the events did some work. -/
theorem waiting_bounded : workOf (work channel) start (run waiting) = 5 ∧
    workOf (work channel) start (run waiting) + (finalState start (run waiting)).remaining channel ≤
      (finalState start (run waiting)).cost channel :=
  ⟨by decide +kernel, run_bounded (m := Matcher.first) Traffic.TwoPipes.wellFormed_repository
    (List.mem_singleton.2 rfl) (by decide) (by decide) (by decide)
    (programmed_of_initialSetup (distinct_of_wellFormed Traffic.TwoPipes.wellFormed_repository)
      Traffic.TwoPipes.programs_asic) (collective_of_initialSetup Traffic.TwoPipes.programs_asic)
    (waiting_along.mono fun _ _ _ hstep => hstep.1)⟩

/-- From there both calls can return. -/
theorem waiting_completes : ∃ rest, Along (Continues Matcher.first asic channel)
      (finalState start (run waiting)) rest ∧
    Along (fun c e _ => c.Summing channel e) (finalState start (run waiting)) rest ∧
    ∀ p ∈ channel.members, ((finalState (finalState start (run waiting)) rest).hosts p).running = none :=
  run_completes Traffic.TwoPipes.wellFormed_repository (List.mem_singleton.2 rfl) (by decide) (by decide)
    (by decide) (programmed_of_initialSetup (distinct_of_wellFormed Traffic.TwoPipes.wellFormed_repository)
      Traffic.TwoPipes.programs_asic) (by decide) (collective_of_initialSetup Traffic.TwoPipes.programs_asic)
    waiting_along fun p hp q hq => by
      rw [finalState_run, waiting_possible.2 p hp, waiting_possible.2 q hq]

end TwoHosts

end Cluster

end Mpitofino
