import Mathlib.Algebra.BigOperators.Pi
import Mpitofino.Client.Results
import Mpitofino.System.Cluster

/-!
# Allreduce

The participants of a channel call `allreduce` with the same counts on a network that loses nothing. A
call that returns has the sums of what all of them passed to it, however packets, completions and polls
interleave.
-/

namespace Mpitofino

open AsicDriver ClientLib
open StateRepository (WellFormed)

/-! ### A participant -/

namespace ClientLib

def messagesOf (calls : List (Allreduce × Memory)) : Nat := (calls.map fun x => x.1.messages).sum

theorem messagesOf_cons (x : Allreduce × Memory) (calls : List (Allreduce × Memory)) :
    messagesOf (x :: calls) = x.1.messages + messagesOf calls := by
  rw [messagesOf, List.map_cons, List.sum_cons, messagesOf]

theorem messagesOf_append (calls calls' : List (Allreduce × Memory)) :
    messagesOf (calls ++ calls') = messagesOf calls + messagesOf calls' := by
  rw [messagesOf, List.map_append, List.sum_append, messagesOf, messagesOf]

theorem messagesOf_take {calls : List (Allreduce × Memory)} {n : Nat} {x : Allreduce × Memory}
    (hx : calls[n]? = some x) : messagesOf (calls.take n) + x.1.messages ≤ messagesOf calls := by
  obtain ⟨hlt, rfl⟩ := List.getElem?_eq_some_iff.1 hx
  have hsplit := congrArg messagesOf (List.take_append_drop n calls)
  rw [List.drop_eq_getElem_cons hlt, messagesOf_append, messagesOf_cons] at hsplit
  omega

theorem messagesOf_take_le (calls : List (Allreduce × Memory)) (n : Nat) :
    messagesOf (calls.take n) ≤ messagesOf calls := by
  conv_rhs => rw [← List.take_append_drop n calls, messagesOf_append]
  exact Nat.le_add_right _ _

theorem packet_lt {c : Allreduce} {i : Nat} (hi : i < c.count) : i / 64 < 64 * c.messages := by
  rw [Allreduce.messages, Allreduce.size_eq, chunkSize]
  omega

namespace Host

/-- The participant is where its calls are: between two of them, or in the last one. -/
def Tracks (sentWords others : Nat → AggregateH) (h : Host) (calls : List (Allreduce × Memory)) : Prop :=
  (Rests h ∧ h.due = messagesOf calls) ∨
    ∃ earlier k r, calls = earlier ++ [(r.call, r.input)] ∧
      Serves sentWords others h (messagesOf earlier) k r

variable {sentWords others : Nat → AggregateH} {h h' : Host} {calls : List (Allreduce × Memory)}

theorem tracks_start : Tracks sentWords others start [] := Or.inl ⟨rests_start, rfl⟩

theorem Tracks.congr {sentWords' others' : Nat → AggregateH} (hh : Tracks sentWords others h calls)
    (hsent : ∀ seq < h.sent, sentWords' seq = sentWords seq)
    (hothers : ∀ seq < h.received, others' seq = others seq) : Tracks sentWords' others' h calls := by
  rcases hh with hrests | ⟨earlier, k, r, hcalls, hserves⟩
  · exact Or.inl hrests
  · exact Or.inr ⟨earlier, k, r, hcalls, hserves.congr hsent hothers⟩

theorem Tracks.sent_le (hh : Tracks sentWords others h calls) : h.sent ≤ 64 * messagesOf calls := by
  rcases hh with ⟨hrests, hdue⟩ | ⟨earlier, k, r, rfl, hserves⟩
  · rw [hrests.sent, hdue]
  · have hsent_le := hserves.inCall.counts.sent_le
    have hposted := hserves.inCall.loop.posted_le
    rw [messagesOf_append]
    change _ ≤ 64 * (messagesOf earlier + (r.call.messages + 0))
    omega

theorem Tracks.serves (hh : Tracks sentWords others h calls) {r : Running} (hrunning : h.running = some r) :
    ∃ earlier k, calls = earlier ++ [(r.call, r.input)] ∧
      Serves sentWords others h (messagesOf earlier) k r := by
  rcases hh with ⟨hrests, -⟩ | ⟨earlier, k, r', hcalls, hserves⟩
  · rw [hrests.idle.running] at hrunning
    contradiction
  · obtain rfl := Option.some.inj (hserves.inCall.running.symm.trans hrunning)
    exact ⟨earlier, k, hcalls, hserves⟩

theorem Tracks.rests (hh : Tracks sentWords others h calls) (hrunning : h.running = none) :
    Rests h ∧ h.due = messagesOf calls := by
  rcases hh with hrests | ⟨earlier, k, r, -, hserves⟩
  · exact hrests
  · rw [hserves.inCall.running] at hrunning
    contradiction

theorem Tracks.step {e : Event} (hh : Tracks sentWords others h calls) (hstep : Step h e h')
    (hlocal : e.Local) (hadmissible : ∀ c mem, e = .call c mem → c.Admissible) :
    Tracks sentWords others h' (calls ++ e.made) := by
  cases hstep with
  | @call c mem hidle =>
      obtain ⟨hrests, hdue⟩ := hh.rests hidle
      refine Or.inr ⟨calls, {}, ⟨c, mem, c.start mem, false⟩, rfl, ?_⟩
      rw [← hdue]
      exact hrests.call (hadmissible c mem rfl) mem
  | @fill c input t t' posted hrunning hcontinues hfill =>
      obtain ⟨earlier, k, rfl, hserves⟩ := hh.serves hrunning
      obtain ⟨k', hserves'⟩ := hserves.fill hfill
      exact Or.inr ⟨earlier, k', ⟨c, input, t', true⟩, List.append_nil _, hserves'⟩
  | @poll c input t t' polled rest wcs hrunning hcompletions hbatch hcompletes hloop =>
      obtain ⟨earlier, k, rfl, hserves⟩ := hh.serves hrunning
      obtain ⟨k', hserves'⟩ := hserves.poll hcompletions hcompletes hloop
      exact Or.inr ⟨earlier, k', ⟨c, input, t', false⟩, List.append_nil _, hserves'⟩
  | @ret c input t hrunning hends =>
      obtain ⟨earlier, k, rfl, hserves⟩ := hh.serves hrunning
      have hsize := (hserves.inCall.ret hends).2.2
      refine Or.inl ⟨(hserves.ret hends).1, ?_⟩
      change h.due = messagesOf (earlier ++ [(c, input)] ++ [])
      rw [List.append_nil, messagesOf_append]
      exact hserves.inCall.due.trans (congrArg _ (hserves.inCall.loop.posted_eq hsize))
  | transmit | receive => exact absurd hlocal id

theorem Tracks.transmit (hh : Tracks sentWords others h calls)
    (hstep : Step h (.transmit (sentWords h.sent)) h') : Tracks sentWords others h' calls ∧
      ∀ n x, calls[n]? = some x → ∀ i < x.1.count, 64 * messagesOf (calls.take n) + i / 64 = h.sent →
        sentWords h.sent (lane i) = x.2 (x.1.sbuf / 4 + i) := by
  obtain ⟨-, hsent', -⟩ := hstep.counts_of_transmit
  cases hstep with
  | transmit hsends hwords =>
      rcases hh with ⟨hrests, -⟩ | ⟨earlier, k, r, rfl, hserves⟩
      · rw [hrests.idle.sends] at hsends
        contradiction
      · obtain ⟨k', hserves'⟩ := hserves.transmit hsends (hwords r hserves.inCall.running).symm
        refine ⟨Or.inr ⟨earlier, k', r, rfl, hserves'⟩, fun n x hx i hi heq => ?_⟩
        have hsent := hserves.inCall.counts.sent
        have hn : n ≤ earlier.length := by
          have hlt := (List.getElem?_eq_some_iff.1 hx).1
          rw [List.length_append, List.length_singleton] at hlt
          omega
        rw [List.take_append_of_le_length hn] at heq
        rcases Nat.lt_or_eq_of_le hn with hlt | rfl
        · rw [List.getElem?_append_left hlt] at hx
          have htake := messagesOf_take hx
          have hpacket := packet_lt hi
          omega
        · rw [List.getElem?_concat_length] at hx
          obtain rfl := Option.some.inj hx
          rw [List.take_length] at heq
          rw [← heq]
          exact hserves'.recorded i hi (by omega)

theorem Tracks.receive (hh : Tracks sentWords others h calls) (hlt : h.received < h.sent) :
    Tracks sentWords others
      (h.packetReceived (BitVec.ofNat 24 h.received) (sentWords h.received + others h.received)) calls := by
  rcases hh with ⟨hrests, -⟩ | ⟨earlier, k, r, hcalls, hserves⟩
  · rw [hrests.sent, hrests.received] at hlt
    exact absurd hlt (Nat.lt_irrefl _)
  · obtain ⟨k', mem, hserves'⟩ := hserves.receive hlt
    exact Or.inr ⟨earlier, k', { r with loop := { r.loop with mem := mem } }, hcalls, hserves'⟩

end Host

end ClientLib

/-! ### All participants -/

namespace Cluster

section Words

variable (rc : CollectiveChannel) (c : Cluster) (p : Participant)

def word (seq : Nat) : AggregateH := wordsOf (fun q => (c.network.packets q)[seq]?) p

/-- What the others send with it. -/
def others (seq : Nat) : AggregateH := (rc.members.map fun q => c.word q seq).sum - c.word p seq

def input (n i : Nat) : Option Value := ((c.calls p)[n]?).map fun x => x.2 (x.1.sbuf / 4 + i)

structure Served : Prop where
  tracks : Host.Tracks (c.word p) (c.others rc p) (c.hosts p) (c.calls p)
  recorded : ∀ n x, (c.calls p)[n]? = some x → ∀ i < x.1.count,
    64 * messagesOf ((c.calls p).take n) + i / 64 < (c.network.packets p).length →
      c.word p (64 * messagesOf ((c.calls p).take n) + i / 64) (lane i) =
        x.2 (x.1.sbuf / 4 + i)

end Words

/-- Nothing is lost, the buffers of a call are apart, and calls of one number have the same count. -/
def Regulated (rc : CollectiveChannel) (c : Cluster) : ClusterEvent → Prop
  | .network e => e.Lossless
  | .host p (.call call _) => call.Admissible ∧ ∀ q ∈ rc.members, ∀ x,
      (c.calls q)[(c.calls p).length]? = some x → x.1.count = call.count
  | .host _ _ => True

/-- A call that returns has the sums of what all participants passed to their calls of its number. -/
def Summing (rc : CollectiveChannel) (c : Cluster) : ClusterEvent → Prop
  | .host p .ret => p ∈ rc.members → ∀ r ∈ (c.hosts p).running, ∀ i < r.call.count,
      ∃ v : Participant → Value, (∀ q ∈ rc.members, c.input q ((c.calls p).length - 1) i = some (v q)) ∧
        r.loop.mem (r.call.dbuf / 4 + i) = (rc.members.map v).sum
  | _ => True

structure Working (asic : Asic) (rc : CollectiveChannel) (c : Cluster) : Prop where
  fits : Fits asic rc c
  streams : ∀ p ∈ rc.members, c.network.stream p = c.network.distributedTo asic rc p
  same : ∀ p ∈ rc.members, ∀ q ∈ rc.members, ∀ (n : Nat) (x y : Allreduce × Memory),
    (c.calls p)[n]? = some x → (c.calls q)[n]? = some y → x.1.count = y.1.count
  served : ∀ p ∈ rc.members, c.Served rc p

section Steps

variable {channels : List CollectiveChannel} {m : Matcher} {asic : Asic} {rc : CollectiveChannel}
  {c c' : Cluster} {p q : Participant}

theorem Served.congr (hp : c.Served rc p) (hpackets : c'.network.packets = c.network.packets)
    (hhost : c'.hosts p = c.hosts p) (hcalls : c'.calls p = c.calls p) : c'.Served rc p := by
  have hword : c'.word = c.word := by
    funext q seq
    rw [word, hpackets, word]
  have hothers : c'.others rc p = c.others rc p := by
    funext seq
    rw [others, hword, others]
  refine ⟨?_, ?_⟩
  · rw [hword, hothers, hhost, hcalls]
    exact hp.tracks
  · rw [hword, hcalls, hpackets]
    exact hp.recorded

theorem Served.host (hp : c.Served rc p) (hsent : (c.network.packets p).length = (c.hosts p).sent)
    {e : Host.Event} {h : Host} (hstep : Host.Step (c.hosts p) e h) (hlocal : e.Local)
    (hadmissible : ∀ call mem, e = .call call mem → call.Admissible) :
    Served rc { c with
      hosts := Function.update c.hosts p h
      calls := Function.update c.calls p (c.calls p ++ e.made) } p := by
  have htracks := hp.tracks.step hstep hlocal hadmissible
  have hsent_le := hp.tracks.sent_le
  refine ⟨?_, fun n x hx i hi hlt => ?_⟩
  · dsimp only
    rw [Function.update_self, Function.update_self]
    exact htracks
  · dsimp only at hx hlt ⊢
    rw [Function.update_self] at hx hlt ⊢
    by_cases hn : n < (c.calls p).length
    · rw [List.getElem?_append_left hn] at hx
      rw [List.take_append_of_le_length hn.le] at hlt ⊢
      exact hp.recorded n x hx i hi hlt
    · -- the packets of a call that begins were not sent
      have hle : messagesOf (c.calls p) ≤ messagesOf ((c.calls p ++ e.made).take n) := by
        rw [List.take_append, List.take_of_length_le (not_lt.1 hn), messagesOf_append]
        exact Nat.le_add_right _ _
      omega

section Sent

variable {f : Frame} {n : Network}
  (hpackets : n.packets = Function.update c.network.packets p (c.network.packets p ++ [f]))

include hpackets

theorem word_of_sent {hosts : Participant → Host} {seq : Nat} (hlt : seq < (c.network.packets p).length) :
    word { c with network := n, hosts := hosts } q seq = c.word q seq := by
  rw [word, wordsOf, word, wordsOf]
  dsimp only
  rw [hpackets]
  by_cases hq : q = p
  · subst hq
    rw [Function.update_self, List.getElem?_append_left hlt]
  · rw [Function.update_of_ne hq]

theorem word_of_ne {hosts : Participant → Host} (hq : q ≠ p) (seq : Nat) :
    word { c with network := n, hosts := hosts } q seq = c.word q seq := by
  rw [word, wordsOf, word, wordsOf]
  dsimp only
  rw [hpackets, Function.update_of_ne hq]

theorem word_last {hosts : Participant → Host} :
    word { c with network := n, hosts := hosts } p (c.network.packets p).length = f.aggregate := by
  rw [word, wordsOf]
  dsimp only
  rw [hpackets, Function.update_self, List.getElem?_concat_length]
  rfl

theorem others_of_sent {hosts : Participant → Host} {seq : Nat}
    (hlt : seq < (c.network.packets p).length) :
    others rc { c with network := n, hosts := hosts } q seq = c.others rc q seq := by
  rw [others, others, word_of_sent hpackets hlt]
  refine congrArg (· - c.word q seq) (congrArg List.sum (List.map_congr_left fun q' _ => ?_))
  exact word_of_sent hpackets hlt

theorem Served.sent_by {h : Host} (hq : c.Served rc q) (hne : q ≠ p)
    (hreceived : (c.hosts q).received ≤ (c.network.packets p).length) :
    Served rc { c with network := n, hosts := Function.update c.hosts p h } q := by
  refine ⟨?_, fun n' x hx i hi hlt => ?_⟩
  · dsimp only
    rw [Function.update_of_ne hne]
    refine hq.tracks.congr (fun seq _ => word_of_ne hpackets hne seq) fun seq hlt => ?_
    exact others_of_sent hpackets (hlt.trans_le hreceived)
  · rw [word_of_ne hpackets hne]
    dsimp only at hlt ⊢
    rw [hpackets, Function.update_of_ne hne] at hlt
    exact hq.recorded n' x hx i hi hlt

theorem Served.send {h : Host} (hp : c.Served rc p)
    (hsent : (c.network.packets p).length = (c.hosts p).sent)
    (hreceived : (c.hosts p).received ≤ (c.network.packets p).length)
    (hstep : Host.Step (c.hosts p) (.transmit f.aggregate) h) :
    Served rc { c with network := n, hosts := Function.update c.hosts p h } p := by
  have htracks : Host.Tracks (word { c with network := n, hosts := Function.update c.hosts p h } p)
      (others rc { c with network := n, hosts := Function.update c.hosts p h } p) (c.hosts p) (c.calls p) :=
    hp.tracks.congr (fun seq hlt => word_of_sent hpackets (hsent ▸ hlt))
      fun seq hlt => others_of_sent hpackets (hlt.trans_le hreceived)
  have hlast : word { c with network := n, hosts := Function.update c.hosts p h } p
      (c.network.packets p).length = f.aggregate := word_last hpackets
  rw [hsent] at hlast
  rw [← hlast] at hstep
  obtain ⟨hnext, hrecorded⟩ := htracks.transmit hstep
  refine ⟨?_, fun n' x hx i hi hlt => ?_⟩
  · dsimp only
    rw [Function.update_self]
    exact hnext
  · dsimp only at hx hlt
    rw [hpackets, Function.update_self, List.length_append, List.length_singleton] at hlt
    rcases Nat.lt_succ_iff_lt_or_eq.1 hlt with hlt | heq
    · rw [word_of_sent hpackets hlt]
      exact hp.recorded n' x hx i hi hlt
    · rw [hsent] at heq
      simp only [heq]
      exact hrecorded n' x hx i hi heq

end Sent

theorem Served.receive {n : Network} (hp : c.Served rc p) (hpackets : n.packets = c.network.packets)
    (hlt : (c.hosts p).received < (c.hosts p).sent) :
    Served rc { c with
      network := n
      hosts := Function.update c.hosts p ((c.hosts p).packetReceived
        (BitVec.ofNat 24 (c.hosts p).received)
        (c.word p (c.hosts p).received + c.others rc p (c.hosts p).received)) } p := by
  have hword : word { c with
      network := n
      hosts := Function.update c.hosts p ((c.hosts p).packetReceived
        (BitVec.ofNat 24 (c.hosts p).received)
        (c.word p (c.hosts p).received + c.others rc p (c.hosts p).received)) } = c.word := by
    funext q seq
    rw [word]
    dsimp only
    rw [hpackets, word]
  refine ⟨?_, ?_⟩
  · dsimp only
    rw [Function.update_self, hword]
    refine (hp.tracks.receive hlt).congr (fun _ _ => rfl) fun seq _ => ?_
    rw [others, hword, others]
  · rw [hword]
    dsimp only
    rw [hpackets]
    exact hp.recorded

theorem Working.same_host (hc : Working asic rc c) {e : Host.Event}
    (hregulated : c.Regulated rc (.host p e)) : ∀ p' ∈ rc.members, ∀ q ∈ rc.members,
      ∀ (n : Nat) (x y : Allreduce × Memory),
        (Function.update c.calls p (c.calls p ++ e.made) p')[n]? = some x →
          (Function.update c.calls p (c.calls p ++ e.made) q)[n]? = some y → x.1.count = y.1.count := by
  -- a new call has the count of the calls with its number
  have hnew : ∀ q ∈ rc.members, ∀ (n : Nat) (x y : Allreduce × Memory), p ∈ rc.members →
      (c.calls p ++ e.made)[n]? = some x → (c.calls q)[n]? = some y → x.1.count = y.1.count := by
    intro q hq n x y hp hx hy
    by_cases hn : n < (c.calls p).length
    · rw [List.getElem?_append_left hn] at hx
      exact hc.same p hp q hq n x y hx hy
    · rw [List.getElem?_append_right (not_lt.1 hn)] at hx
      cases e with
      | call call mem =>
          obtain ⟨hlt, rfl⟩ := List.getElem?_eq_some_iff.1 hx
          have hle : n - (c.calls p).length < 1 := hlt
          obtain rfl : n = (c.calls p).length := by omega
          simp only [Nat.sub_self]
          exact (hregulated.2 q hq y hy).symm
      | _ => contradiction
  intro p' hp' q hq n x y hx hy
  by_cases hp : p' = p
  · subst hp
    rw [Function.update_self] at hx
    by_cases hqp : q = p'
    · subst hqp
      rw [Function.update_self, hx] at hy
      rw [Option.some.inj hy]
    · rw [Function.update_of_ne hqp] at hy
      exact hnew q hq n x y hp' hx hy
  · rw [Function.update_of_ne hp] at hx
    by_cases hqp : q = p
    · subst hqp
      rw [Function.update_self] at hy
      exact (hnew p' hp' n y x hq hy hx).symm
    · rw [Function.update_of_ne hqp] at hy
      exact hc.same p' hp' q hq n x y hx hy

/-! ### Results -/

/-- The next packet that a participant receives is the sum of the packets with its number. -/
theorem Working.delivery (h : Serving channels asic rc)
    (hc : Working asic rc c) (hp : p ∈ rc.members) {d : Delivery} {rest : List Delivery}
    (hdownlink : c.network.downlink p = d :: rest) :
    (c.hosts p).received < (c.hosts p).sent ∧
      d.frame.roce.psn = BitVec.ofNat 24 (c.hosts p).received ∧
      d.frame.aggregate = c.word p (c.hosts p).received + c.others rc p (c.hosts p).received := by
  have hget : (c.network.distributedTo asic rc p)[(c.hosts p).received]? = some d := by
    rw [← hc.streams p hp, ← hc.fits.received p hp, Network.stream, hdownlink, List.append_assoc,
      List.cons_append, List.getElem?_append_right (Nat.le_refl _), Nat.sub_self]
    rfl
  obtain ⟨-, hpsn, haggregate, -⟩ := hc.fits.carried.distributedTo_frame h hget
  obtain ⟨r, hr, hseq, -⟩ := hc.fits.carried.distributedTo_getElem? h hget
  have hdistributed : c.network.traffic.Distributed (c.hosts p).received := ⟨r, hr, hseq⟩
  refine ⟨?_, hpsn, ?_⟩
  · rw [← hc.fits.sent p hp]
    exact hc.fits.carried.sent_of_distributed hdistributed hp
  · rw [haggregate, hc.fits.carried.words_eq hdistributed, others, add_sub_cancel]
    rfl

theorem Working.received_le (h : Serving channels asic rc)
    (hc : Working asic rc c) (hp : p ∈ rc.members) (hq : q ∈ rc.members) :
    (c.hosts q).received ≤ (c.network.packets p).length := by
  refine le_of_forall_lt fun seq hlt => ?_
  rw [← hc.fits.received q hq] at hlt
  exact hc.fits.carried.sent_of_distributed
    (hc.fits.carried.distributed_of_lt h (hc.fits.streams q hq) hlt) hp

theorem Working.step (h : Serving channels asic rc)
    (hc : Working asic rc c) {e : ClusterEvent} (hstep : Step m asic rc c e c')
    (hregulated : c.Regulated rc e) : Working asic rc c' := by
  have hfits := hc.fits.step h hstep (by rintro p k rfl; exact hregulated)
  have hstreams : ∀ {e : NetworkEvent} {n : Network}, Network.Step m asic rc c.network e n →
      e.Lossless → ∀ p ∈ rc.members, n.stream p = n.distributedTo asic rc p := by
    intro e n hnetwork hlossless p hp
    obtain ⟨new, hdistributed, -, hstream⟩ := hc.fits.carried.stream_step h hnetwork p
    rw [hdistributed, hstream hlossless, hc.streams p hp]
  cases hstep with
  | @host p e host hlocal hhost =>
      have hadmissible : ∀ call mem, e = .call call mem → call.Admissible := by
        rintro call mem rfl
        exact hregulated.1
      refine ⟨hfits, hc.streams, hc.same_host hregulated, fun q hq => ?_⟩
      · by_cases heq : q = p
        · subst heq
          exact (hc.served q hq).host (hc.fits.sent q hq) hhost hlocal hadmissible
        · exact (hc.served q hq).congr rfl (Function.update_of_ne heq _ _) (Function.update_of_ne heq _ _)
  | @send p f host n hhost hsend =>
      obtain ⟨hp, hpackets, -⟩ := hsend.of_send
      refine ⟨hfits, hstreams hsend hregulated, hc.same, fun q hq => ?_⟩
      have hreceived := hc.received_le h hp hq
      by_cases heq : q = p
      · subst heq
        exact (hc.served q hq).send hpackets (hc.fits.sent q hq) hreceived hhost
      · exact (hc.served q hq).sent_by hpackets heq hreceived
  | @receive p d rest n hdownlink hreceive =>
      obtain ⟨hpackets, -⟩ := hreceive.of_receive hdownlink
      refine ⟨hfits, hstreams hreceive hregulated, hc.same, fun q hq => ?_⟩
      by_cases heq : q = p
      · subst heq
        obtain ⟨hlt, hpsn, haggregate⟩ := hc.delivery h hq hdownlink
        rw [hpsn, haggregate]
        exact (hc.served q hq).receive hpackets hlt
      · exact (hc.served q hq).congr hpackets (Function.update_of_ne heq _ _) rfl
  | @inner e n hinner hnetwork =>
      exact ⟨hfits, hstreams hnetwork hregulated, hc.same,
        fun q hq => (hc.served q hq).congr (hnetwork.inner hinner).1 rfl rfl⟩

theorem working_start (h : Serving channels asic rc) : Working asic rc start where
  fits := fits_start h
  streams _ _ := rfl
  same _ _ _ _ _ _ _ hx := by contradiction
  served _ _ := ⟨Host.tracks_start, fun _ _ hx => by contradiction⟩

theorem messagesOf_take_eq (hc : Working asic rc c) (hp : p ∈ rc.members) (hq : q ∈ rc.members) {n : Nat}
    (hn : n ≤ (c.calls p).length) (hn' : n ≤ (c.calls q).length) :
    messagesOf ((c.calls p).take n) = messagesOf ((c.calls q).take n) := by
  rw [messagesOf, messagesOf]
  refine congrArg List.sum (List.ext_getElem? fun i => ?_)
  rw [List.getElem?_map, List.getElem?_map, List.getElem?_take, List.getElem?_take]
  split
  · rename_i hi
    have hx := List.getElem?_eq_getElem (hi.trans_le hn)
    have hy := List.getElem?_eq_getElem (hi.trans_le hn')
    have hcount := hc.same p hp q hq i _ _ hx hy
    rw [hx, hy, Option.map_some, Option.map_some, Allreduce.messages, Allreduce.messages,
      Allreduce.size_eq, Allreduce.size_eq, hcount]
  · rfl

/-- What the other participants have sent is their data in the call with the same number. -/
theorem Working.input_eq (hc : Working asic rc c) (hp : p ∈ rc.members) (hq : q ∈ rc.members) {n i : Nat}
    {x : Allreduce × Memory} (hx : (c.calls p)[n]? = some x) (hi : i < x.1.count)
    (hsent : 64 * messagesOf ((c.calls p).take n) + i / 64 < (c.network.packets q).length) :
    c.input q n i = some (c.word q (64 * messagesOf ((c.calls p).take n) + i / 64)
      (lane i)) := by
  have hlt := (List.getElem?_eq_some_iff.1 hx).1
  have hlt' : n < (c.calls q).length := by
    by_contra hge
    have hle := (hc.served q hq).tracks.sent_le
    rw [← hc.fits.sent q hq] at hle
    have hge := not_lt.1 hge
    have hearlier := messagesOf_take_eq hc hp hq (hge.trans hlt.le) (Nat.le_refl _)
    have hshorter := messagesOf_take_le ((c.calls p).take n) (c.calls q).length
    rw [List.take_take, Nat.min_eq_left hge, hearlier, List.take_length] at hshorter
    omega
  have hy := List.getElem?_eq_getElem hlt'
  have hcount := hc.same p hp q hq n _ _ hx hy
  have hearlier := messagesOf_take_eq hc hp hq hlt.le hlt'.le
  rw [hearlier] at hsent ⊢
  rw [input, hy, Option.map_some, (hc.served q hq).recorded n _ hy i (hcount ▸ hi) hsent]

theorem Working.summing (hc : Working asic rc c) {e : ClusterEvent} (hstep : Step m asic rc c e c')
    (h : Serving channels asic rc) : c.Summing rc e := by
  cases hstep with
  | @host p e host hlocal hhost =>
      cases hhost with
      | @ret call input t hrunning hends =>
          intro hp r hr i hi
          obtain rfl := Option.some.inj (hrunning.symm.trans hr)
          obtain ⟨earlier, k, hcalls, hserves⟩ := (hc.served p hp).tracks.serves hrunning
          obtain ⟨hrests, hresults⟩ := hserves.ret hends
          have hindex : (c.calls p).length - 1 = earlier.length := by
            rw [hcalls, List.length_append]
            rfl
          have hx : (c.calls p)[earlier.length]? = some (call, input) := by
            rw [hcalls]
            exact List.getElem?_concat_length
          have htake : (c.calls p).take earlier.length = earlier := by
            rw [hcalls, List.take_append_of_le_length (Nat.le_refl _), List.take_length]
          have hreceived : 64 * messagesOf earlier + i / 64 < (c.hosts p).received := by
            have hall : (c.hosts p).received = 64 * (c.hosts p).due := hrests.received
            have hdue := hserves.inCall.due
            have hposted := hserves.inCall.loop.posted_eq (hserves.inCall.ret hends).2.2
            have hpacket := packet_lt hi
            dsimp only at hposted hpacket
            omega
          refine ⟨fun q => c.word q (64 * messagesOf earlier + i / 64) (lane i),
            fun q hq => ?_, ?_⟩
          · rw [hindex]
            have hinput := hc.input_eq hp hq hx hi
            rw [htake] at hinput
            exact hinput (hreceived.trans_le (hc.received_le h hq hp))
          · have hrecorded := (hc.served p hp).recorded _ _ hx i hi
            rw [htake] at hrecorded
            rw [hresults i hi, Host.result, others, Pi.sub_apply,
              hrecorded (hreceived.trans_le (hc.received_le h hp hp)), add_sub_cancel]
            rw [Pi.list_sum_apply, List.map_map]
            rfl
      | _ => trivial
  | send | receive | inner => trivial

/-- **Allreduce.** In every run of the participants of a programmed channel on a network that loses
nothing, a call that returns has the sums of what all participants passed to their calls of its number.
Participants that registered once have the addresses of their own by `Agent.run_nodup_addresses`. -/
theorem run_summing {r : StateRepository} (hr : WellFormed r)
    (hknown : rc ∈ knownChannels r.getChannels) (hnonempty : rc.members ≠ [])
    (hports : ∀ p ∈ rc.members, p.switchPort ∈ frontPanelPorts)
    (haddresses : (rc.members.map fun p => (p.ip, p.fabricQp)).Nodup)
    (hprogrammed : Programmed r.getChannels asic)
    (hcollective : asic.switchingTable.lookup rc.fabricMac = some .collective)
    {run : List (ClusterEvent × Cluster)}
    (hrun : Along (fun c e c' => Step m asic rc c e c' ∧ c.Regulated rc e) start run) :
    Along (fun c e _ => c.Summing rc e) start run := by
  have h := serving_of_programmed hr hknown hnonempty hports haddresses hprogrammed hcollective
  exact hrun.imp (I := Working asic rc) (fun _ _ _ hc hstep => hc.step h hstep.1 hstep.2)
    (fun _ _ _ hc hstep => hc.summing hstep.1 h) (working_start h)

end Steps

/-! ### Two participants -/

namespace TwoHosts

open Traffic.TwoPipes (asic left right)

/-- Both call, and the left one gets all packets of its result. -/
def lossless : List Act :=
  [.host left (.call OneWord.call (memory 3 0)), .host right (.call OneWord.call (memory 4 0))] ++ post left 1 ++
    post right 1 ++ (List.replicate 64 exchange).flatten ++
    [.host left .fill, .host left (.poll [(1, OneWord.call.sendRequest 0), (1, OneWord.call.recvRequest 0)]),
      .host left .ret]

def Act.Lossless : Act → Prop
  | .loseUp _ => False
  | .loseDown _ => False
  | _ => True

instance : ∀ a : Act, Decidable a.Lossless
  | .loseUp _ | .loseDown _ => isFalse id
  | .host _ _ | .transmit _ | .receive _ | .inner _ => isTrue trivial

theorem Possible.regulated {c : Cluster} {a : Act} (ha : Possible c a) (hlossless : a.Lossless) :
    c.Regulated Traffic.TwoPipes.channel (event c a) := by
  cases a with
  | host p a =>
      cases a with
      | call call mem =>
          refine ⟨(@Host.TwoCalls.Possible.moves 0 0 _ _ ha.1).2.2 call mem rfl, fun q hq x hx => ?_⟩
          exact ha.2 q hq x hx
      | _ => trivial
  | inner e =>
      cases e with
      | loseUp | loseDown => exact absurd ha.2 id
      | _ => trivial
  | transmit p | receive p => trivial
  | loseUp p | loseDown p => exact absurd hlossless id

private theorem lossless_possible :
    Along (fun c a _ => Possible c a ∧ a.Lossless) start (runOf advance start lossless) ∧
      (((lossless.dropLast).foldl advance start).hosts left).running.map
        (fun r => r.loop.mem 0x80000) = some 7 := by
  decide +kernel

/-- The left participant returns with the sum. -/
theorem lossless_summing :
    Along (fun c e _ => c.Summing Traffic.TwoPipes.channel e) start (run lossless) ∧
      (((lossless.dropLast).foldl advance start).hosts left).running.map
        (fun r => r.loop.mem 0x80000) = some 7 :=
  ⟨run_summing (m := Matcher.first) Traffic.TwoPipes.wellFormed_repository
    (List.mem_singleton.2 rfl) (by decide) (by decide) (by decide)
    (programmed_of_initialSetup (distinct_of_wellFormed Traffic.TwoPipes.wellFormed_repository)
      Traffic.TwoPipes.programs_asic) (collective_of_initialSetup Traffic.TwoPipes.programs_asic)
    (Along.of_acts lossless_possible.1 fun _ _ ha => ⟨ha.1.step, ha.1.regulated ha.2⟩),
    lossless_possible.2⟩

end TwoHosts

end Cluster

end Mpitofino
