import Mpitofino.Control.FabricQps

/-!
# Participants that register once

The agent numbers the participants of a node by how many of them are known. While every participant
registers once, the numbers of a node are those below the count, so each request gets a free one and the
known participants of a channel have pairs of address and fabric QP of their own.
-/

namespace Mpitofino

namespace Agent

open StateRepository (updateIn)

/-- A `GetChannel` comes from a participant that is not known yet, of at most 255. -/
def RegistersOnce {σ : Type} (a : Agent σ) : Event → Prop
  | .getChannel _ msg => ∀ ch, a.channel? msg.tag = some ch → ch.participants.entries.length ≤ 255 ∧
      ∀ p, (msg.clientId, p) ∈ ch.participants.entries → p.ip = 0
  | _ => True

/-- The numbers of the known participants on a node are below their count. -/
def Counting (ch : CollectiveChannel) : Prop :=
  ∀ ip, ∀ p ∈ onNode ch ip, ∃ i < (onNode ch ip).length, nodePart p.fabricQp = BitVec.ofNat 8 i

theorem nodup_addresses_of_distinctIn {ch : CollectiveChannel} (hdistinct : DistinctIn ch)
    (hknown : ch.allNodesKnown = true) : (ch.members.map fun p => (p.ip, p.fabricQp)).Nodup := by
  have hip := CollectiveChannel.allNodesKnown_iff.1 hknown
  rw [CollectiveChannel.members, OrderedMap.values, List.map_map]
  refine (List.Nodup.of_map _ ch.participants.nodup_keys).map_on fun e he e' he' heq => ?_
  obtain ⟨hsame, hqp⟩ := Prod.mk.inj heq
  have hkey : e.1 = e'.1 := hdistinct e.1 e.2 e'.1 e'.2 he he'
    (hip e.2 (OrderedMap.mem_values.2 ⟨e.1, he⟩)) (hip e'.2 (OrderedMap.mem_values.2 ⟨e'.1, he'⟩))
    hsame hqp
  have hvalue := OrderedMap.find?_eq_some_iff.2 he
  rw [hkey, OrderedMap.find?_eq_some_iff.2 he'] at hvalue
  exact Prod.ext hkey (Option.some.inj hvalue).symm

section Update

variable {ch : CollectiveChannel} {msg : GetChannel}
  (hunknown : ∀ p, (msg.clientId, p) ∈ ch.participants.entries → p.ip = 0)

private theorem length_onNode (ch : CollectiveChannel) (ip : IPv4Addr) : (onNode ch ip).length =
    ch.participants.entries.countP fun e => decide (e.2.ip ≠ 0 ∧ e.2.ip = ip) := by
  rw [onNode, CollectiveChannel.members, OrderedMap.values, ← List.countP_eq_length_filter,
    List.countP_map]
  rfl

private theorem length_onNode_updateIn (ch : CollectiveChannel) (msg : GetChannel) (ip : IPv4Addr) :
    (onNode (updateIn msg.clientId (participantUpdate ch msg) ch) ip).length =
      ch.participants.entries.countP fun e =>
        if e.1 = msg.clientId then decide (msg.clientIp ≠ 0 ∧ msg.clientIp = ip)
        else decide (e.2.ip ≠ 0 ∧ e.2.ip = ip) := by
  rw [length_onNode, updateIn, OrderedMap.modify, List.countP_map]
  refine List.countP_congr fun e _ => ?_
  by_cases hk : e.1 = msg.clientId <;> simp [hk, ParticipantUpdate.apply, participantUpdate]

include hunknown

theorem length_onNode_le (ip : IPv4Addr) : (onNode ch ip).length ≤
    (onNode (updateIn msg.clientId (participantUpdate ch msg) ch) ip).length := by
  rw [length_onNode, length_onNode_updateIn]
  refine List.countP_mono_left fun e he hcounted => ?_
  split
  · rename_i hk
    have hzero := hunknown e.2 (hk ▸ he)
    simp [hzero] at hcounted
  · exact hcounted

theorem length_onNode_lt (hclient : ∃ p, (msg.clientId, p) ∈ ch.participants.entries)
    (hip : msg.clientIp ≠ 0) : (onNode ch msg.clientIp).length <
      (onNode (updateIn msg.clientId (participantUpdate ch msg) ch) msg.clientIp).length := by
  obtain ⟨p, hp⟩ := hclient
  obtain ⟨before, after, hentries⟩ := List.append_of_mem hp
  have hzero := hunknown p hp
  have hmono : ∀ es : List (Nat × Participant),
      es.countP (fun e => decide (e.2.ip ≠ 0 ∧ e.2.ip = msg.clientIp)) ≤ es.countP fun e =>
        if e.1 = msg.clientId then decide (msg.clientIp ≠ 0 ∧ msg.clientIp = msg.clientIp)
        else decide (e.2.ip ≠ 0 ∧ e.2.ip = msg.clientIp) := by
    intro es
    refine List.countP_mono_left fun e _ hcounted => ?_
    split
    · exact decide_eq_true ⟨hip, rfl⟩
    · exact hcounted
  have hbefore := hmono before
  have hafter := hmono after
  -- the requester's entry is counted after the update only
  rw [length_onNode, length_onNode_updateIn, hentries]
  simp only [List.countP_append, List.countP_cons, hzero, hip, ne_eq, not_true, not_false_eq_true,
    false_and, and_self, decide_true, decide_false, if_true, Bool.false_eq_true, if_false] at hbefore hafter ⊢
  omega

theorem counting_updateIn (hcounting : Counting ch)
    (hclient : ∃ p, (msg.clientId, p) ∈ ch.participants.entries) :
    Counting (updateIn msg.clientId (participantUpdate ch msg) ch) := by
  intro ip p hp
  obtain ⟨hmem, hknown, rfl⟩ := mem_onNode.1 hp
  obtain ⟨k, hk⟩ := OrderedMap.mem_values.1 hmem
  obtain ⟨q, hq, rfl⟩ := mem_participants_updateIn.1 hk
  by_cases hclientId : k = msg.clientId
  · -- the requester has the old count as its number
    rw [if_pos hclientId] at hknown ⊢
    exact ⟨_, length_onNode_lt hunknown hclient hknown, nodePart_getNextFabricQp ch msg.clientIp⟩
  · rw [if_neg hclientId] at hknown ⊢
    obtain ⟨i, hi, hnumber⟩ := hcounting q.ip q
      (mem_onNode.2 ⟨OrderedMap.mem_values.2 ⟨k, hq⟩, hknown, rfl⟩)
    exact ⟨i, hi.trans_le (length_onNode_le hunknown q.ip), hnumber⟩

end Update

theorem counting_of_unknown {ch : CollectiveChannel}
    (hunknown : ∀ k p, (k, p) ∈ ch.participants.entries → p = { clientId := k }) : Counting ch := by
  intro ip p hp
  obtain ⟨hmem, hknown, -⟩ := mem_onNode.1 hp
  obtain ⟨k, hk⟩ := OrderedMap.mem_values.1 hmem
  rw [hunknown k p hk] at hknown
  exact absurd rfl hknown

section Events

variable {σ : Type} {notify : List CollectiveChannel → σ → Except String σ} {a a' : Agent σ}

theorem numberFree_of_counting {e : Event}
    (hcounting : ∀ e ∈ a.stRepo.1.channels.entries, Counting e.2) (honce : RegistersOnce a e) :
    NumberFree a e := by
  cases e with
  | getChannel c msg =>
      intro ch hch k p _ _ hnode hnumber
      obtain ⟨hbound, -⟩ := honce ch hch
      obtain ⟨i, hi, hnumber'⟩ := hcounting _ (OrderedMap.find?_eq_some_iff.1 hch) msg.clientIp p hnode
      dsimp only at hi
      have hle : (onNode ch msg.clientIp).length ≤ ch.participants.entries.length := by
        refine (List.length_filter_le ..).trans ?_
        rw [CollectiveChannel.members, OrderedMap.values, List.length_map]
      have heq := congrArg BitVec.toNat (hnumber'.symm.trans hnumber)
      rw [BitVec.toNat_ofNat, BitVec.toNat_ofNat, Nat.mod_eq_of_lt (by omega),
        Nat.mod_eq_of_lt (by omega)] at heq
      omega
  | _ => trivial

/-- The requester is not known in its channel, whether that was there or is created. -/
theorem ensureChannel_counting {msg : GetChannel} {a₁ : Agent σ} {ch : CollectiveChannel}
    (hensure : ensureChannel notify msg a = .ok a₁) (hch : a₁.channel? msg.tag = some ch)
    (hcounting : ∀ e ∈ a.stRepo.1.channels.entries, Counting e.2)
    (honce : ∀ ch, a.channel? msg.tag = some ch →
      ∀ p, (msg.clientId, p) ∈ ch.participants.entries → p.ip = 0) :
    (∀ e ∈ a₁.stRepo.1.channels.entries, Counting e.2) ∧
      ∀ p, (msg.clientId, p) ∈ ch.participants.entries → p.ip = 0 := by
  rcases ensureChannel_ok hensure with
    ⟨ch', -, rfl⟩ | ⟨hnone, r, ch', stRepo', hsame, hallocated, hadded, rfl⟩
  · exact ⟨hcounting, honce ch hch⟩
  · have hchmem := OrderedMap.find?_eq_some_iff.1 hch
    cases hadded with
    | added hnew _ =>
        constructor
        · intro e he
          rcases (OrderedMap.mem_insert hnew).1 he with rfl | hold
          · exact counting_of_unknown hallocated.unknown
          · exact hcounting e (hsame ▸ hold)
        · intro p hp
          rcases (OrderedMap.mem_insert hnew).1 hchmem with hmem | hold
          · obtain ⟨-, rfl⟩ := Prod.mk.inj hmem
            rw [hallocated.unknown _ p hp]
          · have hfind := OrderedMap.find?_eq_some_iff.2 hold
            rw [← hallocated.tag, hnew] at hfind
            contradiction

theorem handle_counting {e : Event} {sent : List Reply} (h : handle notify a e = .ok (a', sent))
    (hcounting : ∀ e ∈ a.stRepo.1.channels.entries, Counting e.2) (honce : RegistersOnce a e) :
    ∀ e ∈ a'.stRepo.1.channels.entries, Counting e.2 := by
  have herase : ∀ (r : StateRepository) (tag : Nat), (∀ e ∈ r.channels.entries, Counting e.2) →
      ∀ e ∈ (r.channels.erase tag).entries, Counting e.2 := fun r tag hr e he =>
    hr e (OrderedMap.mem_erase.1 he).1
  cases e with
  | newClient =>
      obtain ⟨rfl, -⟩ := Prod.mk.inj (Except.ok.inj h)
      exact hcounting
  | getChannel c msg =>
      obtain ⟨a₁, ch, stRepo, hensure, hch, hcalled, heq⟩ := onClientGetChannel_ok h
      have ha' : a'.stRepo = stRepo := by
        have hfst := congrArg (fun x => x.1.stRepo) heq
        rwa [holdReply_stRepo] at hfst
      obtain ⟨hensured, hunknown⟩ := ensureChannel_counting hensure hch hcounting
        fun ch hch => (honce ch hch).2
      obtain ⟨ch', p, hch', hp, hchannels⟩ := hcalled.channels_update
      obtain rfl := Option.some.inj (hch.symm.trans hch')
      rintro ⟨tag, rc⟩ he
      rw [ha', hchannels] at he
      obtain ⟨rc₀, hrc₀, rfl⟩ := OrderedMap.mem_modify.1 he
      dsimp only
      split
      · rename_i htag
        subst htag
        obtain rfl := Option.some.inj (hch.symm.trans (OrderedMap.find?_eq_some_iff.2 hrc₀))
        exact counting_updateIn hunknown (hensured _ hrc₀) ⟨p, OrderedMap.find?_eq_some_iff.1 hp⟩
      · exact hensured _ hrc₀
  | unrefChannel c tag =>
      obtain ⟨a₁, hunref, h⟩ := Fallible.bind_eq_ok.1 h
      obtain ⟨rfl, -⟩ := Prod.mk.inj (Except.ok.inj h)
      exact onClientUnrefChannel_keeps (I := fun r => ∀ e ∈ r.channels.entries, Counting e.2) herase
        hunref hcounting
  | disconnect c =>
      obtain ⟨a₁, hdisconnect, h⟩ := Fallible.bind_eq_ok.1 h
      obtain ⟨rfl, -⟩ := Prod.mk.inj (Except.ok.inj h)
      exact onDisconnect_keeps (I := fun r => ∀ e ∈ r.channels.entries, Counting e.2) herase hdisconnect
        hcounting

end Events

/-- In a run of the agent in which participants register once, each request finds its number free, and
the participants of a channel that is programmed have addresses of their own. -/
theorem run_nodup_addresses {σ : Type} (notify : List CollectiveChannel → σ → Except String σ)
    (baseMac : MacAddr) (ip : IPv4Addr) (s : σ) (run : List (Event × Agent σ))
    (hrun : Along (fun a e a' => Handles notify a e a' ∧ RegistersOnce a e)
      (initial (StateRepository.initial baseMac ip, s)) run) :
    ∀ x ∈ run, ∀ rc ∈ AsicDriver.knownChannels x.2.stRepo.1.getChannels,
      (rc.members.map fun p => (p.ip, p.fabricQp)).Nodup := by
  have hinvariant : ∀ x ∈ run, StateRepository.WellFormed x.2.stRepo.1 ∧
      (∀ e ∈ x.2.stRepo.1.channels.entries, DistinctIn e.2) ∧
        ∀ e ∈ x.2.stRepo.1.channels.entries, Counting e.2 := by
    refine hrun.invariant (I := fun a => StateRepository.WellFormed a.stRepo.1 ∧
      (∀ e ∈ a.stRepo.1.channels.entries, DistinctIn e.2) ∧
        ∀ e ∈ a.stRepo.1.channels.entries, Counting e.2) ?_
      ⟨StateRepository.wellFormed_initial baseMac ip, fun _ h => by contradiction,
        fun _ h => by contradiction⟩
    rintro a e a' ⟨hr, hdistinct, hcounting⟩ ⟨⟨-, sent, hhandle⟩, honce⟩
    exact ⟨handle_wellFormed hhandle hr, (handle_distinct_iff hhandle hr hdistinct).2
      (numberFree_of_counting hcounting honce), handle_counting hhandle hcounting honce⟩
  intro x hx rc hrc
  obtain ⟨-, hdistinct, -⟩ := hinvariant x hx
  obtain ⟨hmem, hknown⟩ := List.mem_filter.1 hrc
  obtain ⟨tag, hentry⟩ := OrderedMap.mem_values.1 hmem
  exact nodup_addresses_of_distinctIn (hdistinct _ hentry) hknown

end Agent

end Mpitofino
