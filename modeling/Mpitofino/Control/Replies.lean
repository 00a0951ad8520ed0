import Mpitofino.Control.Agent
import Mpitofino.Control.AsicDriver
import Mpitofino.Library.Run

/-!
# When the responses are sent

The agent sends the responses of a channel when it holds as many as the channel has participants. This
is the moment the last participant becomes known as long as every response it holds is of another
participant and of a client that is still there.
-/

namespace Mpitofino

namespace Agent

open StateRepository (Called updateIn)

variable {σ : Type}

/-! ### Runs with their requests -/

/-- The agent, what it sent at the last event, and the client of the last request of each participant,
by tag and client id. -/
structure Served (σ : Type) where
  agent : Agent σ
  sent : List Reply
  requester : Nat → Nat → Option ClientPtr

def record (requester : Nat → Nat → Option ClientPtr) : Event → Nat → Nat → Option ClientPtr
  | .getChannel c msg =>
      Function.update requester msg.tag
        (Function.update (requester msg.tag) msg.clientId (some c))
  | _ => requester

def Serves (notify : List CollectiveChannel → σ → Except String σ) (t : Served σ) (e : Event)
    (t' : Served σ) : Prop :=
  Possible t.agent e ∧ handle notify t.agent e = .ok (t'.agent, t'.sent) ∧
    t'.requester = record t.requester e

/-- The responses an event sends are those of channels that are complete after it, carry the fabric QPs
of the repository, and go to clients that are there; and the event that makes the last participant of a
channel known sends each participant's requester, if it is still there, its one response. -/
structure SendsOnCompletion (t t' : Served σ) : Prop where
  complete : ∀ reply ∈ t'.sent, ∃ ch, t'.agent.channel? reply.2.tag = some ch ∧
    ch.allNodesKnown = true
  current : ∀ reply ∈ t'.sent, ∃ ch p, t'.agent.channel? reply.2.tag = some ch ∧
    ch.participants.find? reply.2.clientId = some p ∧ p.fabricQp = reply.2.fabricQp
  connected : ∀ reply ∈ t'.sent, t'.agent.Connected reply.1
  answered : ∀ tag ch', t'.agent.channel? tag = some ch' → ch'.allNodesKnown = true →
    (∀ ch, t.agent.channel? tag = some ch → ch.allNodesKnown = false) →
      ∀ k ∈ ch'.participants.entries.map Prod.fst, ∃ c, t'.requester tag k = some c ∧
        (t'.agent.Connected c → ∃ reply,
          (t'.sent.filter fun r => r.2.tag = tag ∧ r.2.clientId = k) = [reply] ∧ reply.1 = c)

/-- The responses that are held back for a channel that is there. -/
def held (a : Agent σ) (tag : Nat) : List Reply :=
  match a.channel? tag with
  | some _ => a.pending tag
  | none => []

/-- A request comes from an address and finds no response to the same participant held back; a client
that disconnects waits for no channel that someone else owns. -/
def Orderly (a : Agent σ) : Event → Prop
  | .getChannel _ msg =>
      msg.clientIp ≠ 0 ∧ ∀ reply ∈ a.held msg.tag, reply.2.clientId ≠ msg.clientId
  | .disconnect c => ∀ cl ∈ a.clients, cl.ptr ≠ c → ∀ tag ∈ cl.channels,
      ∀ reply ∈ a.held tag, reply.1 ≠ c
  | _ => True

instance (a : Agent σ) : ∀ e, Decidable (Orderly a e)
  | .newClient => isTrue trivial
  | .getChannel _ msg => inferInstanceAs (Decidable
      (msg.clientIp ≠ 0 ∧ ∀ reply ∈ a.held msg.tag, reply.2.clientId ≠ msg.clientId))
  | .unrefChannel _ _ => isTrue trivial
  | .disconnect c => inferInstanceAs (Decidable (∀ cl ∈ a.clients, cl.ptr ≠ c →
      ∀ tag ∈ cl.channels, ∀ reply ∈ a.held tag, reply.1 ≠ c))

/-! ### The responses of one channel -/

/-- What is known of the responses that are held back for a channel. -/
structure Waiting (ch : CollectiveChannel) (requester : Nat → Option ClientPtr)
    (clients : List ClientPtr) (pm : List Reply) : Prop where
  nodup : (pm.map fun r => r.2.clientId).Nodup
  tags : ∀ r ∈ pm, r.2.tag = ch.tag
  current : ∀ r ∈ pm, ∃ p, ch.participants.find? r.2.clientId = some p ∧ p.ip ≠ 0 ∧
    p.fabricQp = r.2.fabricQp
  requesters : ∀ r ∈ pm, requester r.2.clientId = some r.1
  connected : ∀ r ∈ pm, r.1 ∈ clients
  covers : ch.allNodesKnown = false → ∀ k p, (k, p) ∈ ch.participants.entries → p.ip ≠ 0 →
    k ∈ pm.map fun r => r.2.clientId

theorem Waiting.nil {ch : CollectiveChannel} {requester : Nat → Option ClientPtr}
    {clients : List ClientPtr}
    (hcovers : ch.allNodesKnown = false → ∀ k p, (k, p) ∈ ch.participants.entries → p.ip = 0) :
    Waiting ch requester clients [] := by
  refine ⟨List.nodup_nil, ?_, ?_, ?_, ?_, fun hunknown k p hp hknown => ?_⟩
  · simp
  · simp
  · simp
  · simp
  · exact absurd (hcovers hunknown k p hp) hknown

section Channel

variable {ch : CollectiveChannel} {requester : Nat → Option ClientPtr} {clients : List ClientPtr}
  {pm : List Reply} (h : Waiting ch requester clients pm)

include h

theorem Waiting.mem_keys {k : Nat} (hk : k ∈ pm.map fun r => r.2.clientId) :
    k ∈ ch.participants.entries.map Prod.fst := by
  obtain ⟨r, hr, rfl⟩ := List.mem_map.1 hk
  obtain ⟨p, hp, -, -⟩ := h.current r hr
  exact List.mem_map_of_mem (f := Prod.fst) (OrderedMap.find?_eq_some_iff.1 hp)

theorem Waiting.length_le : pm.length ≤ ch.participants.entries.length := by
  have hle := (h.nodup.subperm fun k hk => h.mem_keys hk).length_le
  simpa using hle

theorem Waiting.keys_of_length (hlength : pm.length = ch.participants.entries.length) {k : Nat}
    (hk : k ∈ ch.participants.entries.map Prod.fst) : k ∈ pm.map fun r => r.2.clientId := by
  have hperm := (h.nodup.subperm fun k hk => h.mem_keys hk).perm_of_length_le
    (by simpa using hlength.ge)
  exact hperm.mem_iff.2 hk

theorem Waiting.known_of_length (hlength : pm.length = ch.participants.entries.length) :
    ch.allNodesKnown = true := by
  refine CollectiveChannel.allNodesKnown_iff.2 fun p hp => ?_
  obtain ⟨k, hk⟩ := OrderedMap.mem_values.1 hp
  obtain ⟨r, hr, rfl⟩ := List.mem_map.1
    (h.keys_of_length hlength (List.mem_map_of_mem (f := Prod.fst) hk))
  obtain ⟨p', hp', hknown, -⟩ := h.current r hr
  obtain rfl := Option.some.inj (hp'.symm.trans (OrderedMap.find?_eq_some_iff.2 hk))
  exact hknown

theorem Waiting.filter_eq {k : Nat} (hk : k ∈ pm.map fun r => r.2.clientId) :
    ∃ r ∈ pm, (pm.filter fun r => r.2.tag = ch.tag ∧ r.2.clientId = k) = [r] ∧
      requester k = some r.1 := by
  obtain ⟨r, hr, rfl⟩ := List.mem_map.1 hk
  refine ⟨r, hr, ?_, h.requesters r hr⟩
  have hsame : (pm.filter fun r' => r'.2.tag = ch.tag ∧ r'.2.clientId = r.2.clientId) =
      pm.filter fun r' => r' = r := by
    refine List.filter_congr fun r' hr' => decide_eq_decide.2 ⟨fun heq => ?_, fun heq => ?_⟩
    · exact List.inj_on_of_nodup_map h.nodup hr' hr heq.2
    · rw [heq]
      exact ⟨h.tags r hr, rfl⟩
  have hnodup : pm.Nodup := List.Nodup.of_map _ h.nodup
  rw [hsame, List.filter_eq, List.count_eq_one_of_mem hnodup hr]
  rfl

end Channel

/-! ### A participant is entered -/

section Entered

variable {ch : CollectiveChannel} {requester : Nat → Option ClientPtr} {clients : List ClientPtr}
  {pm : List Reply} {c : ClientPtr} {msg : GetChannel}

def entered (ch : CollectiveChannel) (msg : GetChannel) : CollectiveChannel :=
  updateIn msg.clientId (participantUpdate ch msg) ch

theorem keys_entered : (entered ch msg).participants.entries.map Prod.fst =
    ch.participants.entries.map Prod.fst :=
  OrderedMap.keys_modify ..

theorem length_entered : (entered ch msg).participants.entries.length =
    ch.participants.entries.length := by
  simpa using congrArg List.length (@keys_entered ch msg)

theorem find?_entered_of_ne {k : Nat} {p : Participant} (hk : k ≠ msg.clientId)
    (hp : ch.participants.find? k = some p) :
    (entered ch msg).participants.find? k = some p :=
  OrderedMap.find?_eq_some_iff.2 (OrderedMap.mem_modify.2
    ⟨p, OrderedMap.find?_eq_some_iff.1 hp, (if_neg hk).symm⟩)

theorem find?_entered {p : Participant} (hp : ch.participants.find? msg.clientId = some p) :
    (entered ch msg).participants.find? msg.clientId =
      some ((participantUpdate ch msg).apply p) :=
  OrderedMap.find?_eq_some_iff.2 (OrderedMap.mem_modify.2
    ⟨p, OrderedMap.find?_eq_some_iff.1 hp, (if_pos rfl).symm⟩)

theorem Waiting.append_response (h : Waiting ch requester clients pm) (hip : msg.clientIp ≠ 0)
    (hfresh : ∀ r ∈ pm, r.2.clientId ≠ msg.clientId) (hc : c ∈ clients)
    (hclient : ∃ p, ch.participants.find? msg.clientId = some p) :
    Waiting (entered ch msg) (Function.update requester msg.clientId (some c)) clients
      (pm ++ [(c, response ch msg)]) := by
  refine ⟨?_, ?_, ?_, ?_, ?_, fun hunknown k p hp hknown => ?_⟩
  · rw [List.map_append, List.nodup_append]
    refine ⟨h.nodup, List.nodup_singleton _, fun k hk k' hk' => ?_⟩
    obtain ⟨r, hr, rfl⟩ := List.mem_map.1 hk
    obtain rfl := List.mem_singleton.1 hk'
    exact hfresh r hr
  · intro r hr
    rcases List.mem_append.1 hr with hr | hr
    · exact h.tags r hr
    · obtain rfl := List.mem_singleton.1 hr
      rfl
  · intro r hr
    rcases List.mem_append.1 hr with hr | hr
    · obtain ⟨p, hp, hknown, hqp⟩ := h.current r hr
      exact ⟨p, find?_entered_of_ne (hfresh r hr) hp, hknown, hqp⟩
    · obtain rfl := List.mem_singleton.1 hr
      obtain ⟨p, hp⟩ := hclient
      exact ⟨_, find?_entered hp, hip, rfl⟩
  · intro r hr
    rcases List.mem_append.1 hr with hr | hr
    · rw [Function.update_of_ne (hfresh r hr)]
      exact h.requesters r hr
    · obtain rfl := List.mem_singleton.1 hr
      exact Function.update_self ..
  · intro r hr
    rcases List.mem_append.1 hr with hr | hr
    · exact h.connected r hr
    · obtain rfl := List.mem_singleton.1 hr
      exact hc
  · rw [List.map_append, List.mem_append]
    by_cases hk : k = msg.clientId
    · exact Or.inr (List.mem_singleton.2 hk)
    · refine Or.inl (h.covers ?_ k p ?_ hknown)
      · -- the participant that is not known is not the one that was entered
        obtain ⟨p₀, hp₀, hp₀ip⟩ : ∃ p ∈ (entered ch msg).members, p.ip = 0 := by
          by_contra hnone
          push Not at hnone
          rw [CollectiveChannel.allNodesKnown_iff.2 hnone] at hunknown
          contradiction
        obtain ⟨k', q, hq, rfl⟩ := StateRepository.mem_members_updateIn hp₀
        by_cases hk' : k' = msg.clientId
        · rw [if_pos hk'] at hp₀ip
          exact absurd hp₀ip hip
        · rw [if_neg hk'] at hp₀ip
          refine Bool.eq_false_iff.2 fun hall => ?_
          exact CollectiveChannel.allNodesKnown_iff.1 hall q (OrderedMap.mem_values.2 ⟨k', hq⟩)
            hp₀ip
      · obtain ⟨q, hq, rfl⟩ := OrderedMap.mem_modify.1 hp
        rwa [if_neg hk] at *

/-- When the last participant becomes known there is a response for each. -/
theorem Waiting.length_of_known (h : Waiting ch requester clients pm) (hip : msg.clientIp ≠ 0)
    (hfresh : ∀ r ∈ pm, r.2.clientId ≠ msg.clientId) (hc : c ∈ clients)
    (hclient : ∃ p, ch.participants.find? msg.clientId = some p)
    (hunknown : ch.allNodesKnown = false) (hknown : (entered ch msg).allNodesKnown = true) :
    (pm ++ [(c, response ch msg)]).length = ch.participants.entries.length := by
  have hafter := h.append_response hip hfresh hc hclient
  refine le_antisymm (by simpa only [length_entered] using hafter.length_le) ?_
  have hsubset : ∀ k ∈ ch.participants.entries.map Prod.fst,
      k ∈ (pm ++ [(c, response ch msg)]).map fun r => r.2.clientId := by
    intro k hk
    rw [List.map_append, List.mem_append]
    by_cases hk' : k = msg.clientId
    · exact Or.inr (List.mem_singleton.2 hk')
    · obtain ⟨⟨k, p⟩, hp, rfl⟩ := List.mem_map.1 hk
      have hp' := OrderedMap.find?_eq_some_iff.1
        (find?_entered_of_ne hk' (OrderedMap.find?_eq_some_iff.2 hp))
      exact Or.inl (h.covers hunknown k p hp (CollectiveChannel.allNodesKnown_iff.1 hknown p
        (OrderedMap.mem_values.2 ⟨k, hp'⟩)))
  simpa using ((ch.participants.nodup_keys).subperm hsubset).length_le

end Entered

/-! ### The agent between two events -/

/-- Clients have different pointers, channels are kept under their tags, and what is held back for a
channel waits. A channel has an owner unless its tag is in `unowned`. -/
structure Sound (unowned : List Nat) (a : Agent σ) (requester : Nat → Nat → Option ClientPtr) :
    Prop where
  ptrs : (a.clients.map Client.ptr).Nodup
  below : ∀ cl ∈ a.clients, cl.ptr < a.nextPtr
  keyed : ∀ tag ch, a.channel? tag = some ch → ch.tag = tag
  owned : ∀ tag ch, a.channel? tag = some ch →
    tag ∈ unowned ∨ ∃ cl ∈ a.clients, tag ∈ cl.channels
  waiting : ∀ tag ch, a.channel? tag = some ch →
    Waiting ch (requester tag) (a.clients.map Client.ptr) (a.pending tag)

theorem held_of_channel {a : Agent σ} {tag : Nat} {ch : CollectiveChannel}
    (h : a.channel? tag = some ch) : a.held tag = a.pending tag := by
  rw [held, h]

theorem mem_modifyClient {a : Agent σ} {c : ClientPtr} {f : Finset Nat → Finset Nat} {cl : Client} :
    cl ∈ (a.modifyClient c f).clients ↔
      ∃ cl₀ ∈ a.clients, cl = if cl₀.ptr = c then ⟨cl₀.ptr, f cl₀.channels⟩ else cl₀ := by
  simp only [modifyClient, List.mem_map, eq_comm]

theorem ptrs_modifyClient (a : Agent σ) (c : ClientPtr) (f : Finset Nat → Finset Nat) :
    (a.modifyClient c f).clients.map Client.ptr = a.clients.map Client.ptr := by
  rw [modifyClient, List.map_map]
  refine List.map_congr_left fun cl _ => ?_
  change (if cl.ptr = c then (⟨cl.ptr, f cl.channels⟩ : Client) else cl).ptr = cl.ptr
  split <;> rfl

section Invariant

variable {notify : List CollectiveChannel → σ → Except String σ} {a a' : Agent σ}
  {requester : Nat → Nat → Option ClientPtr} {unowned : List Nat} {c : ClientPtr} {tag : Nat}

theorem sound_initial (stRepo : StateRepository × σ) (hnone : stRepo.1.channels.entries = []) :
    Sound [] (initial stRepo) fun _ _ => none := by
  have hchannels : ∀ tag ch, (initial stRepo).channel? tag ≠ some ch := fun tag ch h => by
    have hmem := OrderedMap.find?_eq_some_iff.1 h
    change _ ∈ stRepo.1.channels.entries at hmem
    rw [hnone] at hmem
    contradiction
  exact ⟨List.nodup_nil, fun _ h => by contradiction, fun tag ch h => absurd h (hchannels tag ch),
    fun tag ch h => absurd h (hchannels tag ch), fun tag ch h => absurd h (hchannels tag ch)⟩

theorem Sound.modifyClient {unowned' : List Nat} {f : Finset Nat → Finset Nat}
    (h : Sound unowned a requester)
    (howned : ∀ tag ch, a.channel? tag = some ch →
      tag ∈ unowned' ∨ ∃ cl ∈ (a.modifyClient c f).clients, tag ∈ cl.channels) :
    Sound unowned' (a.modifyClient c f) requester := by
  refine ⟨?_, fun cl hcl => ?_, h.keyed, howned, fun tag ch hch => ?_⟩
  · rw [ptrs_modifyClient]
    exact h.ptrs
  · obtain ⟨cl₀, hcl₀, rfl⟩ := mem_modifyClient.1 hcl
    have hbelow := h.below cl₀ hcl₀
    split <;> exact hbelow
  · rw [ptrs_modifyClient]
    exact h.waiting tag ch hch

theorem Sound.own (h : Sound [tag] a requester) (hc : a.Connected c) :
    Sound [] (a.modifyClient c (insert tag)) requester := by
  refine h.modifyClient fun tag' ch hch => Or.inr ?_
  rcases h.owned tag' ch hch with htag | ⟨cl, hcl, hmem⟩
  · obtain rfl := List.mem_singleton.1 htag
    obtain ⟨cl, hcl, rfl⟩ := List.mem_map.1 hc
    exact ⟨_, mem_modifyClient.2 ⟨cl, hcl, (if_pos rfl).symm⟩, Finset.mem_insert_self ..⟩
  · refine ⟨_, mem_modifyClient.2 ⟨cl, hcl, rfl⟩, ?_⟩
    split
    · exact Finset.mem_insert_of_mem hmem
    · exact hmem

theorem Sound.unref (h : Sound [] a requester) :
    Sound [tag] (a.modifyClient c fun s => s.erase tag) requester := by
  refine h.modifyClient fun tag' ch hch => ?_
  obtain ⟨cl, hcl, hmem⟩ := (h.owned tag' ch hch).resolve_left (List.not_mem_nil)
  by_cases htag : tag' = tag
  · exact Or.inl (List.mem_singleton.2 htag)
  · refine Or.inr ⟨_, mem_modifyClient.2 ⟨cl, hcl, rfl⟩, ?_⟩
    split
    · exact Finset.mem_erase.2 ⟨htag, hmem⟩
    · exact hmem

theorem find?_client (h : (a.clients.map Client.ptr).Nodup) {cl : Client} (hcl : cl ∈ a.clients) :
    a.clients.find? (fun cl' => cl'.ptr = cl.ptr) = some cl := by
  cases hfind : a.clients.find? fun cl' => cl'.ptr = cl.ptr with
  | none => simpa using List.find?_eq_none.1 hfind cl hcl
  | some cl' =>
      have hptr : cl'.ptr = cl.ptr := by simpa using List.find?_some hfind
      rw [List.inj_on_of_nodup_map h (List.mem_of_find?_eq_some hfind) hcl hptr]

theorem Sound.disown (h : Sound [] a requester) :
    Sound ((a.ownedBy c).sort (· ≤ ·)) (a.modifyClient c fun _ => ∅) requester := by
  refine h.modifyClient fun tag ch hch => ?_
  obtain ⟨cl, hcl, hmem⟩ := (h.owned tag ch hch).resolve_left (List.not_mem_nil)
  by_cases hc : cl.ptr = c
  · subst hc
    refine Or.inl ((Finset.mem_sort _).2 ?_)
    rw [ownedBy, find?_client h.ptrs hcl]
    exact hmem
  · exact Or.inr ⟨cl, mem_modifyClient.2 ⟨cl, hcl, (if_neg hc).symm⟩, hmem⟩

/-! ### Channels without an owner go -/

/-- Only channels went. -/
structure Shrinks (a a' : Agent σ) : Prop where
  clients : a'.clients = a.clients
  pending : a'.pendingGetChannelResponses = a.pendingGetChannelResponses
  channels : ∀ tag ch, a'.channel? tag = some ch → a.channel? tag = some ch

theorem checkRemoveChannel_sound (h : checkRemoveChannel notify a tag = .ok a')
    (hs : Sound (tag :: unowned) a requester) : Sound unowned a' requester ∧ Shrinks a a' := by
  rw [checkRemoveChannel] at h
  split at h
  · rename_i hany
    obtain rfl := Except.ok.inj h
    refine ⟨⟨hs.ptrs, hs.below, hs.keyed, fun tag' ch hch => ?_, hs.waiting⟩, rfl, rfl,
      fun _ _ h => h⟩
    rcases hs.owned tag' ch hch with htag | howner
    · rcases List.mem_cons.1 htag with rfl | hunowned
      · exact Or.inr (by simpa using hany)
      · exact Or.inl hunowned
    · exact Or.inr howner
  · obtain ⟨stRepo, hcall, h⟩ := Fallible.bind_eq_ok.1 h
    obtain rfl := Except.ok.inj h
    have hcalled := StateRepository.call_ok hcall
    have hchannel : ∀ tag' ch, stRepo.1.getChannel tag' = some ch →
        a.channel? tag' = some ch ∧ tag' ≠ tag := by
      intro tag' ch hch
      cases hcalled with
      | removed _ =>
          obtain ⟨hmem, hne⟩ := OrderedMap.mem_erase.1 (OrderedMap.find?_eq_some_iff.1 hch)
          exact ⟨OrderedMap.find?_eq_some_iff.2 hmem, hne⟩
    refine ⟨⟨hs.ptrs, hs.below, fun tag' ch hch => hs.keyed tag' ch (hchannel tag' ch hch).1,
      fun tag' ch hch => ?_, fun tag' ch hch => hs.waiting tag' ch (hchannel tag' ch hch).1⟩, rfl, rfl,
      fun tag' ch hch => (hchannel tag' ch hch).1⟩
    obtain ⟨hch, hne⟩ := hchannel tag' ch hch
    exact (hs.owned tag' ch hch).imp_left fun htag => (List.mem_cons.1 htag).resolve_left hne

theorem checkRemoveChannels_sound (h : unowned.foldlM (checkRemoveChannel notify) a = .ok a')
    (hs : Sound unowned a requester) : Sound [] a' requester ∧ Shrinks a a' := by
  induction unowned generalizing a with
  | nil =>
      rw [Fallible.foldlM_nil_eq_ok] at h
      subst h
      exact ⟨hs, rfl, rfl, fun _ _ h => h⟩
  | cons tag unowned ih =>
      obtain ⟨a₁, hremove, h⟩ := Fallible.foldlM_cons_eq_ok.1 h
      obtain ⟨hs₁, hclients₁, hpending₁, hchannels₁⟩ := checkRemoveChannel_sound hremove hs
      obtain ⟨hs', hclients, hpending, hchannels⟩ := ih h hs₁
      exact ⟨hs', hclients.trans hclients₁, hpending.trans hpending₁, fun tag ch hch =>
        hchannels₁ tag ch (hchannels tag ch hch)⟩

/-! ### Clients come and go -/

theorem Waiting.clients_subset {ch : CollectiveChannel} {requester : Nat → Option ClientPtr}
    {clients clients' : List ClientPtr} {pm : List Reply} (h : Waiting ch requester clients pm)
    (hsubset : ∀ r ∈ pm, r.1 ∈ clients → r.1 ∈ clients') : Waiting ch requester clients' pm :=
  ⟨h.nodup, h.tags, h.current, h.requesters, fun r hr => hsubset r hr (h.connected r hr), h.covers⟩

theorem mem_onNewClient {cl : Client} :
    cl ∈ a.onNewClient.clients ↔ cl ∈ a.clients ∨ cl = ⟨a.nextPtr, ∅⟩ := by
  simp [onNewClient]

theorem onNewClient_ptrs (hptrs : (a.clients.map Client.ptr).Nodup)
    (hbelow : ∀ cl ∈ a.clients, cl.ptr < a.nextPtr) :
    (a.onNewClient.clients.map Client.ptr).Nodup ∧
      ∀ cl ∈ a.onNewClient.clients, cl.ptr < a.onNewClient.nextPtr := by
  refine ⟨?_, fun cl hcl => ?_⟩
  · rw [onNewClient, List.map_append, List.nodup_append]
    refine ⟨hptrs, List.nodup_singleton _, fun ptr hptr ptr' hptr' => ?_⟩
    obtain ⟨cl, hcl, rfl⟩ := List.mem_map.1 hptr
    obtain rfl := List.mem_singleton.1 hptr'
    exact (hbelow cl hcl).ne
  · rcases mem_onNewClient.1 hcl with hcl | rfl
    · exact Nat.lt_succ_of_lt (hbelow cl hcl)
    · exact Nat.lt_succ_self _

theorem Sound.onNewClient (h : Sound [] a requester) : Sound [] a.onNewClient requester := by
  obtain ⟨hptrs, hbelow⟩ := onNewClient_ptrs h.ptrs h.below
  refine ⟨hptrs, hbelow, h.keyed, fun tag ch hch => Or.inr ?_, fun tag ch hch => ?_⟩
  · obtain ⟨cl, hcl, hmem⟩ := (h.owned tag ch hch).resolve_left List.not_mem_nil
    exact ⟨cl, mem_onNewClient.2 (Or.inl hcl), hmem⟩
  · refine (h.waiting tag ch hch).clients_subset fun r _ hr => ?_
    rw [Agent.onNewClient, List.map_append]
    exact List.mem_append_left _ hr

theorem onClientUnrefChannel_sound (h : onClientUnrefChannel notify c tag a = .ok a')
    (hs : Sound [] a requester) : Sound [] a' requester ∧
      ∀ tag ch, a'.channel? tag = some ch → a.channel? tag = some ch := by
  rw [onClientUnrefChannel] at h
  split at h
  · obtain ⟨hs', hshrinks⟩ := checkRemoveChannel_sound h (hs.unref (c := c))
    exact ⟨hs', hshrinks.channels⟩
  · obtain rfl := Except.ok.inj h
    exact ⟨hs, fun _ _ h => h⟩

theorem onDisconnect_sound (h : onDisconnect notify c a = .ok a') (hs : Sound [] a requester)
    (horderly : Orderly a (.disconnect c)) : Sound [] a' requester ∧
      ∀ tag ch, a'.channel? tag = some ch → a.channel? tag = some ch := by
  obtain ⟨a₁, hremove, h⟩ := Fallible.bind_eq_ok.1 h
  obtain rfl := Except.ok.inj h
  obtain ⟨hs₁, hclients, hpending, hchannels⟩ := checkRemoveChannels_sound hremove hs.disown
  have howner : ∀ tag ch, a₁.channel? tag = some ch →
      ∃ cl ∈ a₁.clients, cl ∈ a.clients ∧ cl.ptr ≠ c ∧ tag ∈ cl.channels := by
    intro tag ch hch
    obtain ⟨cl, hcl, hmem⟩ := (hs₁.owned tag ch hch).resolve_left List.not_mem_nil
    have hcl' := hcl
    rw [hclients] at hcl'
    obtain ⟨cl₀, hcl₀, rfl⟩ := mem_modifyClient.1 hcl'
    by_cases hc : cl₀.ptr = c
    · rw [if_pos hc] at hmem
      contradiction
    · rw [if_neg hc] at hcl hmem
      exact ⟨cl₀, hcl, hcl₀, hc, hmem⟩
  refine ⟨⟨?_, fun cl hcl => ?_, hs₁.keyed, fun tag ch hch => Or.inr ?_, fun tag ch hch => ?_⟩,
    hchannels⟩
  · exact hs₁.ptrs.sublist (List.filter_sublist.map _)
  · exact hs₁.below cl (List.mem_filter.1 hcl).1
  · obtain ⟨cl, hcl, -, hc, hmem⟩ := howner tag ch hch
    exact ⟨cl, List.mem_filter.2 ⟨hcl, decide_eq_true hc⟩, hmem⟩
  · obtain ⟨cl, -, hcl, hc, hmem⟩ := howner tag ch hch
    refine (hs₁.waiting tag ch hch).clients_subset fun r hr hconnected => ?_
    have hheld : a₁.pending tag = a.held tag := by
      rw [held_of_channel (a := a) (hchannels tag ch hch), pending, hpending]
      rfl
    have hgone := horderly cl hcl hc tag hmem r (hheld ▸ hr)
    obtain ⟨cl', hcl', heq⟩ := List.mem_map.1 hconnected
    exact List.mem_map.2 ⟨cl', List.mem_filter.2 ⟨hcl', decide_eq_true (heq ▸ hgone)⟩, heq⟩

/-! ### A request -/

theorem lookup_cleared (t : FinTable Nat (List Reply)) (tag tag' : Nat) :
    ((t.filter fun k _ => k ≠ tag).lookup tag').getD [] =
      if tag' = tag then [] else (t.lookup tag').getD [] := by
  rw [FinTable.lookup_filter]
  by_cases htag : tag' = tag
  · cases t.lookup tag' <;> simp [htag, Option.filter]
  · cases t.lookup tag' <;> simp [htag, Option.filter]

theorem holdReply_eq {ch : CollectiveChannel} {reply : Reply} {a a' : Agent σ} {sent : List Reply}
    (h : (a', sent) = holdReply ch reply a) :
    a'.clients = a.clients ∧ a'.nextPtr = a.nextPtr ∧ a'.stRepo = a.stRepo ∧
      (sent = if (a.pending ch.tag ++ [reply]).length = ch.participants.entries.length then
        a.pending ch.tag ++ [reply] else []) ∧
      ∀ tag, a'.pending tag = if tag = ch.tag then
        if (a.pending ch.tag ++ [reply]).length = ch.participants.entries.length then []
        else a.pending ch.tag ++ [reply] else a.pending tag := by
  rw [holdReply] at h
  split at h
  · rename_i hlength
    obtain ⟨rfl, rfl⟩ := Prod.mk.inj h
    refine ⟨rfl, rfl, rfl, (if_pos hlength).symm, fun tag => ?_⟩
    rw [if_pos hlength]
    exact lookup_cleared ..
  · rename_i hlength
    obtain ⟨rfl, rfl⟩ := Prod.mk.inj h
    refine ⟨rfl, rfl, rfl, (if_neg hlength).symm, fun tag => ?_⟩
    rw [if_neg hlength, pending, FinTable.lookup_put]
    split <;> rfl

/-- The participant is entered into its channel, and no other channel changes. -/
theorem channel?_entered {msg : GetChannel} {ch : CollectiveChannel}
    (hcalled : Called notify a.stRepo
      (.updateChannelParticipant msg.tag msg.clientId (participantUpdate ch msg)) a'.stRepo)
    (hch : a.channel? msg.tag = some ch) (tag : Nat) :
    a'.channel? tag = if tag = msg.tag then some (entered ch msg) else a.channel? tag := by
  obtain ⟨-, -, -, -, hchannels⟩ := hcalled.channels_update
  rw [channel?, StateRepository.getChannel, hchannels, OrderedMap.find?_modify]
  by_cases htag : tag = msg.tag
  · rw [if_pos htag, if_pos htag, htag]
    exact congrArg (Option.map _) hch
  · rw [if_neg htag, if_neg htag]
    rfl

theorem ensureChannel_sound {msg : GetChannel} {ch : CollectiveChannel}
    (h : ensureChannel notify msg a = .ok a') (hs : Sound [] a requester)
    (hch : a'.channel? msg.tag = some ch) :
    Sound [msg.tag] a' requester ∧ a'.clients = a.clients ∧
      (∀ tag, tag ≠ msg.tag → a'.channel? tag = a.channel? tag) ∧
      ((a.channel? msg.tag = some ch ∧ a'.pending msg.tag = a.held msg.tag) ∨
        (a'.pending msg.tag = [] ∧ ∀ p ∈ ch.members, p.ip = 0)) := by
  rcases ensureChannel_ok h with ⟨ch', hch', rfl⟩ | ⟨hnone, r, c, stRepo, hsame, hallocated, hcalled, rfl⟩
  · refine ⟨⟨hs.ptrs, hs.below, hs.keyed, fun tag ch hch => ?_, hs.waiting⟩, rfl, fun _ _ => rfl,
      Or.inl ⟨hch, (held_of_channel hch).symm⟩⟩
    exact Or.inr ((hs.owned tag ch hch).resolve_left List.not_mem_nil)
  · cases hcalled with
    | added hnew _ =>
        have hnew' : r.channels.find? msg.tag = none := by rwa [← hallocated.tag]
        have hfind : ∀ tag ch, (r.channels.insert c.tag c).find? tag = some ch ↔
            (tag = msg.tag ∧ ch = c) ∨ a.channel? tag = some ch := by
          intro tag ch
          rw [OrderedMap.find?_eq_some_iff, OrderedMap.mem_insert hnew, Prod.mk.injEq,
            hallocated.tag, hsame, ← OrderedMap.find?_eq_some_iff]
          rfl
        have hc : ch = c := by
          rcases (hfind _ _).1 hch with ⟨-, rfl⟩ | hold
          · rfl
          · rw [hnone] at hold
            contradiction
        subst hc
        have hunknown : ∀ k p, (k, p) ∈ ch.participants.entries → p.ip = 0 := fun k p hp => by
          rw [hallocated.unknown k p hp]
        refine ⟨⟨hs.ptrs, hs.below, fun tag ch' hch' => ?_, fun tag ch' hch' => ?_,
          fun tag ch' hch' => ?_⟩, rfl, fun tag htag => Option.ext fun ch' => ?_, Or.inr ⟨?_, ?_⟩⟩
        · rcases (hfind _ _).1 hch' with ⟨rfl, rfl⟩ | hold
          · exact hallocated.tag
          · exact hs.keyed tag ch' hold
        · rcases (hfind _ _).1 hch' with ⟨rfl, -⟩ | hold
          · exact Or.inl (List.mem_singleton_self _)
          · exact Or.inr ((hs.owned tag ch' hold).resolve_left List.not_mem_nil)
        · rw [pending, lookup_cleared]
          rcases (hfind _ _).1 hch' with ⟨rfl, rfl⟩ | hold
          · rw [if_pos rfl]
            exact Waiting.nil fun _ => hunknown
          · rw [if_neg (by rintro rfl; rw [hnone] at hold; contradiction)]
            exact hs.waiting tag ch' hold
        · rw [channel?, StateRepository.getChannel, hfind]
          exact or_iff_right fun h => htag h.1
        · rw [pending, lookup_cleared, if_pos rfl]
        · intro p hp
          obtain ⟨k, hk⟩ := OrderedMap.mem_values.1 hp
          exact hunknown k p hk

/-- What a request leads to: the channel has the participant entered, its responses were sent or wait,
and all else is as it was. -/
structure Requested (a : Agent σ) (requester : Nat → Nat → Option ClientPtr) (c : ClientPtr)
    (msg : GetChannel) (ch : CollectiveChannel) (pm sent : List Reply) (a' : Agent σ) : Prop where
  sound : Sound [] a' (record requester (.getChannel c msg))
  tag : ch.tag = msg.tag
  channels : ∀ tag, a'.channel? tag = if tag = msg.tag then some (entered ch msg) else a.channel? tag
  waiting : Waiting (entered ch msg) (record requester (.getChannel c msg) msg.tag)
    (a'.clients.map Client.ptr) pm
  sent : sent = if pm.length = (entered ch msg).participants.entries.length then pm else []
  completed : (∀ ch₀, a.channel? msg.tag = some ch₀ → ch₀.allNodesKnown = false) →
    (entered ch msg).allNodesKnown = true → pm.length = (entered ch msg).participants.entries.length

theorem onClientGetChannel_requested {msg : GetChannel} {sent : List Reply}
    (h : onClientGetChannel notify c msg a = .ok (a', sent)) (hs : Sound [] a requester)
    (hc : a.Connected c) (horderly : Orderly a (.getChannel c msg)) :
    ∃ ch pm, Requested a requester c msg ch pm sent a' := by
  obtain ⟨hip, hfresh⟩ := horderly
  obtain ⟨a₁, ch, stRepo, hensure, hch, hcalled, heq⟩ := onClientGetChannel_ok h
  obtain ⟨hs₁, hclients, hother, hthis⟩ := ensureChannel_sound hensure hs hch
  obtain ⟨ch', p, hch', hp, -⟩ := hcalled.channels_update
  obtain rfl := Option.some.inj (hch.symm.trans hch')
  have htag : ch.tag = msg.tag := hs₁.keyed _ _ hch
  have hc₁ : a₁.Connected c := by rwa [Connected, hclients]
  have hfresh₁ : ∀ r ∈ a₁.pending msg.tag, r.2.clientId ≠ msg.clientId := by
    rcases hthis with ⟨-, hpending⟩ | ⟨hpending, -⟩
    · rwa [hpending]
    · simp [hpending]
  have hwaiting := hs₁.waiting _ _ hch
  have hwaiting' := hwaiting.append_response hip hfresh₁ hc₁ ⟨p, hp⟩
  obtain ⟨hclients', hnextPtr, hstRepo, hsent, hpending⟩ := holdReply_eq heq
  have howner := hs₁.own hc₁
  rw [← htag] at howner
  have hptrs : a'.clients.map Client.ptr = a₁.clients.map Client.ptr := by
    rw [hclients']
    exact ptrs_modifyClient ..
  change a'.stRepo = stRepo at hstRepo
  rw [← hstRepo] at hcalled
  have hchannel := channel?_entered hcalled hch
  have hlive : ∀ tag ch', a'.channel? tag = some ch' →
      tag = msg.tag ∧ ch' = entered ch msg ∨ tag ≠ msg.tag ∧ a₁.channel? tag = some ch' := by
    intro tag ch' hch'
    rw [hchannel] at hch'
    split at hch'
    · rename_i htag
      exact Or.inl ⟨htag, (Option.some.inj hch').symm⟩
    · rename_i htag
      exact Or.inr ⟨htag, hch'⟩
  have hpm : ∀ tag, a'.pending tag = if tag = msg.tag then
      if (a₁.pending msg.tag ++ [(c, response ch msg)]).length =
          (entered ch msg).participants.entries.length then []
      else a₁.pending msg.tag ++ [(c, response ch msg)] else a₁.pending tag := by
    rw [length_entered, ← htag]
    exact hpending
  have hrequester : record requester (.getChannel c msg) msg.tag =
      Function.update (requester msg.tag) msg.clientId (some c) := Function.update_self ..
  refine ⟨ch, a₁.pending msg.tag ++ [(c, response ch msg)],
    ⟨?_, ?_, fun tag ch' hch' => ?_, fun tag ch' hch' => Or.inr ?_, fun tag ch' hch' => ?_⟩, htag,
    fun tag => ?_, ?_, ?_, fun hunknown hknown => ?_⟩
  · rw [hptrs]
    exact hs₁.ptrs
  · rw [hclients', hnextPtr]
    exact howner.below
  · rcases hlive tag ch' hch' with ⟨rfl, rfl⟩ | ⟨-, hch'⟩
    · exact htag
    · exact hs₁.keyed tag ch' hch'
  · have hch₁ : ∃ ch₁, a₁.channel? tag = some ch₁ := by
      rcases hlive tag ch' hch' with ⟨rfl, -⟩ | ⟨-, hch'⟩
      · exact ⟨ch, hch⟩
      · exact ⟨ch', hch'⟩
    obtain ⟨ch₁, hch₁⟩ := hch₁
    rw [hclients']
    exact (howner.owned tag ch₁ hch₁).resolve_left List.not_mem_nil
  · rw [hptrs, hpm]
    rcases hlive tag ch' hch' with ⟨rfl, rfl⟩ | ⟨hne, hch'⟩
    · rw [if_pos rfl, hrequester]
      split
      · -- once they are sent every participant is known
        rename_i hlength
        refine Waiting.nil fun hunknown => ?_
        rw [hwaiting'.known_of_length hlength] at hunknown
        contradiction
      · exact hwaiting'
    · rw [if_neg hne, record, Function.update_of_ne hne]
      exact hs₁.waiting tag ch' hch'
  · rw [hchannel]
    by_cases htag : tag = msg.tag
    · rw [if_pos htag, if_pos htag]
    · rw [if_neg htag, if_neg htag, hother tag htag]
  · rw [hrequester, hptrs]
    exact hwaiting'
  · rw [length_entered, ← htag]
    exact hsent
  · rw [length_entered]
    refine hwaiting.length_of_known hip hfresh₁ hc₁ ⟨p, hp⟩ ?_ hknown
    rcases hthis with ⟨hch₀, -⟩ | ⟨-, hzero⟩
    · exact hunknown ch hch₀
    · refine Bool.eq_false_iff.2 fun hall => ?_
      have hmem := OrderedMap.mem_values.2 ⟨_, OrderedMap.find?_eq_some_iff.1 hp⟩
      exact CollectiveChannel.allNodesKnown_iff.1 hall p hmem (hzero p hmem)

end Invariant

/-! ### Every event -/

section Events

variable {notify : List CollectiveChannel → σ → Except String σ} {t t' : Served σ}

theorem sendsOnCompletion_of_quiet (hsent : t'.sent = [])
    (hchannels : ∀ tag ch, t'.agent.channel? tag = some ch → t.agent.channel? tag = some ch) :
    SendsOnCompletion t t' := by
  have hnone : ∀ reply, reply ∉ t'.sent := fun reply => hsent ▸ List.not_mem_nil
  refine ⟨fun reply h => absurd h (hnone reply), fun reply h => absurd h (hnone reply),
    fun reply h => absurd h (hnone reply), fun tag ch' hch' hknown hbefore => ?_⟩
  rw [hbefore ch' (hchannels tag ch' hch')] at hknown
  contradiction

theorem getChannel_sends {c : ClientPtr} {msg : GetChannel}
    (h : Serves notify t (.getChannel c msg) t') (hs : Sound [] t.agent t.requester)
    (horderly : Orderly t.agent (.getChannel c msg)) :
    Sound [] t'.agent t'.requester ∧ SendsOnCompletion t t' := by
  obtain ⟨hc, hhandle, hrequester⟩ := h
  obtain ⟨ch, pm, hreq⟩ := onClientGetChannel_requested hhandle hs hc horderly
  rw [hrequester]
  refine ⟨hreq.sound, ?_⟩
  have hchannel : t'.agent.channel? msg.tag = some (entered ch msg) := by
    rw [hreq.channels, if_pos rfl]
  -- what is sent is everything that was held back
  have hmem : ∀ reply ∈ t'.sent, reply ∈ pm ∧ pm.length = (entered ch msg).participants.entries.length := by
    intro reply hreply
    rw [hreq.sent] at hreply
    split at hreply
    · rename_i hlength
      exact ⟨hreply, hlength⟩
    · contradiction
  have htags : ∀ reply ∈ pm, reply.2.tag = msg.tag := fun reply hreply =>
    (hreq.waiting.tags reply hreply).trans hreq.tag
  refine ⟨fun reply hreply => ?_, fun reply hreply => ?_, fun reply hreply => ?_,
    fun tag ch' hch' hknown hbefore k hk => ?_⟩
  · obtain ⟨hpm, hlength⟩ := hmem reply hreply
    exact ⟨_, by rw [htags reply hpm, hchannel], hreq.waiting.known_of_length hlength⟩
  · obtain ⟨hpm, -⟩ := hmem reply hreply
    obtain ⟨p, hp, -, hqp⟩ := hreq.waiting.current reply hpm
    exact ⟨_, p, by rw [htags reply hpm, hchannel], hp, hqp⟩
  · exact hreq.waiting.connected reply (hmem reply hreply).1
  · by_cases htag : tag = msg.tag
    · subst htag
      obtain rfl := Option.some.inj (hchannel.symm.trans hch')
      have hlength := hreq.completed hbefore hknown
      obtain ⟨r, hr, hfilter, hc⟩ := hreq.waiting.filter_eq (hreq.waiting.keys_of_length hlength hk)
      refine ⟨r.1, by rw [hrequester, hc], fun _ => ⟨r, ?_, rfl⟩⟩
      rw [hreq.sent, if_pos hlength, ← hreq.tag]
      exact hfilter
    · rw [hreq.channels, if_neg htag] at hch'
      rw [hbefore ch' hch'] at hknown
      contradiction

/-- What each event keeps, and what it sends. -/
theorem serves_sends {e : Event} (h : Serves notify t e t') (hs : Sound [] t.agent t.requester)
    (horderly : Orderly t.agent e) :
    Sound [] t'.agent t'.requester ∧ SendsOnCompletion t t' := by
  cases e with
  | getChannel c msg => exact getChannel_sends h hs horderly
  | newClient =>
      obtain ⟨-, hhandle, hrequester⟩ := h
      obtain ⟨hagent, hsent⟩ := Prod.mk.inj (Except.ok.inj hhandle)
      rw [hrequester, ← hagent]
      exact ⟨hs.onNewClient, sendsOnCompletion_of_quiet hsent.symm fun tag ch hch => by
        rwa [← hagent] at hch⟩
  | unrefChannel c tag =>
      obtain ⟨-, hhandle, hrequester⟩ := h
      obtain ⟨a', hunref, hhandle⟩ := Fallible.bind_eq_ok.1 hhandle
      obtain ⟨hagent, hsent⟩ := Prod.mk.inj (Except.ok.inj hhandle)
      rw [hagent] at hunref
      obtain ⟨hs', hchannels⟩ := onClientUnrefChannel_sound hunref hs
      rw [hrequester]
      exact ⟨hs', sendsOnCompletion_of_quiet hsent.symm hchannels⟩
  | disconnect c =>
      obtain ⟨-, hhandle, hrequester⟩ := h
      obtain ⟨a', hdisconnect, hhandle⟩ := Fallible.bind_eq_ok.1 hhandle
      obtain ⟨hagent, hsent⟩ := Prod.mk.inj (Except.ok.inj hhandle)
      rw [hagent] at hdisconnect
      obtain ⟨hs', hchannels⟩ := onDisconnect_sound hdisconnect hs horderly
      rw [hrequester]
      exact ⟨hs', sendsOnCompletion_of_quiet hsent.symm hchannels⟩

/-- **Replies.** In a run of orderly events responses are sent when, and only when, the channel
becomes complete or was complete, and to the right clients. -/
theorem run_sendsOnCompletion (notify : List CollectiveChannel → σ → Except String σ)
    (baseMac : MacAddr) (ip : IPv4Addr) (s : σ) (run : List (Event × Served σ))
    (hrun : Along (fun t e t' => Serves notify t e t' ∧ Orderly t.agent e)
      ⟨initial (StateRepository.initial baseMac ip, s), [], fun _ _ => none⟩ run) :
    Along (fun t _ t' => SendsOnCompletion t t')
      ⟨initial (StateRepository.initial baseMac ip, s), [], fun _ _ => none⟩ run :=
  hrun.imp (I := fun t => Sound [] t.agent t.requester)
    (fun _ _ _ hs h => (serves_sends h.1 hs h.2).1) (fun _ _ _ hs h => (serves_sends h.1 hs h.2).2)
    (sound_initial _ rfl)

end Events

/-! ### A channel of two participants -/

namespace TwoParticipants

open AsicDriver

def start : Served Asic :=
  ⟨initial (StateRepository.initial 0 1, initialSetup 1024), [], fun _ _ => none⟩

def request (clientId : Nat) (ip : IPv4Addr) : Event :=
  .getChannel 0 ⟨[1, 2], clientId, 5, 3, ip, 6, 0⟩

def serve (t : Served Asic) (e : Event) : Served Asic :=
  match handle onStRepoChannels t.agent e with
  | .ok x => ⟨x.1, x.2, record t.requester e⟩
  | .error _ => t

theorem serves_serve {t : Served Asic} {e : Event}
    (h : Possible t.agent e ∧ (handle onStRepoChannels t.agent e).isOk = true) :
    Serves onStRepoChannels t e (serve t e) := by
  obtain ⟨hpossible, hok⟩ := h
  cases hhandle : handle onStRepoChannels t.agent e with
  | error message =>
      rw [hhandle] at hok
      contradiction
  | ok x =>
      refine ⟨hpossible, ?_, ?_⟩
      · rw [hhandle, serve, hhandle]
      · rw [serve, hhandle]

private theorem along_serves {t : Served Asic} {es : List Event}
    (h : Along (fun t e _ => (Possible t.agent e ∧
        (handle onStRepoChannels t.agent e).isOk = true) ∧ Orderly t.agent e) t
      (runOf serve t es)) :
    Along (fun t e t' => Serves onStRepoChannels t e t' ∧ Orderly t.agent e) t
      (runOf serve t es) :=
  h.of_runOf fun _ _ h => ⟨serves_serve h.1, h.2⟩

theorem registered_answered :
    Along (fun t _ t' => SendsOnCompletion t t') start
      (runOf serve start [.newClient, request 1 10, request 2 11]) :=
  run_sendsOnCompletion onStRepoChannels 0 1 (initialSetup 1024) _
    (along_serves (by decide +kernel))

/-- The first participant asks again, and gets two responses while the second one is unknown. -/
theorem asked_again_answered :
    Along (Serves onStRepoChannels) start
        (runOf serve start [.newClient, request 1 10, request 1 10]) ∧
      ¬ Along (fun t _ t' => SendsOnCompletion t t') start
        (runOf serve start [.newClient, request 1 10, request 1 10]) := by
  have hpossible : Along (fun t e _ => Possible t.agent e ∧
      (handle onStRepoChannels t.agent e).isOk = true) start
      (runOf serve start [.newClient, request 1 10, request 1 10]) := by
    decide +kernel
  refine ⟨hpossible.of_runOf fun _ _ => serves_serve, fun h => ?_⟩
  obtain ⟨-, -, hlast, -⟩ := h
  obtain ⟨ch, hch, hknown⟩ := hlast.complete (0, ⟨1, 5, 1, 257⟩) (by decide +kernel)
  have hunknown : ((serve (serve (serve start .newClient) (request 1 10))
      (request 1 10)).agent.channel? 5).map CollectiveChannel.allNodesKnown = some false := by
    decide +kernel
  rw [hch, Option.map_some, hknown] at hunknown
  contradiction

end TwoParticipants

end Agent

end Mpitofino
