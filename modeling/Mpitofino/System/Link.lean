import Mpitofino.Control.Lifetime
import Mpitofino.Control.NodeDaemon

/-!
# The link between a node and its switch

The node daemon and the agent keep the same thing in two ways: the daemon the channels of each local
client, the agent one set for the node. The agent learns about the former through the messages on the
stream from the daemon, which arrive in order, one at a time. Other nodes are connected as well, and
what they do may happen in between.
-/

namespace Mpitofino

open NodeDaemon (NdRequest)

/-- A node daemon, the messages it has sent that have not arrived yet, the agent, and the client that
the agent has accepted for the connection. -/
structure Link (σ : Type) where
  daemon : NodeDaemon
  stream : List NdRequest
  agent : Agent σ
  client : Option ClientPtr

/-! ### Clients on the side of the agent -/

namespace Agent

variable {σ : Type} {notify : List CollectiveChannel → σ → Except String σ} {a a' : Agent σ}
  {c : ClientPtr}

def Event.ofRequest (c : ClientPtr) : NdRequest → Event
  | .getChannel msg => .getChannel c msg
  | .unrefChannel tag => .unrefChannel c tag

/-- The client whose connection an event comes from. -/
def Event.client? : Event → Option ClientPtr
  | .newClient => none
  | .getChannel c _ => some c
  | .unrefChannel c _ => some c
  | .disconnect c => some c

theorem ownedBy_congr (h : a'.clients = a.clients) : a'.ownedBy c = a.ownedBy c := by
  rw [ownedBy, h, ownedBy]

private theorem find?_modifyClient (a : Agent σ) (c c' : ClientPtr) (f : Finset Nat → Finset Nat) :
    (a.modifyClient c f).clients.find? (fun cl => cl.ptr = c') =
      (a.clients.find? fun cl => cl.ptr = c').map fun cl =>
        if cl.ptr = c then ⟨cl.ptr, f cl.channels⟩ else cl := by
  rw [modifyClient, List.find?_map]
  congr 2
  funext cl
  rw [Function.comp_apply]
  split <;> rfl

theorem ownedBy_modifyClient_self (f : Finset Nat → Finset Nat) (hc : a.Connected c) :
    (a.modifyClient c f).ownedBy c = f (a.ownedBy c) := by
  rw [ownedBy, find?_modifyClient, ownedBy]
  cases hfind : a.clients.find? fun cl => cl.ptr = c with
  | none =>
      obtain ⟨cl, hcl, hptr⟩ := List.mem_map.1 hc
      simpa [hptr] using List.find?_eq_none.1 hfind cl hcl
  | some cl =>
      have hptr : cl.ptr = c := by simpa using List.find?_some hfind
      simp [hptr]

theorem ownedBy_modifyClient_of_ne {c' : ClientPtr} (f : Finset Nat → Finset Nat) (hne : c' ≠ c) :
    (a.modifyClient c f).ownedBy c' = a.ownedBy c' := by
  rw [ownedBy, find?_modifyClient, ownedBy]
  cases hfind : a.clients.find? fun cl => cl.ptr = c' with
  | none => rfl
  | some cl =>
      have hptr : cl.ptr = c' := by simpa using List.find?_some hfind
      simp [hptr, hne]

theorem ownedBy_onNewClient : a.onNewClient.ownedBy c = a.ownedBy c := by
  rw [ownedBy, onNewClient, List.find?_append, ownedBy]
  cases a.clients.find? fun cl => cl.ptr = c with
  | some cl => rfl
  | none =>
      rw [Option.none_or, List.find?_singleton]
      split <;> rfl

theorem ownedBy_nextPtr (ha : Owned [] a) : a.ownedBy a.nextPtr = ∅ := by
  refine Finset.eq_empty_of_forall_notMem fun tag hmem => ?_
  obtain ⟨cl, hcl, hptr, -⟩ := ha.mem_ownedBy.1 hmem
  exact (ha.below cl hcl).ne hptr

theorem onClientGetChannel_clients {msg : GetChannel} {sent : List Reply}
    (h : onClientGetChannel notify c msg a = .ok (a', sent)) (ha : Owned [] a) :
    a'.clients = (a.modifyClient c (insert msg.tag)).clients := by
  obtain ⟨a₁, ch, stRepo, hensure, hch, -, heq⟩ := onClientGetChannel_ok h
  obtain ⟨ha₁, hclients⟩ := ensureChannel_owned hensure ha
  obtain ⟨hclients', -⟩ := holdReply_eq heq
  have htag : ch.tag = msg.tag := ha₁.keyed _ _ hch
  rw [hclients', modifyClient, modifyClient, hclients, htag]

theorem onClientUnrefChannel_clients {tag : Nat} (h : onClientUnrefChannel notify c tag a = .ok a') :
    tag ∉ a.ownedBy c ∧ a'.clients = a.clients ∨
      a'.clients = (a.modifyClient c fun s => s.erase tag).clients := by
  rw [onClientUnrefChannel] at h
  split at h
  · rcases checkRemoveChannel_ok h with rfl | ⟨-, stRepo, -, rfl⟩
    · exact Or.inr rfl
    · exact Or.inr rfl
  · rename_i howner
    obtain rfl := Except.ok.inj h
    exact Or.inl ⟨howner, rfl⟩

theorem ownedBy_onDisconnect {c' : ClientPtr} (h : onDisconnect notify c a = .ok a') (hne : c' ≠ c) :
    a'.ownedBy c' = a.ownedBy c' := by
  obtain ⟨a₁, hremove, h⟩ := Fallible.bind_eq_ok.1 h
  obtain rfl := Except.ok.inj h
  have hclients := (checkRemoveChannels_clients hremove).1
  have hkept : (a₁.clients.filter fun cl => cl.ptr ≠ c).find? (fun cl => cl.ptr = c') =
      a₁.clients.find? fun cl => cl.ptr = c' := by
    rw [List.find?_filter]
    congr 1
    funext cl
    by_cases hc : cl.ptr = c'
    · simp [hc, hne]
    · simp [hc]
  rw [ownedBy, hkept, ← ownedBy, ownedBy_congr hclients, ownedBy_modifyClient_of_ne _ hne]

theorem ownedBy_handle_of_ne {e : Event} {sent : List Reply} (h : handle notify a e = .ok (a', sent))
    (ha : Owned [] a) (hne : ∀ c' ∈ e.client?, c ≠ c') : a'.ownedBy c = a.ownedBy c := by
  cases e with
  | newClient =>
      obtain ⟨rfl, -⟩ := Prod.mk.inj (Except.ok.inj h)
      exact ownedBy_onNewClient
  | getChannel c' msg =>
      rw [ownedBy_congr (onClientGetChannel_clients h ha),
        ownedBy_modifyClient_of_ne _ (hne c' rfl)]
  | unrefChannel c' tag =>
      obtain ⟨a₁, hunref, h⟩ := Fallible.bind_eq_ok.1 h
      obtain ⟨rfl, -⟩ := Prod.mk.inj (Except.ok.inj h)
      rcases onClientUnrefChannel_clients hunref with ⟨-, hclients⟩ | hclients
      · exact ownedBy_congr hclients
      · rw [ownedBy_congr hclients, ownedBy_modifyClient_of_ne _ (hne c' rfl)]
  | disconnect c' =>
      obtain ⟨a₁, hdisconnect, h⟩ := Fallible.bind_eq_ok.1 h
      obtain ⟨rfl, -⟩ := Prod.mk.inj (Except.ok.inj h)
      exact ownedBy_onDisconnect hdisconnect (hne c' rfl)

end Agent

/-! ### Clients on the side of the daemon -/

/-- What a message does to the channels of the node. -/
def NodeDaemon.NdRequest.apply (tags : Finset Nat) : NdRequest → Finset Nat
  | .getChannel msg => insert msg.tag tags
  | .unrefChannel tag => tags.erase tag

namespace NodeDaemon

variable {nd : NodeDaemon} {c : ClientPtr} {tag : Nat}

/-- The tags of the local clients. -/
def localTags (nd : NodeDaemon) : Finset Nat :=
  nd.clients.foldr (fun cl tags => (cl.channels.entries.map Prod.fst).toFinset ∪ tags) ∅

theorem mem_localTags :
    tag ∈ nd.localTags ↔ ∃ cl ∈ nd.clients, tag ∈ cl.channels.entries.map Prod.fst := by
  rw [localTags]
  induction nd.clients with
  | nil => simp
  | cons cl cls ih =>
      rw [List.foldr_cons, Finset.mem_union, List.mem_toFinset, ih]
      simp

/-- The local clients are different ones. -/
structure Distinct (nd : NodeDaemon) : Prop where
  ptrs : (nd.clients.map Client.ptr).Nodup
  below : ∀ cl ∈ nd.clients, cl.ptr < nd.nextPtr

theorem localTags_congr {nd' : NodeDaemon} (h : nd'.clients.map (fun cl => (cl.ptr, cl.channels)) =
    nd.clients.map fun cl => (cl.ptr, cl.channels)) : nd'.localTags = nd.localTags := by
  have hmem : ∀ (nd : NodeDaemon) tag, tag ∈ nd.localTags ↔
      ∃ x ∈ nd.clients.map fun cl => (cl.ptr, cl.channels), tag ∈ x.2.entries.map Prod.fst := by
    intro nd tag
    simp [mem_localTags]
  ext tag
  rw [hmem, hmem, h]

theorem localTags_onClientConn : nd.onClientConn.localTags = nd.localTags := by
  ext tag
  rw [mem_localTags, mem_localTags, onClientConn]
  simp [OrderedMap.empty]

theorem mem_keys_request {msg : GetChannel} {cl : Client} :
    tag ∈ (cl.request msg).channels.entries.map Prod.fst ↔
      tag = msg.tag ∨ tag ∈ cl.channels.entries.map Prod.fst := by
  rw [Client.request]
  cases hfind : cl.channels.find? msg.tag with
  | none =>
      simp only [List.mem_map, OrderedMap.mem_insert hfind]
      constructor
      · rintro ⟨e, rfl | he, rfl⟩
        · exact Or.inl rfl
        · exact Or.inr ⟨e, he, rfl⟩
      · rintro (rfl | ⟨e, he, rfl⟩)
        · exact ⟨_, Or.inl rfl, rfl⟩
        · exact ⟨e, Or.inr he, rfl⟩
  | some qp =>
      rw [OrderedMap.insert_of_find? hfind]
      refine (or_iff_right_of_imp ?_).symm
      rintro rfl
      exact List.mem_map_of_mem (f := Prod.fst) (OrderedMap.find?_eq_some_iff.1 hfind)

theorem localTags_request {msg : GetChannel} (hc : nd.Connected c) :
    (nd.modifyClient c (Client.request msg)).localTags = insert msg.tag nd.localTags := by
  ext tag
  simp only [Finset.mem_insert, mem_localTags, modifyClient, List.mem_map]
  constructor
  · rintro ⟨_, ⟨cl, hcl, rfl⟩, hmem⟩
    split at hmem
    · rcases mem_keys_request.1 (List.mem_map.2 hmem) with htag | hmem
      · exact Or.inl htag
      · exact Or.inr ⟨cl, hcl, List.mem_map.1 hmem⟩
    · exact Or.inr ⟨cl, hcl, hmem⟩
  · rintro (rfl | ⟨cl, hcl, hmem⟩)
    · obtain ⟨cl, hcl, rfl⟩ := List.mem_map.1 hc
      refine ⟨_, ⟨cl, hcl, rfl⟩, ?_⟩
      rw [if_pos rfl]
      exact List.mem_map.1 (mem_keys_request.2 (Or.inl rfl))
    · refine ⟨_, ⟨cl, hcl, rfl⟩, ?_⟩
      split
      · exact List.mem_map.1 (mem_keys_request.2 (Or.inr (List.mem_map.2 hmem)))
      · exact hmem

theorem mem_given_back (h : nd.Distinct) :
    tag ∈ (nd.channelsOf c).filter (fun tag => nd.users c tag = 0) ↔
      tag ∈ nd.localTags ∧ tag ∉ (onClientGone c nd).daemon.localTags := by
  have husers : nd.users c tag = 0 ↔ tag ∉ (onClientGone c nd).daemon.localTags := by
    rw [users, List.length_eq_zero_iff, List.filter_eq_nil_iff, mem_localTags]
    simp only [onClientGone, not_exists, not_and]
    refine forall₂_congr fun cl hcl => not_congr ?_
    rw [Option.isSome_iff_ne_none, ne_eq, OrderedMap.find?_eq_none_iff, not_not]
  have howns : tag ∈ nd.channelsOf c ↔
      ∃ cl ∈ nd.clients, cl.ptr = c ∧ tag ∈ cl.channels.entries.map Prod.fst := by
    rw [channelsOf]
    constructor
    · intro hmem
      cases hfind : nd.clients.find? fun cl => cl.ptr = c with
      | none =>
          rw [hfind] at hmem
          contradiction
      | some cl =>
          rw [hfind] at hmem
          exact ⟨cl, List.mem_of_find?_eq_some hfind, by simpa using List.find?_some hfind, hmem⟩
    · rintro ⟨cl, hcl, hptr, hmem⟩
      cases hfind : nd.clients.find? fun cl => cl.ptr = c with
      | none => simpa [hptr] using List.find?_eq_none.1 hfind cl hcl
      | some cl' =>
          have hptr' : cl'.ptr = c := by simpa using List.find?_some hfind
          rwa [List.inj_on_of_nodup_map h.ptrs (List.mem_of_find?_eq_some hfind) hcl
            (hptr'.trans hptr.symm)]
  rw [List.mem_filter, decide_eq_true_iff, husers, howns]
  refine and_congr_left fun hgone => ⟨fun ⟨cl, hcl, _, hmem⟩ => mem_localTags.2 ⟨cl, hcl, hmem⟩, ?_⟩
  intro hlocal
  obtain ⟨cl, hcl, hmem⟩ := mem_localTags.1 hlocal
  refine ⟨cl, hcl, by_contra fun hptr => hgone ?_, hmem⟩
  exact mem_localTags.2 ⟨cl, List.mem_filter.2 ⟨hcl, decide_eq_true hptr⟩, hmem⟩

theorem foldl_unrefChannel (gone : List Nat) (tags : Finset Nat) :
    (gone.map NdRequest.unrefChannel).foldl NdRequest.apply tags = tags.filter (· ∉ gone) := by
  induction gone generalizing tags with
  | nil => simp
  | cons tag gone ih =>
      rw [List.map_cons, List.foldl_cons, ih, NdRequest.apply]
      ext tag'
      simp only [Finset.mem_filter, Finset.mem_erase, List.mem_cons, not_or]
      tauto

theorem localTags_onClientGone (h : nd.Distinct) :
    (onClientGone c nd).toSwitch.foldl NdRequest.apply nd.localTags =
      (onClientGone c nd).daemon.localTags := by
  have hsub : (onClientGone c nd).daemon.localTags ⊆ nd.localTags := by
    intro tag hmem
    obtain ⟨cl, hcl, hmem⟩ := mem_localTags.1 hmem
    exact mem_localTags.2 ⟨cl, (List.mem_filter.1 hcl).1, hmem⟩
  rw [onClientGone, foldl_unrefChannel]
  ext tag
  rw [Finset.mem_filter, mem_given_back h]
  constructor
  · rintro ⟨hmem, hkept⟩
    exact by_contra fun hgone => hkept ⟨hmem, hgone⟩
  · exact fun hmem => ⟨hsub hmem, fun hgone => hgone.2 hmem⟩

section Handle

variable {h : Handled} {e : Event}

/-- What an event sends to the switch says how the local tags change. -/
theorem localTags_handle (hhandle : handle nd e = .ok h) (hpossible : nd.Possible e)
    (hnd : nd.Distinct) : h.toSwitch.foldl NdRequest.apply nd.localTags = h.daemon.localTags := by
  cases e with
  | clientConn =>
      obtain rfl := Except.ok.inj hhandle
      exact localTags_onClientConn.symm
  | clientGetChannel c msg =>
      obtain rfl := Except.ok.inj hhandle
      rw [onClientGetChannel]
      split
      · rfl
      · exact (localTags_request hpossible).symm
  | clientGone c =>
      obtain rfl := Except.ok.inj hhandle
      exact localTags_onClientGone hnd
  | tdp ctrlIp port =>
      obtain ⟨nd', htdp, hhandle⟩ := Fallible.bind_eq_ok.1 hhandle
      obtain rfl := Except.ok.inj hhandle
      rw [onTdp] at htdp
      split at htdp
      · rw [Except.ok.inj htdp]
        rfl
      · split at htdp
        · contradiction
        · rw [← Except.ok.inj htdp]
          rfl
  | switchResponse resp =>
      obtain rfl := Except.ok.inj hhandle
      exact (localTags_congr (answer_fst resp nd.clients)).symm

/-- No tag that a local client has is given back. -/
theorem not_mem_localTags_of_unref {tag : Nat} (hhandle : handle nd e = .ok h) (hnd : nd.Distinct)
    (htag : .unrefChannel tag ∈ h.toSwitch) : tag ∉ h.daemon.localTags := by
  cases e with
  | clientGone c =>
      obtain rfl := Except.ok.inj hhandle
      obtain ⟨tag', hgone, heq⟩ := List.mem_map.1 htag
      obtain rfl := NdRequest.unrefChannel.inj heq
      exact ((mem_given_back hnd).1 hgone).2
  | clientGetChannel c msg =>
      obtain rfl := Except.ok.inj hhandle
      rw [onClientGetChannel] at htag
      split at htag
      · contradiction
      · simp at htag
  | tdp ctrlIp port =>
      obtain ⟨nd', -, hhandle⟩ := Fallible.bind_eq_ok.1 hhandle
      obtain rfl := Except.ok.inj hhandle
      contradiction
  | _ =>
      obtain rfl := Except.ok.inj hhandle
      contradiction

theorem Distinct.handle (hhandle : handle nd e = .ok h) (hnd : nd.Distinct) : h.daemon.Distinct := by
  cases e with
  | clientConn =>
      obtain rfl := Except.ok.inj hhandle
      refine ⟨?_, fun cl hcl => ?_⟩
      · rw [onClientConn, List.map_append, List.nodup_append]
        refine ⟨hnd.ptrs, List.nodup_singleton _, fun ptr hptr ptr' hptr' => ?_⟩
        obtain ⟨cl, hcl, rfl⟩ := List.mem_map.1 hptr
        obtain rfl := List.mem_singleton.1 hptr'
        exact (hnd.below cl hcl).ne
      · rcases List.mem_append.1 hcl with hcl | hcl
        · exact Nat.lt_succ_of_lt (hnd.below cl hcl)
        · rw [List.mem_singleton.1 hcl]
          exact Nat.lt_succ_self _
  | clientGetChannel c msg =>
      obtain rfl := Except.ok.inj hhandle
      rw [onClientGetChannel]
      split
      · exact hnd
      · have hptr : ∀ cl : Client, (if cl.ptr = c then cl.request msg else cl).ptr = cl.ptr := by
          intro cl
          split <;> rfl
        refine ⟨?_, fun cl hcl => ?_⟩
        · rw [modifyClient, List.map_map]
          refine (List.map_congr_left fun cl _ => hptr cl) ▸ hnd.ptrs
        · obtain ⟨cl₀, hcl₀, rfl⟩ := List.mem_map.1 hcl
          rw [hptr]
          exact hnd.below cl₀ hcl₀
  | clientGone c =>
      obtain rfl := Except.ok.inj hhandle
      exact ⟨hnd.ptrs.sublist (List.filter_sublist.map _),
        fun cl hcl => hnd.below cl (List.mem_filter.1 hcl).1⟩
  | tdp ctrlIp port =>
      obtain ⟨nd', htdp, hhandle⟩ := Fallible.bind_eq_ok.1 hhandle
      obtain rfl := Except.ok.inj hhandle
      rw [onTdp] at htdp
      split at htdp
      · rw [← Except.ok.inj htdp]
        exact hnd
      · split at htdp
        · contradiction
        · rw [← Except.ok.inj htdp]
          exact ⟨hnd.ptrs, hnd.below⟩
  | switchResponse resp =>
      obtain rfl := Except.ok.inj hhandle
      have hptrs : (answer resp nd.clients).1.map Client.ptr = nd.clients.map Client.ptr := by
        have h := congrArg (List.map Prod.fst) (answer_fst resp nd.clients)
        rwa [List.map_map, List.map_map] at h
      refine ⟨?_, fun cl hcl => ?_⟩
      · exact hptrs ▸ hnd.ptrs
      · have hmem : cl.ptr ∈ nd.clients.map Client.ptr := hptrs ▸ List.mem_map_of_mem hcl
        obtain ⟨cl₀, hcl₀, hptr⟩ := List.mem_map.1 hmem
        rw [← hptr]
        exact hnd.below cl₀ hcl₀

end Handle

end NodeDaemon

/-! ### Both sides -/

namespace Link

variable {σ : Type} (notify : List CollectiveChannel → σ → Except String σ)

def initial (hpnNodeAddr : IPv4Addr) (hpnNodeMac : MacAddr) (stRepo : StateRepository × σ) : Link σ :=
  ⟨NodeDaemon.initial hpnNodeAddr hpnNodeMac, [], Agent.initial stRepo, none⟩

def owned (t : Link σ) : Finset Nat := (t.client.map t.agent.ownedBy).getD ∅

/-- Something happens at the daemon, the agent accepts its connection or takes the next message from
it, or something else happens at the agent. -/
inductive Event where
  | daemon (e : NodeDaemon.Event)
  | accept
  | deliver
  | agent (e : Agent.Event)

def handle (t : Link σ) : Event → Except String (Link σ)
  | .daemon e => do
      let h ← t.daemon.handle e
      return { t with daemon := h.daemon, stream := t.stream ++ h.toSwitch }
  | .accept => .ok { t with agent := t.agent.onNewClient, client := some t.agent.nextPtr }
  | .deliver =>
      match t.client, t.stream with
      | some c, msg :: stream => do
          let (agent, _) ← t.agent.handle notify (.ofRequest c msg)
          return { t with agent := agent, stream := stream }
      | _, _ => .ok t
  | .agent e => do
      let (agent, _) ← t.agent.handle notify e
      return { t with agent := agent }

/-- A daemon that knows its switch connects to it once, and other events are those of other nodes. -/
def Possible (t : Link σ) : Event → Prop
  | .daemon e => t.daemon.Possible e
  | .accept => t.client = none ∧ t.daemon.nearestSwitchIp ≠ 0
  | .deliver => t.stream ≠ [] ∧ ∃ c ∈ t.client, t.agent.Connected c
  | .agent e => t.agent.Possible e ∧ ∀ c ∈ e.client?, t.client ≠ some c

instance (t : Link σ) : ∀ e, Decidable (t.Possible e)
  | .daemon e => inferInstanceAs (Decidable (t.daemon.Possible e))
  | .accept => inferInstanceAs (Decidable (_ ∧ _))
  | .deliver => inferInstanceAs (Decidable (_ ∧ ∃ c ∈ t.client, t.agent.Connected c))
  | .agent e => inferInstanceAs (Decidable (_ ∧ ∀ c ∈ e.client?, t.client ≠ some c))

def Steps (t : Link σ) (e : Event) (t' : Link σ) : Prop :=
  Possible t e ∧ handle notify t e = .ok t'

/-- What the agent holds for the node, with the messages that are still to arrive, are the tags of the
local clients. A step sends no unref of a tag that a local client has, and where one is on its way while
a client has the tag, a request for it comes after. -/
structure Agrees (t t' : Link σ) : Prop where
  inFlight : t'.stream.foldl NdRequest.apply t'.owned = t'.daemon.localTags
  settled : t'.stream = [] → t'.owned = t'.daemon.localTags
  unrefs : ∀ sent, t'.stream = t.stream ++ sent → ∀ tag, .unrefChannel tag ∈ sent →
    tag ∉ t'.daemon.localTags
  requested : ∀ before tag after, t'.stream = before ++ .unrefChannel tag :: after →
    tag ∈ t'.daemon.localTags → ∃ msg, .getChannel msg ∈ after ∧ msg.tag = tag

/-- The messages on the stream lead from what the agent holds to the tags of the local clients. -/
structure Linked (t : Link σ) : Prop where
  daemon : t.daemon.Distinct
  agent : Agent.Owned [] t.agent
  inFlight : t.stream.foldl NdRequest.apply t.owned = t.daemon.localTags

section Steps

variable {notify} {t t' : Link σ} {e : Event}

theorem linked_initial (hpnNodeAddr : IPv4Addr) (hpnNodeMac : MacAddr) (stRepo : StateRepository × σ)
    (hnone : stRepo.1.channels.entries = []) :
    Linked (initial hpnNodeAddr hpnNodeMac stRepo) :=
  ⟨⟨List.nodup_nil, fun cl hcl => by contradiction⟩, Agent.owned_initial stRepo hnone, rfl⟩

theorem ownedBy_ofRequest {a a' : Agent σ} {c : ClientPtr} {msg : NdRequest} {sent : List Reply}
    (h : a.handle notify (.ofRequest c msg) = .ok (a', sent)) (ha : Agent.Owned [] a)
    (hc : a.Connected c) : a'.ownedBy c = msg.apply (a.ownedBy c) := by
  cases msg with
  | getChannel msg =>
      rw [Agent.ownedBy_congr (Agent.onClientGetChannel_clients h ha),
        Agent.ownedBy_modifyClient_self _ hc]
      rfl
  | unrefChannel tag =>
      obtain ⟨a₁, hunref, h⟩ := Fallible.bind_eq_ok.1 h
      obtain ⟨rfl, -⟩ := Prod.mk.inj (Except.ok.inj h)
      rcases Agent.onClientUnrefChannel_clients hunref with ⟨hnone, hclients⟩ | hclients
      · rw [Agent.ownedBy_congr hclients]
        exact (Finset.erase_eq_of_notMem hnone).symm
      · rw [Agent.ownedBy_congr hclients, Agent.ownedBy_modifyClient_self _ hc]
        rfl

theorem Linked.step (h : Steps notify t e t') (ht : Linked t) : Linked t' := by
  obtain ⟨hpossible, h⟩ := h
  cases e with
  | daemon e =>
      obtain ⟨h', hhandle, h⟩ := Fallible.bind_eq_ok.1 h
      obtain rfl := Except.ok.inj h
      refine ⟨ht.daemon.handle hhandle, ht.agent, ?_⟩
      rw [← NodeDaemon.localTags_handle hhandle hpossible ht.daemon, ← ht.inFlight, List.foldl_append]
      rfl
  | accept =>
      obtain rfl := Except.ok.inj h
      refine ⟨ht.daemon, ht.agent.onNewClient, ?_⟩
      have hnone : t.owned = ∅ := by
        rw [owned, hpossible.1]
        rfl
      have hinFlight := ht.inFlight
      rw [hnone, ← Agent.ownedBy_nextPtr ht.agent, ← Agent.ownedBy_onNewClient] at hinFlight
      exact hinFlight
  | deliver =>
      obtain ⟨hsome, c, hclient, hc⟩ := hpossible
      obtain ⟨msg, stream, hstream⟩ := List.exists_cons_of_ne_nil hsome
      have hclient : t.client = some c := hclient
      rw [handle, hclient, hstream] at h
      obtain ⟨⟨agent, sent⟩, hhandle, h⟩ := Fallible.bind_eq_ok.1 h
      obtain rfl := Except.ok.inj h
      have hhandles : Agent.Handles notify t.agent (.ofRequest c msg) agent := by
        refine ⟨?_, sent, hhandle⟩
        cases msg <;> exact hc
      refine ⟨ht.daemon, Agent.handle_owned hhandles ht.agent, ?_⟩
      have hinFlight := ht.inFlight
      rw [hstream, owned, hclient, List.foldl_cons] at hinFlight
      rw [owned, ← hinFlight]
      exact congrArg (stream.foldl NdRequest.apply ·) (ownedBy_ofRequest hhandle ht.agent hc)
  | agent e =>
      obtain ⟨⟨agent, sent⟩, hhandle, h⟩ := Fallible.bind_eq_ok.1 h
      obtain rfl := Except.ok.inj h
      obtain ⟨hpossible, hother⟩ := hpossible
      refine ⟨ht.daemon, Agent.handle_owned ⟨hpossible, sent, hhandle⟩ ht.agent, ?_⟩
      refine Eq.trans (congrArg (t.stream.foldl NdRequest.apply ·) ?_) ht.inFlight
      change (t.client.map agent.ownedBy).getD ∅ = (t.client.map t.agent.ownedBy).getD ∅
      cases hclient : t.client with
      | none => rfl
      | some c =>
          refine Agent.ownedBy_handle_of_ne hhandle ht.agent fun c' hc' hne => hother c' hc' ?_
          rw [hclient, hne]

theorem mem_foldl_apply {msgs : List NdRequest} {tags : Finset Nat} {tag : Nat}
    (h : tag ∈ msgs.foldl NdRequest.apply tags) :
    tag ∈ tags ∨ ∃ msg, .getChannel msg ∈ msgs ∧ msg.tag = tag := by
  induction msgs generalizing tags with
  | nil => exact Or.inl h
  | cons msg msgs ih =>
      rcases ih h with h | ⟨msg', hmem, htag⟩
      · cases msg with
        | getChannel msg =>
            rcases Finset.mem_insert.1 h with htag | h
            · exact Or.inr ⟨msg, List.mem_cons_self, htag.symm⟩
            · exact Or.inl h
        | unrefChannel tag' => exact Or.inl (Finset.mem_of_mem_erase h)
      · exact Or.inr ⟨msg', List.mem_cons_of_mem _ hmem, htag⟩

theorem Linked.agrees (h : Steps notify t e t') (ht : Linked t) : Agrees t t' := by
  have ht' := ht.step h
  refine ⟨ht'.inFlight, fun hempty => ?_, fun sent hsent tag htag => ?_,
    fun before tag after hsplit hlocal => ?_⟩
  · have hinFlight := ht'.inFlight
    rwa [hempty] at hinFlight
  · obtain ⟨-, h⟩ := h
    cases e with
    | daemon e =>
        obtain ⟨h', hhandle, h⟩ := Fallible.bind_eq_ok.1 h
        obtain rfl := Except.ok.inj h
        rw [← List.append_cancel_left hsent] at htag
        exact NodeDaemon.not_mem_localTags_of_unref hhandle ht.daemon htag
    | accept =>
        obtain rfl := Except.ok.inj h
        rw [List.self_eq_append_right.1 hsent] at htag
        contradiction
    | deliver =>
        have hlength : t'.stream.length ≤ t.stream.length := by
          rw [handle] at h
          split at h
          · rename_i hstream
            obtain ⟨⟨agent, sent'⟩, -, h⟩ := Fallible.bind_eq_ok.1 h
            obtain rfl := Except.ok.inj h
            rw [hstream]
            exact Nat.le_succ _
          · rw [← Except.ok.inj h]
        rw [hsent, List.length_append] at hlength
        have hnone : sent.length = 0 := by omega
        rw [List.eq_nil_of_length_eq_zero hnone] at htag
        contradiction
    | agent e =>
        obtain ⟨⟨agent, sent'⟩, -, h⟩ := Fallible.bind_eq_ok.1 h
        obtain rfl := Except.ok.inj h
        rw [List.self_eq_append_right.1 hsent] at htag
        contradiction
  · rw [← ht'.inFlight, hsplit, List.foldl_append, List.foldl_cons] at hlocal
    refine (mem_foldl_apply hlocal).resolve_left fun hmem => ?_
    exact absurd rfl (Finset.ne_of_mem_erase hmem)

end Steps

/-- **Ownership.** In every run of a node daemon and the agent, whatever other nodes do, the two sides
agree about the channels of the node up to the messages in between. -/
theorem run_agrees (hpnNodeAddr : IPv4Addr) (hpnNodeMac baseMac : MacAddr) (ip : IPv4Addr) (s : σ)
    (run : List (Event × Link σ))
    (hrun : Along (Steps notify)
      (initial hpnNodeAddr hpnNodeMac (StateRepository.initial baseMac ip, s)) run) :
    Along (fun t _ t' => Agrees t t')
      (initial hpnNodeAddr hpnNodeMac (StateRepository.initial baseMac ip, s)) run :=
  hrun.imp (fun _ _ _ ht h => ht.step h) (fun _ _ _ ht h => ht.agrees h)
    (linked_initial hpnNodeAddr hpnNodeMac _ rfl)

/-! ### Local clients with one channel -/

namespace Shared

open AsicDriver

def start : Link Asic := initial 10 6 (StateRepository.initial 0 1, initialSetup 1024)

def step (t : Link Asic) (e : Event) : Link Asic :=
  match handle onStRepoChannels t e with
  | .ok t' => t'
  | .error _ => t

theorem steps_step {t : Link Asic} {e : Event}
    (h : Possible t e ∧ (handle onStRepoChannels t e).isOk = true) :
    Steps onStRepoChannels t e (step t e) := by
  obtain ⟨hpossible, hok⟩ := h
  cases hhandle : handle onStRepoChannels t e with
  | error message =>
      rw [hhandle] at hok
      contradiction
  | ok t' => exact ⟨hpossible, by rw [step, hhandle]⟩

def request (c : ClientPtr) (clientId : Nat) : Event :=
  .daemon (.clientGetChannel c ⟨[1, 2], clientId, 5, 3⟩)

/-- Two clients have the channel and leave, another one asks for it before the agent knows. -/
def events : List Event :=
  [.daemon (.tdp 7 3), .daemon .clientConn, .daemon .clientConn, request 0 1, .agent .newClient,
    .accept, .deliver, request 1 2, .daemon (.clientGone 0), .daemon (.clientGone 1),
    .daemon .clientConn, request 2 1, .deliver, .deliver, .deliver]

theorem events_agree : (runOf step start events).map
      (fun x => (x.2.stream.length, x.2.owned, x.2.daemon.localTags)) =
      [(0, ∅, ∅), (0, ∅, ∅), (0, ∅, ∅), (1, ∅, {5}), (1, ∅, {5}), (1, ∅, {5}), (0, {5}, {5}),
        (1, {5}, {5}), (1, {5}, {5}), (2, {5}, ∅), (2, {5}, ∅), (3, {5}, {5}), (2, {5}, {5}),
        (1, ∅, {5}), (0, {5}, {5})] ∧
    Along (fun t _ t' => Agrees t t') start (runOf step start events) := by
  have hpossible : Along (fun t e _ => Possible t e ∧
      (handle onStRepoChannels t e).isOk = true) start (runOf step start events) := by
    decide +kernel
  have hrun : Along (Steps onStRepoChannels) start (runOf step start events) :=
    hpossible.of_runOf fun _ _ => steps_step
  exact ⟨by decide +kernel, run_agrees onStRepoChannels 10 6 0 1 (initialSetup 1024) _ hrun⟩

end Shared

end Link

end Mpitofino
