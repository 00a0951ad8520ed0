import Mpitofino.Control.FabricQps
import Mpitofino.Control.Replies

/-!
# The lifetime of a channel

A channel is in the repository as long as a connected client owns it. So the agent never removes a
channel that is not there, and it removes each one with its last owner.
-/

namespace Mpitofino

namespace Agent

open StateRepository (Called updateIn)

variable {σ : Type}

/-! ### Ownership -/

/-- The tags in the repository are those that a client owns, and those in `unowned`. -/
structure Owned (unowned : List Nat) (a : Agent σ) : Prop where
  ptrs : (a.clients.map Client.ptr).Nodup
  below : ∀ cl ∈ a.clients, cl.ptr < a.nextPtr
  keyed : ∀ tag ch, a.channel? tag = some ch → ch.tag = tag
  tags : ∀ tag, (a.channel? tag).isSome ↔ tag ∈ unowned ∨ ∃ cl ∈ a.clients, tag ∈ cl.channels

theorem owned_initial (stRepo : StateRepository × σ) (hnone : stRepo.1.channels.entries = []) :
    Owned [] (initial stRepo) := by
  have hchannels : ∀ tag, (initial stRepo).channel? tag = none := fun tag => by
    refine OrderedMap.find?_eq_none_iff.2 ?_
    change tag ∉ stRepo.1.channels.entries.map Prod.fst
    rw [hnone]
    exact List.not_mem_nil
  refine ⟨List.nodup_nil, fun cl hcl => by contradiction, fun tag ch hch => ?_, fun tag => ?_⟩
  · rw [hchannels] at hch
    contradiction
  · rw [hchannels]
    simp [initial]

section Handlers

variable {notify : List CollectiveChannel → σ → Except String σ} {a a' : Agent σ}
  {unowned : List Nat} {c : ClientPtr} {tag : Nat}

theorem Owned.modifyClient {unowned' : List Nat} {f : Finset Nat → Finset Nat}
    (h : Owned unowned a)
    (htags : ∀ tag, (a.channel? tag).isSome ↔
      tag ∈ unowned' ∨ ∃ cl ∈ (a.modifyClient c f).clients, tag ∈ cl.channels) :
    Owned unowned' (a.modifyClient c f) := by
  refine ⟨?_, fun cl hcl => ?_, h.keyed, htags⟩
  · rw [ptrs_modifyClient]
    exact h.ptrs
  · obtain ⟨cl₀, hcl₀, rfl⟩ := mem_modifyClient.1 hcl
    have hbelow := h.below cl₀ hcl₀
    split <;> exact hbelow

theorem exists_owner_modifyClient {f : Finset Nat → Finset Nat} :
    (∃ cl ∈ (a.modifyClient c f).clients, tag ∈ cl.channels) ↔
      ∃ cl ∈ a.clients, if cl.ptr = c then tag ∈ f cl.channels else tag ∈ cl.channels := by
  simp only [mem_modifyClient]
  constructor
  · rintro ⟨cl, ⟨cl₀, hcl₀, rfl⟩, hmem⟩
    refine ⟨cl₀, hcl₀, ?_⟩
    split at hmem
    · rename_i hc
      rwa [if_pos hc]
    · rename_i hc
      rwa [if_neg hc]
  · rintro ⟨cl₀, hcl₀, hmem⟩
    refine ⟨_, ⟨cl₀, hcl₀, rfl⟩, ?_⟩
    split at hmem
    · rename_i hc
      rwa [if_pos hc]
    · rename_i hc
      rwa [if_neg hc]

theorem Owned.own (h : Owned [tag] a) (hc : a.Connected c) :
    Owned [] (a.modifyClient c (insert tag)) := by
  refine h.modifyClient fun tag' => ?_
  rw [h.tags, exists_owner_modifyClient]
  constructor
  · rintro (htag | ⟨cl, hcl, hmem⟩)
    · obtain rfl := List.mem_singleton.1 htag
      obtain ⟨cl, hcl, rfl⟩ := List.mem_map.1 hc
      refine Or.inr ⟨cl, hcl, ?_⟩
      rw [if_pos rfl]
      exact Finset.mem_insert_self ..
    · refine Or.inr ⟨cl, hcl, ?_⟩
      split
      · exact Finset.mem_insert_of_mem hmem
      · exact hmem
  · rintro (hnone | ⟨cl, hcl, hmem⟩)
    · contradiction
    · split at hmem
      · rcases Finset.mem_insert.1 hmem with htag | hmem
        · exact Or.inl (List.mem_singleton.2 htag)
        · exact Or.inr ⟨cl, hcl, hmem⟩
      · exact Or.inr ⟨cl, hcl, hmem⟩

theorem Owned.mem_ownedBy (h : Owned unowned a) :
    tag ∈ a.ownedBy c ↔ ∃ cl ∈ a.clients, cl.ptr = c ∧ tag ∈ cl.channels := by
  constructor
  · intro hmem
    rw [ownedBy] at hmem
    cases hfind : a.clients.find? fun cl => cl.ptr = c with
    | none =>
        rw [hfind] at hmem
        contradiction
    | some cl =>
        rw [hfind] at hmem
        exact ⟨cl, List.mem_of_find?_eq_some hfind, by simpa using List.find?_some hfind, hmem⟩
  · rintro ⟨cl, hcl, rfl, hmem⟩
    rw [ownedBy, find?_client h.ptrs hcl]
    exact hmem

theorem Owned.unref (h : Owned [] a) (howner : tag ∈ a.ownedBy c) :
    Owned [tag] (a.modifyClient c fun s => s.erase tag) := by
  refine h.modifyClient fun tag' => ?_
  rw [h.tags, exists_owner_modifyClient]
  by_cases htag : tag' = tag
  · subst htag
    obtain ⟨cl, hcl, -, hmem⟩ := h.mem_ownedBy.1 howner
    exact iff_of_true (Or.inr ⟨cl, hcl, hmem⟩) (Or.inl (List.mem_singleton_self _))
  · simp [htag]

theorem Owned.disown (h : Owned [] a) :
    Owned ((a.ownedBy c).sort (· ≤ ·)) (a.modifyClient c fun _ => ∅) := by
  refine h.modifyClient fun tag => ?_
  rw [h.tags, exists_owner_modifyClient, Finset.mem_sort, h.mem_ownedBy]
  constructor
  · rintro (hnone | ⟨cl, hcl, hmem⟩)
    · contradiction
    · by_cases hc : cl.ptr = c
      · exact Or.inl ⟨cl, hcl, hc, hmem⟩
      · exact Or.inr ⟨cl, hcl, by rwa [if_neg hc]⟩
  · rintro (⟨cl, hcl, -, hmem⟩ | ⟨cl, hcl, hmem⟩)
    · exact Or.inr ⟨cl, hcl, hmem⟩
    · split at hmem
      · contradiction
      · exact Or.inr ⟨cl, hcl, hmem⟩

/-! ### Channels without an owner go -/

theorem checkRemoveChannel_owned (h : checkRemoveChannel notify a tag = .ok a')
    (ha : Owned (tag :: unowned) a) (hnew : tag ∉ unowned) : Owned unowned a' := by
  rw [checkRemoveChannel] at h
  split at h
  · rename_i hany
    obtain rfl := Except.ok.inj h
    refine ⟨ha.ptrs, ha.below, ha.keyed, fun tag' => ?_⟩
    have howner : ∃ cl ∈ a.clients, tag ∈ cl.channels := by simpa using hany
    rw [ha.tags, List.mem_cons]
    constructor
    · rintro ((rfl | hunowned) | hmem)
      · exact Or.inr howner
      · exact Or.inl hunowned
      · exact Or.inr hmem
    · exact Or.imp_left Or.inr
  · rename_i hany
    obtain ⟨stRepo, hcall, h⟩ := Fallible.bind_eq_ok.1 h
    obtain rfl := Except.ok.inj h
    have hnone : ¬ ∃ cl ∈ a.clients, tag ∈ cl.channels := by simpa using hany
    have hchannel : ∀ tag', stRepo.1.getChannel tag' =
        if tag' = tag then none else a.channel? tag' := by
      intro tag'
      cases StateRepository.call_ok hcall with
      | removed _ => exact OrderedMap.find?_erase ..
    refine ⟨ha.ptrs, ha.below, fun tag' ch hch => ?_, fun tag' => ?_⟩
    · rw [channel?, hchannel] at hch
      split at hch
      · contradiction
      · exact ha.keyed tag' ch hch
    · rw [channel?, hchannel]
      by_cases htag : tag' = tag
      · subst htag
        rw [if_pos rfl]
        exact iff_of_false Bool.false_ne_true fun h => h.elim hnew hnone
      · rw [if_neg htag, ha.tags, List.mem_cons, or_iff_right htag]

theorem checkRemoveChannels_owned (h : unowned.foldlM (checkRemoveChannel notify) a = .ok a')
    (ha : Owned unowned a) (hnodup : unowned.Nodup) : Owned [] a' := by
  induction unowned generalizing a with
  | nil =>
      rw [Fallible.foldlM_nil_eq_ok] at h
      rwa [h]
  | cons tag unowned ih =>
      obtain ⟨a₁, hremove, h⟩ := Fallible.foldlM_cons_eq_ok.1 h
      obtain ⟨hnew, hnodup⟩ := List.nodup_cons.1 hnodup
      exact ih h (checkRemoveChannel_owned hremove ha hnew) hnodup

theorem checkRemoveChannel_error {message : String}
    (h : checkRemoveChannel notify a tag = .error message) (htag : (a.channel? tag).isSome) :
    ∃ channels s, notify channels s = .error message := by
  rw [checkRemoveChannel] at h
  split at h
  · contradiction
  · obtain ⟨ch, hch⟩ := Option.isSome_iff_exists.1 htag
    rcases Fallible.bind_eq_error.1 h with h | ⟨stRepo, -, h⟩
    · rcases Fallible.bind_eq_error.1 h with h | ⟨r, -, h⟩
      · rw [StateRepository.removeChannel, show a.stRepo.1.channels.find? tag = some ch from hch] at h
        contradiction
      · rcases Fallible.bind_eq_error.1 h with h | ⟨s, -, h⟩
        · exact ⟨_, _, h⟩
        · contradiction
    · contradiction

theorem checkRemoveChannels_error {message : String}
    (h : unowned.foldlM (checkRemoveChannel notify) a = .error message) (ha : Owned unowned a)
    (hnodup : unowned.Nodup) : ∃ channels s, notify channels s = .error message := by
  induction unowned generalizing a with
  | nil => contradiction
  | cons tag unowned ih =>
      rw [List.foldlM_cons] at h
      obtain ⟨hnew, hnodup⟩ := List.nodup_cons.1 hnodup
      rcases Fallible.bind_eq_error.1 h with h | ⟨a₁, hremove, h⟩
      · exact checkRemoveChannel_error h ((ha.tags tag).2 (Or.inl List.mem_cons_self))
      · exact ih h (checkRemoveChannel_owned hremove ha hnew) hnodup

/-! ### Every event -/

theorem ensureChannel_owned {msg : GetChannel} (h : ensureChannel notify msg a = .ok a')
    (ha : Owned [] a) : Owned [msg.tag] a' ∧ a'.clients = a.clients := by
  rcases ensureChannel_ok h with ⟨ch, hch, rfl⟩ |
    ⟨hnone, r, ch, stRepo, hsame, hallocated, hcalled, rfl⟩
  · refine ⟨⟨ha.ptrs, ha.below, ha.keyed, fun tag => ?_⟩, rfl⟩
    rw [ha.tags, List.mem_singleton]
    constructor
    · exact Or.imp_left fun hnone => absurd hnone List.not_mem_nil
    · rintro (rfl | howner)
      · exact (ha.tags _).1 (by rw [hch]; rfl)
      · exact Or.inr howner
  · have hchannel : ∀ tag, stRepo.1.getChannel tag =
        if tag = msg.tag then some ch else a.channel? tag := by
      intro tag
      cases hcalled with
      | added hnew _ =>
          refine (OrderedMap.find?_insert hnew tag).trans ?_
          rw [hallocated.tag, channel?, StateRepository.getChannel, ← hsame]
    refine ⟨⟨ha.ptrs, ha.below, fun tag ch' hch' => ?_, fun tag => ?_⟩, rfl⟩
    · rw [channel?, hchannel] at hch'
      split at hch'
      · rename_i htag
        obtain rfl := Option.some.inj hch'
        rw [hallocated.tag, htag]
      · exact ha.keyed tag ch' hch'
    · rw [channel?, hchannel, List.mem_singleton]
      by_cases htag : tag = msg.tag
      · rw [if_pos htag]
        exact iff_of_true rfl (Or.inl htag)
      · rw [if_neg htag, or_iff_right htag, ha.tags, or_iff_right List.not_mem_nil]

theorem onClientGetChannel_owned {msg : GetChannel} {sent : List Reply}
    (h : onClientGetChannel notify c msg a = .ok (a', sent)) (ha : Owned [] a)
    (hc : a.Connected c) : Owned [] a' := by
  obtain ⟨a₁, ch, stRepo, hensure, hch, hcalled, heq⟩ := onClientGetChannel_ok h
  obtain ⟨ha₁, hclients⟩ := ensureChannel_owned hensure ha
  obtain ⟨hclients', hnextPtr, hstRepo, -, -⟩ := holdReply_eq heq
  have htag : ch.tag = msg.tag := ha₁.keyed _ _ hch
  have hown : Owned [] (a₁.modifyClient c (insert msg.tag)) :=
    ha₁.own (by rwa [Connected, hclients])
  rw [← htag] at hown
  change a'.stRepo = stRepo at hstRepo
  rw [← hstRepo] at hcalled
  have hchannel := channel?_entered hcalled hch
  refine ⟨?_, ?_, fun tag ch₁ hch₁ => ?_, fun tag => ?_⟩
  · rw [hclients']
    exact hown.ptrs
  · rw [hclients', hnextPtr]
    exact hown.below
  · rw [hchannel] at hch₁
    split at hch₁
    · rename_i heq
      obtain rfl := Option.some.inj hch₁
      exact htag.trans heq.symm
    · exact ha₁.keyed tag ch₁ hch₁
  · rw [hclients']
    refine Iff.trans ?_ (hown.tags tag)
    rw [hchannel]
    split
    · rename_i heq
      subst heq
      exact iff_of_true rfl (Option.isSome_iff_exists.2 ⟨ch, hch⟩)
    · rfl

theorem onClientUnrefChannel_owned (h : onClientUnrefChannel notify c tag a = .ok a')
    (ha : Owned [] a) : Owned [] a' := by
  rw [onClientUnrefChannel] at h
  split at h
  · rename_i howner
    exact checkRemoveChannel_owned h (ha.unref howner) List.not_mem_nil
  · obtain rfl := Except.ok.inj h
    exact ha

theorem checkRemoveChannels_clients {tags : List Nat}
    (h : tags.foldlM (checkRemoveChannel notify) a = .ok a') :
    a'.clients = a.clients ∧ a'.nextPtr = a.nextPtr ∧
      a'.pendingGetChannelResponses = a.pendingGetChannelResponses := by
  have hframe := Fallible.foldlM_frame
    (g := fun a : Agent σ => (a.clients, a.nextPtr, a.pendingGetChannelResponses)) h
    fun a tag a' hok => by
      rcases checkRemoveChannel_ok hok with rfl | ⟨-, stRepo, -, rfl⟩
      · rfl
      · rfl
  obtain ⟨hclients, hrest⟩ := Prod.mk.inj hframe
  obtain ⟨hnextPtr, hpending⟩ := Prod.mk.inj hrest
  exact ⟨hclients, hnextPtr, hpending⟩

theorem onDisconnect_owned (h : onDisconnect notify c a = .ok a') (ha : Owned [] a) :
    Owned [] a' := by
  obtain ⟨a₁, hremove, h⟩ := Fallible.bind_eq_ok.1 h
  obtain rfl := Except.ok.inj h
  have ha₁ := checkRemoveChannels_owned hremove ha.disown (Finset.sort_nodup ..)
  have hclients := (checkRemoveChannels_clients hremove).1
  refine ⟨ha₁.ptrs.sublist (List.filter_sublist.map _), fun cl hcl => ?_, ha₁.keyed, fun tag => ?_⟩
  · exact ha₁.below cl (List.mem_filter.1 hcl).1
  · refine (ha₁.tags tag).trans (or_congr_right ⟨?_, ?_⟩)
    · rintro ⟨cl, hcl, hmem⟩
      refine ⟨cl, List.mem_filter.2 ⟨hcl, decide_eq_true fun hc => ?_⟩, hmem⟩
      -- the client that goes owns nothing any more
      rw [hclients] at hcl
      obtain ⟨cl₀, -, rfl⟩ := mem_modifyClient.1 hcl
      by_cases hc₀ : cl₀.ptr = c
      · rw [if_pos hc₀] at hmem
        contradiction
      · rw [if_neg hc₀] at hc
        exact hc₀ hc
    · rintro ⟨cl, hcl, hmem⟩
      exact ⟨cl, (List.mem_filter.1 hcl).1, hmem⟩

theorem Owned.onNewClient (h : Owned [] a) : Owned [] a.onNewClient := by
  obtain ⟨hptrs, hbelow⟩ := onNewClient_ptrs h.ptrs h.below
  refine ⟨hptrs, hbelow, h.keyed, fun tag => (h.tags tag).trans (or_congr_right ⟨?_, ?_⟩)⟩
  · rintro ⟨cl, hcl, hmem⟩
    exact ⟨cl, mem_onNewClient.2 (Or.inl hcl), hmem⟩
  · rintro ⟨cl, hcl, hmem⟩
    rcases mem_onNewClient.1 hcl with hcl | rfl
    · exact ⟨cl, hcl, hmem⟩
    · contradiction

theorem handle_owned {e : Event} (h : Handles notify a e a') (ha : Owned [] a) : Owned [] a' := by
  obtain ⟨hpossible, sent, h⟩ := h
  cases e with
  | newClient =>
      obtain ⟨rfl, -⟩ := Prod.mk.inj (Except.ok.inj h)
      exact ha.onNewClient
  | getChannel c msg => exact onClientGetChannel_owned h ha hpossible
  | unrefChannel c tag =>
      obtain ⟨a₁, hunref, h⟩ := Fallible.bind_eq_ok.1 h
      obtain ⟨rfl, -⟩ := Prod.mk.inj (Except.ok.inj h)
      exact onClientUnrefChannel_owned hunref ha
  | disconnect c =>
      obtain ⟨a₁, hdisconnect, h⟩ := Fallible.bind_eq_ok.1 h
      obtain ⟨rfl, -⟩ := Prod.mk.inj (Except.ok.inj h)
      exact onDisconnect_owned hdisconnect ha

/-! ### Removals that fail -/

theorem unrefChannel_error {message : String}
    (h : handle notify a (.unrefChannel c tag) = .error message) (ha : Owned [] a) :
    ∃ channels s, notify channels s = .error message := by
  rcases Fallible.bind_eq_error.1 h with h | ⟨a₁, -, h⟩
  · rw [onClientUnrefChannel] at h
    split at h
    · rename_i howner
      exact checkRemoveChannel_error h
        (((ha.unref howner).tags tag).2 (Or.inl (List.mem_singleton_self _)))
    · contradiction
  · contradiction

theorem disconnect_error {message : String} (h : handle notify a (.disconnect c) = .error message)
    (ha : Owned [] a) : ∃ channels s, notify channels s = .error message := by
  rcases Fallible.bind_eq_error.1 h with h | ⟨a₁, -, h⟩
  · rcases Fallible.bind_eq_error.1 h with h | ⟨a₁, -, h⟩
    · exact checkRemoveChannels_error h ha.disown (Finset.sort_nodup ..)
    · contradiction
  · contradiction

end Handlers

section Runs

variable (notify : List CollectiveChannel → σ → Except String σ)

/-- The channels are those that a connected client owns, and removals fail only where the subscriber
does. -/
structure Lives (a : Agent σ) : Prop where
  tags : ∀ tag, (a.channel? tag).isSome ↔ ∃ cl ∈ a.clients, tag ∈ cl.channels
  unrefs : ∀ c tag message, handle notify a (.unrefChannel c tag) = .error message →
    ∃ channels s, notify channels s = .error message
  disconnects : ∀ c message, handle notify a (.disconnect c) = .error message →
    ∃ channels s, notify channels s = .error message

/-- **Lifetime.** In every state of a run the repository has the channels of the connected clients. -/
theorem run_lives (baseMac : MacAddr) (ip : IPv4Addr) (s : σ) (run : List (Event × Agent σ))
    (hrun : Along (Handles notify) (initial (StateRepository.initial baseMac ip, s)) run) :
    ∀ x ∈ run, Lives notify x.2 := by
  intro x hx
  have ha : Owned [] x.2 := hrun.invariant (fun _ _ _ ha h => handle_owned h ha)
    (owned_initial _ rfl) x hx
  exact ⟨fun tag => (ha.tags tag).trans (or_iff_right List.not_mem_nil),
    fun _ _ _ h => unrefChannel_error h ha, fun _ _ h => disconnect_error h ha⟩

end Runs

/-! ### The clients that responses are for -/

section Targets

/-- Every pending response is for a client with this property. -/
def PendingFor (P : ClientPtr → Prop) (a : Agent σ) : Prop :=
  ∀ e ∈ a.pendingGetChannelResponses.entries, ∀ r ∈ e.2, P r.1

/-- The responses that are pending, and those that were just sent, are for connected clients. -/
structure Targeted (t : Served σ) : Prop where
  pending : PendingFor t.agent.Connected t.agent
  sent : ∀ r ∈ t.sent, t.agent.Connected r.1

/-- A client that disconnects has no response pending. -/
def WaitsForNothing (a : Agent σ) : Event → Prop
  | .disconnect c => PendingFor (· ≠ c) a
  | _ => True

instance (a : Agent σ) : ∀ e, Decidable (WaitsForNothing a e)
  | .newClient => isTrue trivial
  | .getChannel _ _ => isTrue trivial
  | .unrefChannel _ _ => isTrue trivial
  | .disconnect c => inferInstanceAs (Decidable
      (∀ e ∈ a.pendingGetChannelResponses.entries, ∀ r ∈ e.2, r.1 ≠ c))

variable {notify : List CollectiveChannel → σ → Except String σ} {a a' : Agent σ}
  {P : ClientPtr → Prop}

theorem PendingFor.imp {Q : ClientPtr → Prop} (h : PendingFor P a) (hPQ : ∀ c, P c → Q c) :
    PendingFor Q a := fun e he r hr => hPQ _ (h e he r hr)

theorem PendingFor.clear (h : PendingFor P a) (tag : Nat) :
    PendingFor P { a with
      pendingGetChannelResponses := a.pendingGetChannelResponses.filter fun k _ => k ≠ tag } := by
  rintro ⟨k, pm⟩ he r hr
  have hlookup := ((a.pendingGetChannelResponses.filter fun k _ => k ≠ tag).mem_entries_iff).1 he
  rw [FinTable.lookup_filter, Option.filter_eq_some_iff] at hlookup
  exact h (k, pm) ((a.pendingGetChannelResponses.mem_entries_iff).2 hlookup.1) r hr

theorem PendingFor.pending (h : PendingFor P a) (tag : Nat) : ∀ r ∈ a.pending tag, P r.1 := by
  intro r hr
  rw [Agent.pending] at hr
  cases hlookup : a.pendingGetChannelResponses.lookup tag with
  | none =>
      rw [hlookup] at hr
      contradiction
  | some pm =>
      rw [hlookup] at hr
      exact h (tag, pm) ((a.pendingGetChannelResponses.mem_entries_iff).2 hlookup) r hr

theorem PendingFor.holdReply {ch : CollectiveChannel} {reply : Reply} (h : PendingFor P a)
    (hreply : P reply.1) : PendingFor P (holdReply ch reply a).1 ∧
      ∀ r ∈ (Agent.holdReply ch reply a).2, P r.1 := by
  have hpm : ∀ r ∈ a.pending ch.tag ++ [reply], P r.1 := by
    intro r hr
    rcases List.mem_append.1 hr with hr | hr
    · exact h.pending ch.tag r hr
    · rwa [List.mem_singleton.1 hr]
  rw [Agent.holdReply]
  split
  · exact ⟨h.clear ch.tag, hpm⟩
  · refine ⟨?_, fun r hr => absurd hr List.not_mem_nil⟩
    rintro ⟨k, pm⟩ he r hr
    have hlookup := (FinTable.mem_entries_iff _).1 he
    rw [FinTable.lookup_put] at hlookup
    split at hlookup
    · obtain rfl := Option.some.inj hlookup
      exact hpm r hr
    · exact h (k, pm) ((a.pendingGetChannelResponses.mem_entries_iff).2 hlookup) r hr

theorem ensureChannel_pendingFor {msg : GetChannel} (h : ensureChannel notify msg a = .ok a')
    (ha : PendingFor P a) : PendingFor P a' ∧ a'.clients = a.clients := by
  rcases ensureChannel_ok h with ⟨ch, -, rfl⟩ | ⟨-, r, ch, stRepo, -, -, -, rfl⟩
  · exact ⟨ha, rfl⟩
  · exact ⟨ha.clear msg.tag, rfl⟩

theorem onClientGetChannel_pendingFor {c : ClientPtr} {msg : GetChannel} {sent : List Reply}
    (h : onClientGetChannel notify c msg a = .ok (a', sent)) (ha : PendingFor P a) (hc : P c) :
    PendingFor P a' ∧ (∀ r ∈ sent, P r.1) ∧ ∀ c', a'.Connected c' ↔ a.Connected c' := by
  obtain ⟨a₁, ch, stRepo, hensure, -, -, heq⟩ := onClientGetChannel_ok h
  obtain ⟨ha₁, hclients⟩ := ensureChannel_pendingFor hensure ha
  have ha₂ : PendingFor P { a₁.modifyClient c (insert ch.tag) with stRepo := stRepo } := ha₁
  have hheld : PendingFor P a' ∧ ∀ r ∈ sent, P r.1 := by
    obtain ⟨rfl, rfl⟩ := Prod.ext_iff.1 heq
    exact ha₂.holdReply hc
  refine ⟨hheld.1, hheld.2, fun c' => ?_⟩
  obtain ⟨hclients', -⟩ := holdReply_eq heq
  rw [Connected, hclients', Connected, ← hclients]
  exact iff_of_eq (congrArg (c' ∈ ·) (ptrs_modifyClient ..))

theorem onClientUnrefChannel_pending {c : ClientPtr} {tag : Nat}
    (h : onClientUnrefChannel notify c tag a = .ok a') :
    a'.pendingGetChannelResponses = a.pendingGetChannelResponses ∧
      a'.clients.map Client.ptr = a.clients.map Client.ptr := by
  rw [onClientUnrefChannel] at h
  split at h
  · rcases checkRemoveChannel_ok h with rfl | ⟨-, stRepo, -, rfl⟩
    · exact ⟨rfl, ptrs_modifyClient a c fun s => s.erase tag⟩
    · exact ⟨rfl, ptrs_modifyClient a c fun s => s.erase tag⟩
  · obtain rfl := Except.ok.inj h
    exact ⟨rfl, rfl⟩

theorem onDisconnect_pending {c : ClientPtr} (h : onDisconnect notify c a = .ok a') :
    a'.pendingGetChannelResponses = a.pendingGetChannelResponses ∧
      ∀ c', a'.Connected c' ↔ a.Connected c' ∧ c' ≠ c := by
  obtain ⟨a₁, hremove, h⟩ := Fallible.bind_eq_ok.1 h
  obtain rfl := Except.ok.inj h
  obtain ⟨hclients, -, hpending⟩ := checkRemoveChannels_clients hremove
  refine ⟨hpending, fun c' => ?_⟩
  have hconnected : a.Connected c' ↔ c' ∈ a₁.clients.map Client.ptr := by
    rw [Connected, hclients, ptrs_modifyClient]
  rw [hconnected, Connected, List.mem_map, List.mem_map]
  constructor
  · rintro ⟨cl, hcl, rfl⟩
    obtain ⟨hcl, hc⟩ := List.mem_filter.1 hcl
    exact ⟨⟨cl, hcl, rfl⟩, of_decide_eq_true hc⟩
  · rintro ⟨⟨cl, hcl, rfl⟩, hc⟩
    exact ⟨cl, List.mem_filter.2 ⟨hcl, decide_eq_true hc⟩, rfl⟩

/-- An event leaves a response without its client exactly when that client disconnects. -/
theorem serves_targeted_iff {t t' : Served σ} {e : Event} (h : Serves notify t e t')
    (ht : Targeted t) : Targeted t' ↔ WaitsForNothing t.agent e := by
  obtain ⟨hpossible, hhandle, -⟩ := h
  cases e with
  | newClient =>
      obtain ⟨hagent, hsent⟩ := Prod.mk.inj (Except.ok.inj hhandle)
      refine iff_of_true ⟨?_, fun r hr => ?_⟩ trivial
      · rw [← hagent]
        refine ht.pending.imp fun c hc => ?_
        rw [Connected, onNewClient, List.map_append]
        exact List.mem_append_left _ hc
      · rw [← hsent] at hr
        contradiction
  | getChannel c msg =>
      obtain ⟨hpending, hsent, hconnected⟩ := onClientGetChannel_pendingFor hhandle ht.pending hpossible
      exact iff_of_true ⟨hpending.imp fun c' => (hconnected c').2,
        fun r hr => (hconnected r.1).2 (hsent r hr)⟩ trivial
  | unrefChannel c tag =>
      obtain ⟨a₁, hunref, hhandle⟩ := Fallible.bind_eq_ok.1 hhandle
      obtain ⟨rfl, hsent⟩ := Prod.mk.inj (Except.ok.inj hhandle)
      obtain ⟨hpending, hptrs⟩ := onClientUnrefChannel_pending hunref
      refine iff_of_true ⟨fun e he r hr => ?_, fun r hr => ?_⟩ trivial
      · rw [hpending] at he
        rw [Connected, hptrs]
        exact ht.pending e he r hr
      · rw [← hsent] at hr
        contradiction
  | disconnect c =>
      obtain ⟨a₁, hdisconnect, hhandle⟩ := Fallible.bind_eq_ok.1 hhandle
      obtain ⟨rfl, hsent⟩ := Prod.mk.inj (Except.ok.inj hhandle)
      obtain ⟨hpending, hconnected⟩ := onDisconnect_pending hdisconnect
      constructor
      · intro ht' e he r hr
        exact ((hconnected r.1).1 (ht'.pending e (hpending ▸ he) r hr)).2
      · intro hwaits
        refine ⟨fun e he r hr => ?_, fun r hr => ?_⟩
        · rw [hpending] at he
          exact (hconnected r.1).2 ⟨ht.pending e he r hr, hwaits e he r hr⟩
        · rw [← hsent] at hr
          contradiction

theorem along_waitsForNothing_iff {run : List (Event × Served σ)} {t : Served σ} (ht : Targeted t)
    (hrun : Along (Serves notify) t run) :
    (∀ x ∈ run, Targeted x.2) ↔ Along (fun t e _ => WaitsForNothing t.agent e) t run := by
  induction run generalizing t with
  | nil => simp
  | cons x run ih =>
      obtain ⟨hserves, hrun⟩ := hrun
      rw [List.forall_mem_cons, Along.cons, serves_targeted_iff hserves ht]
      exact and_congr_right fun hwaits => ih ((serves_targeted_iff hserves ht).2 hwaits) hrun

theorem targeted_initial (stRepo : StateRepository × σ) :
    Targeted ⟨initial stRepo, [], fun _ _ => none⟩ :=
  ⟨fun _ he => by contradiction, fun _ hr => by contradiction⟩

/-- **Targets.** In a run of the agent every response is for a connected client if and only if no
client disconnects while a response to it is pending. -/
theorem run_targeted_iff (notify : List CollectiveChannel → σ → Except String σ) (baseMac : MacAddr)
    (ip : IPv4Addr) (s : σ) (run : List (Event × Served σ))
    (hrun : Along (Serves notify) ⟨initial (StateRepository.initial baseMac ip, s), [], fun _ _ => none⟩
      run) :
    (∀ x ∈ run, Targeted x.2) ↔ Along (fun t e _ => WaitsForNothing t.agent e)
      ⟨initial (StateRepository.initial baseMac ip, s), [], fun _ _ => none⟩ run :=
  along_waitsForNothing_iff (targeted_initial _) hrun

end Targets

/-! ### Clients that leave -/

namespace Departures

open AsicDriver

def request (c : ClientPtr) (clientId : Nat) : Event :=
  .getChannel c ⟨[1, 2, 3], clientId, 5, 3, 10, 6, 0⟩

/-- Two clients own the channel, one gives it back and the other one leaves. -/
def leaving : List Event :=
  [.newClient, .newClient, request 0 1, request 1 2, .unrefChannel 0 5, .unrefChannel 0 5,
    .disconnect 1]

theorem leaving_lives : (runOf SameNode.after SameNode.start leaving).map
      (fun x => (x.2.channel? 5).isSome) = [false, false, true, true, true, true, false] ∧
    ∀ x ∈ runOf SameNode.after SameNode.start leaving, Lives onStRepoChannels x.2 := by
  have hrun : Along (Handles onStRepoChannels) SameNode.start
      (runOf SameNode.after SameNode.start leaving) := SameNode.along_handles (by decide +kernel)
  exact ⟨by decide +kernel, run_lives onStRepoChannels 0 1 (initialSetup 1024) _ hrun⟩

/-- A client whose responses were sent leaves. -/
def answered : List Event :=
  [.newClient, request 0 1, request 0 2, request 0 3, .disconnect 0]

theorem answered_targeted : Along (Serves onStRepoChannels) TwoParticipants.start
      (runOf TwoParticipants.serve TwoParticipants.start answered) ∧
    ∀ x ∈ runOf TwoParticipants.serve TwoParticipants.start answered, Targeted x.2 := by
  have hrun : Along (Serves onStRepoChannels) TwoParticipants.start
      (runOf TwoParticipants.serve TwoParticipants.start answered) := by
    have hpossible : Along (fun t e _ => Possible t.agent e ∧
        (handle onStRepoChannels t.agent e).isOk = true) TwoParticipants.start
        (runOf TwoParticipants.serve TwoParticipants.start answered) := by
      decide +kernel
    exact hpossible.of_runOf fun _ _ => TwoParticipants.serves_serve
  exact ⟨hrun, (run_targeted_iff onStRepoChannels 0 1 (initialSetup 1024) _ hrun).2
    (by decide +kernel)⟩

/-- A client leaves while a response to it is pending, and someone else keeps the channel. -/
def waiting : List Event :=
  [.newClient, .newClient, request 0 1, request 1 2, .disconnect 0, request 1 3]

/-- The last request sends the response of the client that left. -/
theorem waiting_not_targeted : Along (Serves onStRepoChannels) TwoParticipants.start
      (runOf TwoParticipants.serve TwoParticipants.start waiting) ∧
    (∃ x ∈ runOf TwoParticipants.serve TwoParticipants.start waiting,
      ∃ r ∈ x.2.sent, ¬ x.2.agent.Connected r.1) ∧
    ¬ ∀ x ∈ runOf TwoParticipants.serve TwoParticipants.start waiting, Targeted x.2 := by
  have hpossible : Along (fun t e _ => Possible t.agent e ∧
      (handle onStRepoChannels t.agent e).isOk = true) TwoParticipants.start
      (runOf TwoParticipants.serve TwoParticipants.start waiting) := by
    decide +kernel
  have hsent : ∃ x ∈ runOf TwoParticipants.serve TwoParticipants.start waiting,
      ∃ r ∈ x.2.sent, ¬ x.2.agent.Connected r.1 := by
    decide +kernel
  refine ⟨hpossible.of_runOf fun _ _ => TwoParticipants.serves_serve, hsent, fun h => ?_⟩
  obtain ⟨x, hx, r, hr, hgone⟩ := hsent
  exact hgone ((h x hx).sent r hr)

end Departures

end Agent

end Mpitofino
