import Mpitofino.Control.Agent
import Mpitofino.Control.AsicDriver
import Mpitofino.Library.Run

/-!
# Fabric QPs of participants

A fabric QP is the common part of its channel and, below it, the number of participants the agent
counts on the participant's node. The count includes an old entry of the requester and is not a number
that is free: a participant may get the number another one still has.
-/

namespace Mpitofino

namespace Agent

open StateRepository (WellFormed Promised Called commonOf updateIn)

/-- Different known participants have different selector keys. -/
def DistinctKeys (r : StateRepository) : Prop :=
  ∀ e ∈ r.channels.entries, ∀ e' ∈ r.channels.entries, ∀ k p k' p',
    (k, p) ∈ e.2.participants.entries → (k', p') ∈ e'.2.participants.entries →
      p.ip ≠ 0 → p'.ip ≠ 0 → (p.ip, p.fabricQp) = (p'.ip, p'.fabricQp) → e.1 = e'.1 ∧ k = k'

/-- The known participants of a channel on a node. -/
def onNode (ch : CollectiveChannel) (ip : IPv4Addr) : List Participant :=
  ch.members.filter fun p => p.ip ≠ 0 ∧ p.ip = ip

/-- The part of a fabric QP that belongs to the node. -/
def nodePart (fabricQp : IbQp) : BitVec 8 := fabricQp.setWidth 8

/-- At a `GetChannel` no other participant on the requester's node has the number of the participants
on that node. -/
def NumberFree {σ : Type} (a : Agent σ) : Event → Prop
  | .getChannel _ msg => ∀ ch, a.channel? msg.tag = some ch →
      ∀ k p, (k, p) ∈ ch.participants.entries → k ≠ msg.clientId → p ∈ onNode ch msg.clientIp →
        nodePart p.fabricQp ≠ BitVec.ofNat 8 (onNode ch msg.clientIp).length
  | _ => True

instance {σ : Type} (a : Agent σ) (e : Event) : Decidable (NumberFree a e) :=
  match e with
  | .getChannel _ msg =>
      match h : a.channel? msg.tag with
      | none => isTrue fun ch hch => by
          rw [h] at hch
          contradiction
      | some ch => decidable_of_iff
          (∀ x ∈ ch.participants.entries, x.1 ≠ msg.clientId → x.2 ∈ onNode ch msg.clientIp →
            nodePart x.2.fabricQp ≠ BitVec.ofNat 8 (onNode ch msg.clientIp).length) <| by
          constructor
          · intro hall ch' hch' k p hp
            obtain rfl := Option.some.inj (h.symm.trans hch')
            exact hall (k, p) hp
          · intro hfree x hx
            exact hfree ch h x.1 x.2 hx
  | .newClient => isTrue trivial
  | .unrefChannel _ _ => isTrue trivial
  | .disconnect _ => isTrue trivial

/-! ### The two parts -/

theorem commonOf_getNextFabricQp (ch : CollectiveChannel) (ip : IPv4Addr) :
    commonOf (getNextFabricQp ch ip) = ch.fabricQpCommon := by
  rw [getNextFabricQp, commonOf]
  generalize BitVec.ofNat 8 _ = n
  apply BitVec.eq_of_getLsbD_eq
  intro i hi
  simp [hi, show 8 + i < 24 by omega]

theorem nodePart_getNextFabricQp (ch : CollectiveChannel) (ip : IPv4Addr) :
    nodePart (getNextFabricQp ch ip) = BitVec.ofNat 8 (onNode ch ip).length := by
  rw [getNextFabricQp, nodePart, ← onNode]
  generalize BitVec.ofNat 8 _ = n
  apply BitVec.eq_of_getLsbD_eq
  intro i hi
  simp [hi]

theorem fabricQp_ext {qp qp' : IbQp} (hcommon : commonOf qp = commonOf qp')
    (hnode : nodePart qp = nodePart qp') : qp = qp' := by
  apply BitVec.eq_of_getLsbD_eq
  intro i hi
  by_cases hlow : i < 8
  · have h := congrArg (fun x => BitVec.getLsbD x i) hnode
    simpa [nodePart, hlow] using h
  · have h := congrArg (fun x => BitVec.getLsbD x (i - 8)) hcommon
    simpa [commonOf, show i - 8 < 16 by omega, show 8 + (i - 8) = i by omega] using h

/-! ### One channel -/

def DistinctIn (ch : CollectiveChannel) : Prop :=
  ∀ k p k' p', (k, p) ∈ ch.participants.entries → (k', p') ∈ ch.participants.entries →
    p.ip ≠ 0 → p'.ip ≠ 0 → p.ip = p'.ip → p.fabricQp = p'.fabricQp → k = k'

theorem distinctKeys_iff {r : StateRepository} (hr : WellFormed r) :
    DistinctKeys r ↔ ∀ e ∈ r.channels.entries, DistinctIn e.2 := by
  constructor
  · intro h e he k p k' p' hp hp' hknown hknown' hip hqp
    exact (h e he e he k p k' p' hp hp' hknown hknown' (by rw [hip, hqp])).2
  · intro h e he e' he' k p k' p' hp hp' hknown hknown' heq
    obtain ⟨hip, hqp⟩ := Prod.mk.inj heq
    have hcommon : e.2.fabricQpCommon = e'.2.fabricQpCommon := by
      rw [← hr.fabricQps e he p (OrderedMap.mem_values.2 ⟨k, hp⟩) hknown,
        ← hr.fabricQps e' he' p' (OrderedMap.mem_values.2 ⟨k', hp'⟩) hknown', hqp]
    obtain rfl := hr.commons e he e' he' hcommon
    exact ⟨rfl, h e he k p k' p' hp hp' hknown hknown' hip hqp⟩

theorem mem_onNode {ch : CollectiveChannel} {ip : IPv4Addr} {p : Participant} :
    p ∈ onNode ch ip ↔ p ∈ ch.members ∧ p.ip ≠ 0 ∧ p.ip = ip := by
  simp [onNode]

theorem mem_participants_updateIn {clientId : Nat} {u : ParticipantUpdate} {ch : CollectiveChannel}
    {k : Nat} {p : Participant} :
    (k, p) ∈ (updateIn clientId u ch).participants.entries ↔
      ∃ q, (k, q) ∈ ch.participants.entries ∧ p = if k = clientId then u.apply q else q :=
  OrderedMap.mem_modify

section Update

variable {ch : CollectiveChannel} {msg : GetChannel}
  (hqps : ∀ p ∈ ch.members, p.ip ≠ 0 → commonOf p.fabricQp = ch.fabricQpCommon)

include hqps

theorem key_eq_iff {k : Nat} {p : Participant} (hp : (k, p) ∈ ch.participants.entries)
    (hknown : p.ip ≠ 0) :
    p.ip = msg.clientIp ∧ p.fabricQp = getNextFabricQp ch msg.clientIp ↔
      p ∈ onNode ch msg.clientIp ∧
        nodePart p.fabricQp = BitVec.ofNat 8 (onNode ch msg.clientIp).length := by
  have hmem : p ∈ ch.members := OrderedMap.mem_values.2 ⟨k, hp⟩
  rw [mem_onNode]
  constructor
  · rintro ⟨hip, hqp⟩
    exact ⟨⟨hmem, hknown, hip⟩, by rw [hqp, nodePart_getNextFabricQp]⟩
  · rintro ⟨⟨-, -, hip⟩, hnode⟩
    refine ⟨hip, fabricQp_ext ?_ ?_⟩
    · rw [hqps p hmem hknown, commonOf_getNextFabricQp]
    · rw [hnode, nodePart_getNextFabricQp]

theorem distinctIn_updateIn_iff (hdistinct : DistinctIn ch)
    (hclient : ∃ p, (msg.clientId, p) ∈ ch.participants.entries) :
    DistinctIn (updateIn msg.clientId (participantUpdate ch msg) ch) ↔
      ∀ k p, (k, p) ∈ ch.participants.entries → k ≠ msg.clientId → p ∈ onNode ch msg.clientIp →
        nodePart p.fabricQp ≠ BitVec.ofNat 8 (onNode ch msg.clientIp).length := by
  obtain ⟨p₀, hp₀⟩ := hclient
  have hnew : (msg.clientId, (participantUpdate ch msg).apply p₀) ∈
      (updateIn msg.clientId (participantUpdate ch msg) ch).participants.entries :=
    mem_participants_updateIn.2 ⟨p₀, hp₀, (if_pos rfl).symm⟩
  have hold : ∀ {k p}, (k, p) ∈ ch.participants.entries → k ≠ msg.clientId →
      (k, p) ∈ (updateIn msg.clientId (participantUpdate ch msg) ch).participants.entries :=
    fun hp hk => mem_participants_updateIn.2 ⟨_, hp, (if_neg hk).symm⟩
  constructor
  · intro h k p hp hk hnode hnumber
    have hknown := (mem_onNode.1 hnode).2.1
    obtain ⟨hip, hqp⟩ := (key_eq_iff hqps hp hknown).2 ⟨hnode, hnumber⟩
    exact hk (h k p msg.clientId _ (hold hp hk) hnew hknown (by rwa [hip] at hknown) hip hqp)
  · intro hfree
    -- an old key is never the new one, and two old keys differ
    have hother : ∀ {k p}, (k, p) ∈ ch.participants.entries → k ≠ msg.clientId → p.ip ≠ 0 →
        ¬ (p.ip = msg.clientIp ∧ p.fabricQp = getNextFabricQp ch msg.clientIp) := by
      intro k p hp hk hknown heq
      obtain ⟨hnode, hnumber⟩ := (key_eq_iff hqps hp hknown).1 heq
      exact hfree k p hp hk hnode hnumber
    intro k p k' p' hp hp' hknown hknown' hip hqp
    obtain ⟨q, hq, rfl⟩ := mem_participants_updateIn.1 hp
    obtain ⟨q', hq', rfl⟩ := mem_participants_updateIn.1 hp'
    by_cases hk : k = msg.clientId <;> by_cases hk' : k' = msg.clientId
    · rw [hk, hk']
    · rw [if_pos hk] at hip hqp
      rw [if_neg hk'] at hip hqp hknown'
      exact absurd ⟨hip.symm, hqp.symm⟩ (hother hq' hk' hknown')
    · rw [if_neg hk] at hip hqp hknown
      rw [if_pos hk'] at hip hqp
      exact absurd ⟨hip, hqp⟩ (hother hq hk hknown)
    · rw [if_neg hk] at hip hqp hknown
      rw [if_neg hk'] at hip hqp hknown'
      exact hdistinct k q k' q' hq hq' hknown hknown' hip hqp

end Update

/-! ### The events -/

section Events

variable {σ : Type} {notify : List CollectiveChannel → σ → Except String σ} {a a' : Agent σ}

theorem ensureChannel_wellFormed {msg : GetChannel} (h : ensureChannel notify msg a = .ok a')
    (hr : WellFormed a.stRepo.1) : WellFormed a'.stRepo.1 := by
  rcases ensureChannel_ok h with ⟨ch, -, rfl⟩ | ⟨-, r, c, stRepo, hsame, hallocated, hcalled, rfl⟩
  · exact hr
  · have hpromised : Promised r (.addChannel c) := by
      refine ⟨fun c' hc' => ⟨hallocated.aggUnit c' hc', hallocated.fabricQpCommon c' hc'⟩,
        fun p hp hknown => ?_⟩
      obtain ⟨k, hk⟩ := OrderedMap.mem_values.1 hp
      rw [hallocated.unknown k p hk] at hknown
      exact absurd rfl hknown
    have hr' : WellFormed (r, a.stRepo.2).1 := hr.congr hsame
    exact hr'.called hpromised hcalled

theorem ensureChannel_distinct {msg : GetChannel} (h : ensureChannel notify msg a = .ok a')
    (hdistinct : ∀ e ∈ a.stRepo.1.channels.entries, DistinctIn e.2) :
    ∀ e ∈ a'.stRepo.1.channels.entries, DistinctIn e.2 := by
  rcases ensureChannel_ok h with ⟨ch, -, rfl⟩ | ⟨-, r, c, stRepo, hsame, hallocated, hcalled, rfl⟩
  · exact hdistinct
  · cases hcalled with
    | added hnew _ =>
        intro e he
        rcases (OrderedMap.mem_insert hnew).1 he with rfl | hold
        · intro k p k' p' hp _ hknown
          rw [hallocated.unknown k p hp] at hknown
          exact absurd rfl hknown
        · rw [hsame] at hold
          exact hdistinct e hold

theorem numberFree_ensureChannel {c : ClientPtr} {msg : GetChannel}
    (h : ensureChannel notify msg a = .ok a') :
    NumberFree a' (.getChannel c msg) ↔ NumberFree a (.getChannel c msg) := by
  rcases ensureChannel_ok h with ⟨ch, -, rfl⟩ | ⟨hnone, r, ch, stRepo, -, hallocated, hcalled, rfl⟩
  · rfl
  · cases hcalled with
    | added hnew _ =>
        refine iff_of_true (fun ch' hch' k p hp _ hnode => ?_) fun ch' hch' => ?_
        · have hmem := OrderedMap.find?_eq_some_iff.1 hch'
          rcases (OrderedMap.mem_insert hnew).1 hmem with heq | hold
          · obtain ⟨-, rfl⟩ := Prod.mk.inj heq
            rw [hallocated.unknown k p hp, mem_onNode] at hnode
            exact absurd rfl hnode.2.1
          · have hfind := OrderedMap.find?_eq_some_iff.2 hold
            rw [← hallocated.tag, hnew] at hfind
            contradiction
        · rw [hnone] at hch'
          contradiction

theorem holdReply_stRepo (ch : CollectiveChannel) (reply : Reply) (a : Agent σ) :
    (holdReply ch reply a).1.stRepo = a.stRepo := by
  rw [holdReply]
  split <;> rfl

theorem checkRemoveChannel_keeps {I : StateRepository → Prop}
    (herase : ∀ r tag, I r → I { r with channels := r.channels.erase tag }) {tag : Nat}
    (h : checkRemoveChannel notify a tag = .ok a') (ha : I a.stRepo.1) : I a'.stRepo.1 := by
  rcases checkRemoveChannel_ok h with rfl | ⟨-, stRepo, hcalled, rfl⟩
  · exact ha
  · cases hcalled with
    | removed _ => exact herase _ _ ha

theorem onDisconnect_keeps {I : StateRepository → Prop}
    (herase : ∀ r tag, I r → I { r with channels := r.channels.erase tag }) {c : ClientPtr}
    (h : onDisconnect notify c a = .ok a') (ha : I a.stRepo.1) : I a'.stRepo.1 := by
  obtain ⟨a₁, hremove, h⟩ := Fallible.bind_eq_ok.1 h
  obtain rfl := Except.ok.inj h
  have ha₁ : I a₁.stRepo.1 := Fallible.foldlM_invariant (I := fun a : Agent σ => I a.stRepo.1)
    hremove ha fun a tag a' _ ha hok => checkRemoveChannel_keeps herase hok ha
  exact ha₁

theorem onClientUnrefChannel_keeps {I : StateRepository → Prop}
    (herase : ∀ r tag, I r → I { r with channels := r.channels.erase tag }) {c : ClientPtr}
    {tag : Nat} (h : onClientUnrefChannel notify c tag a = .ok a') (ha : I a.stRepo.1) :
    I a'.stRepo.1 := by
  rw [onClientUnrefChannel] at h
  split at h
  · exact checkRemoveChannel_keeps (a := a.modifyClient c fun s => s.erase tag) herase h ha
  · obtain rfl := Except.ok.inj h
    exact ha

theorem handle_wellFormed {e : Event} {sent : List Reply}
    (h : handle notify a e = .ok (a', sent)) (hr : WellFormed a.stRepo.1) :
    WellFormed a'.stRepo.1 := by
  have herase : ∀ (r : StateRepository) tag, WellFormed r →
      WellFormed { r with channels := r.channels.erase tag } := fun r tag hr =>
    ⟨fun e he e' he' => hr.aggUnits e (OrderedMap.mem_erase.1 he).1 e' (OrderedMap.mem_erase.1 he').1,
      fun e he e' he' => hr.commons e (OrderedMap.mem_erase.1 he).1 e' (OrderedMap.mem_erase.1 he').1,
      fun e he => hr.fabricQps e (OrderedMap.mem_erase.1 he).1⟩
  cases e with
  | newClient =>
      obtain ⟨rfl, -⟩ := Prod.mk.inj (Except.ok.inj h)
      exact hr
  | getChannel c msg =>
      obtain ⟨a₁, ch, stRepo, hensure, hch, hcalled, heq⟩ := onClientGetChannel_ok h
      have ha' : a'.stRepo = stRepo := by
        have hfst := congrArg (fun x => x.1.stRepo) heq
        rwa [holdReply_stRepo] at hfst
      have hpromised : Promised a₁.stRepo.1 (.updateChannelParticipant msg.tag msg.clientId
          (participantUpdate ch msg)) := by
        intro ch' hch'
        obtain rfl := Option.some.inj (hch.symm.trans hch')
        exact commonOf_getNextFabricQp ..
      rw [ha']
      exact (ensureChannel_wellFormed hensure hr).called hpromised hcalled
  | unrefChannel c tag =>
      obtain ⟨a₁, hunref, h⟩ := Fallible.bind_eq_ok.1 h
      obtain ⟨rfl, -⟩ := Prod.mk.inj (Except.ok.inj h)
      exact onClientUnrefChannel_keeps herase hunref hr
  | disconnect c =>
      obtain ⟨a₁, hdisconnect, h⟩ := Fallible.bind_eq_ok.1 h
      obtain ⟨rfl, -⟩ := Prod.mk.inj (Except.ok.inj h)
      exact onDisconnect_keeps herase hdisconnect hr

/-- An event keeps the keys apart exactly when it takes a free number. -/
theorem handle_distinct_iff {e : Event} {sent : List Reply}
    (h : handle notify a e = .ok (a', sent)) (hr : WellFormed a.stRepo.1)
    (hdistinct : ∀ e ∈ a.stRepo.1.channels.entries, DistinctIn e.2) :
    (∀ e ∈ a'.stRepo.1.channels.entries, DistinctIn e.2) ↔ NumberFree a e := by
  have herase : ∀ (r : StateRepository) (tag : Nat), (∀ e ∈ r.channels.entries, DistinctIn e.2) →
      ∀ e ∈ (r.channels.erase tag).entries, DistinctIn e.2 := fun r tag hr e he =>
    hr e (OrderedMap.mem_erase.1 he).1
  cases e with
  | newClient =>
      obtain ⟨rfl, -⟩ := Prod.mk.inj (Except.ok.inj h)
      exact iff_of_true hdistinct trivial
  | getChannel c msg =>
      obtain ⟨a₁, ch, stRepo, hensure, hch, hcalled, heq⟩ := onClientGetChannel_ok h
      have ha' : a'.stRepo = stRepo := by
        have hfst := congrArg (fun x => x.1.stRepo) heq
        rwa [holdReply_stRepo] at hfst
      obtain ⟨ch', p, hch', hp, hchannels⟩ := hcalled.channels_update
      obtain rfl := Option.some.inj (hch.symm.trans hch')
      have hr₁ := ensureChannel_wellFormed hensure hr
      have hdistinct₁ := ensureChannel_distinct hensure hdistinct
      have hmem := OrderedMap.find?_eq_some_iff.1 hch
      have hiff := @distinctIn_updateIn_iff _ msg (fun p hp => hr₁.fabricQps _ hmem p hp)
        (hdistinct₁ _ hmem) ⟨p, OrderedMap.find?_eq_some_iff.1 hp⟩
      rw [ha', hchannels, ← numberFree_ensureChannel hensure]
      constructor
      · intro hall ch' hch'
        obtain rfl := Option.some.inj (hch.symm.trans hch')
        exact hiff.1 (hall (msg.tag, _) (OrderedMap.mem_modify.2 ⟨ch, hmem, (if_pos rfl).symm⟩))
      · rintro hfree ⟨tag, ch'⟩ he
        obtain ⟨ch₀, hch₀, rfl⟩ := OrderedMap.mem_modify.1 he
        dsimp only
        split
        · rename_i htag
          subst htag
          obtain rfl := Option.some.inj (hch.symm.trans (OrderedMap.find?_eq_some_iff.2 hch₀))
          exact hiff.2 (hfree ch hch)
        · exact hdistinct₁ _ hch₀
  | unrefChannel c tag =>
      obtain ⟨a₁, hunref, h⟩ := Fallible.bind_eq_ok.1 h
      obtain ⟨rfl, -⟩ := Prod.mk.inj (Except.ok.inj h)
      exact iff_of_true (onClientUnrefChannel_keeps
        (I := fun r => ∀ e ∈ r.channels.entries, DistinctIn e.2) herase hunref hdistinct) trivial
  | disconnect c =>
      obtain ⟨a₁, hdisconnect, h⟩ := Fallible.bind_eq_ok.1 h
      obtain ⟨rfl, -⟩ := Prod.mk.inj (Except.ok.inj h)
      exact iff_of_true (onDisconnect_keeps
        (I := fun r => ∀ e ∈ r.channels.entries, DistinctIn e.2) herase hdisconnect hdistinct) trivial

end Events

/-! ### Runs -/

section Runs

variable {σ : Type} (notify : List CollectiveChannel → σ → Except String σ)

theorem along_numberFree_iff {run : List (Event × Agent σ)} {a : Agent σ}
    (hr : WellFormed a.stRepo.1) (hdistinct : ∀ e ∈ a.stRepo.1.channels.entries, DistinctIn e.2)
    (hrun : Along (Handles notify) a run) :
    (∀ x ∈ run, DistinctKeys x.2.stRepo.1) ↔ Along (fun a e _ => NumberFree a e) a run := by
  induction run generalizing a with
  | nil => simp
  | cons x run ih =>
      obtain ⟨⟨-, sent, hhandle⟩, hrun⟩ := hrun
      have hr' := handle_wellFormed hhandle hr
      have hstep := handle_distinct_iff hhandle hr hdistinct
      rw [List.forall_mem_cons, distinctKeys_iff hr', hstep, Along.cons]
      exact and_congr_right fun hfree => ih hr' (hstep.2 hfree) hrun

/-- **Selector keys.** In a run of the agent the known participants always have different keys if and
only if no `GetChannel` finds its number taken. -/
theorem run_distinctKeys_iff (baseMac : MacAddr) (ip : IPv4Addr) (s : σ)
    (run : List (Event × Agent σ))
    (hrun : Along (Handles notify) (initial (StateRepository.initial baseMac ip, s)) run) :
    (∀ x ∈ run, DistinctKeys x.2.stRepo.1) ↔
      Along (fun a e _ => NumberFree a e) (initial (StateRepository.initial baseMac ip, s)) run :=
  along_numberFree_iff notify (StateRepository.wellFormed_initial baseMac ip)
    (fun _ h => by contradiction) hrun

end Runs

/-! ### Two participants on one node -/

namespace SameNode

open AsicDriver

def start : Agent Asic := initial (StateRepository.initial 0 1, initialSetup 1024)

/-- The request of a participant of the channel 5, from the node with the address 10. -/
def request (clientId : Nat) : Event := .getChannel 0 ⟨[1, 2], clientId, 5, 3, 10, 6, 0⟩

def after (a : Agent Asic) (e : Event) : Agent Asic :=
  match handle onStRepoChannels a e with
  | .ok x => x.1
  | .error _ => a

private theorem handles_after {a : Agent Asic} {e : Event}
    (h : Possible a e ∧ (handle onStRepoChannels a e).isOk = true) :
    Handles onStRepoChannels a e (after a e) := by
  refine ⟨h.1, ?_⟩
  cases hhandle : handle onStRepoChannels a e with
  | error message =>
      rw [hhandle] at h
      exact absurd h.2 Bool.false_ne_true
  | ok x => exact ⟨x.2, by rw [after, hhandle]⟩

theorem along_handles {a : Agent Asic} {es : List Event}
    (h : Along (fun a e _ => Possible a e ∧ (handle onStRepoChannels a e).isOk = true) a
      (runOf after a es)) : Along (Handles onStRepoChannels) a (runOf after a es) :=
  h.of_runOf fun _ _ => handles_after

theorem registered_once : Along (Handles onStRepoChannels) start
      (runOf after start [.newClient, request 1, request 2]) ∧
    ∀ x ∈ runOf after start [.newClient, request 1, request 2], DistinctKeys x.2.stRepo.1 := by
  have hrun : Along (Handles onStRepoChannels) start
      (runOf after start [.newClient, request 1, request 2]) := along_handles (by decide +kernel)
  exact ⟨hrun, (run_distinctKeys_iff onStRepoChannels 0 1 (initialSetup 1024) _ hrun).2
    (by decide +kernel)⟩

/-- The first participant registers twice, and the second one gets the same number. -/
theorem registered_again : Along (Handles onStRepoChannels) start
      (runOf after start [.newClient, request 1, request 1, request 2]) ∧
    ¬ ∀ x ∈ runOf after start [.newClient, request 1, request 1, request 2],
      DistinctKeys x.2.stRepo.1 := by
  have hrun : Along (Handles onStRepoChannels) start
      (runOf after start [.newClient, request 1, request 1, request 2]) :=
    along_handles (by decide +kernel)
  refine ⟨hrun, fun hdistinct => ?_⟩
  exact absurd ((along_numberFree_iff onStRepoChannels (StateRepository.wellFormed_initial 0 1)
    (fun _ h => by contradiction) hrun).1 hdistinct) (by decide +kernel)

end SameNode

end Agent

end Mpitofino
