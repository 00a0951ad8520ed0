import Mpitofino.Control.NodeDaemon

/-!
# Which client a response is forwarded to

The entry that a response completes is not taken out. So the client that was first to connect, among
those that have ever asked for a client id and a tag, gets every response for them, whether or not it
waits for one.
-/

namespace Mpitofino

namespace NodeDaemon

/-! ### Runs with their requests -/

/-- How often something happened, for each client and each client id and tag. -/
abbrev Counts := ClientPtr → Nat × Nat → Nat

def Counts.increment (n : Counts) (c : ClientPtr) (pair : Nat × Nat) : Counts := fun c' pair' =>
  if c' = c ∧ pair' = pair then n c' pair' + 1 else n c' pair'

/-- The daemon, what it forwarded at the last event, and the requests that the clients made and the
responses that they were sent. -/
structure Relay where
  daemon : NodeDaemon
  sent : List Reply
  requests : Counts
  answers : Counts

def recordRequest (requests : Counts) : Event → Counts
  | .clientGetChannel c msg => requests.increment c (msg.clientId, msg.tag)
  | _ => requests

def recordAnswers (answers : Counts) (sent : List Reply) : Event → Counts
  | .switchResponse resp =>
      sent.foldl (fun answers r => answers.increment r.1 (resp.clientId, resp.tag)) answers
  | _ => answers

def Relays (t : Relay) (e : Event) (t' : Relay) : Prop :=
  Possible t.daemon e ∧
    (∃ toSwitch, handle t.daemon e = .ok ⟨t'.daemon, toSwitch, t'.sent⟩) ∧
    t'.requests = recordRequest t.requests e ∧ t'.answers = recordAnswers t.answers t'.sent e

/-- A response is forwarded to a client that is connected and has an unanswered request for it, and no
client is sent more responses than it made requests. -/
structure Routed (t : Relay) (e : Event) (t' : Relay) : Prop where
  requested : ∀ r ∈ t'.sent, ∃ resp, e = .switchResponse resp ∧
    r.2 = ⟨resp.fabricIp, resp.fabricQp⟩ ∧ t.daemon.Connected r.1 ∧
      t.answers r.1 (resp.clientId, resp.tag) < t.requests r.1 (resp.clientId, resp.tag)
  once : ∀ c pair, t'.answers c pair ≤ t'.requests c pair

/-- The first client with an entry for a response waits for one. -/
def Outstanding (t : Relay) : Event → Prop
  | .switchResponse resp => ∀ cl ∈ t.daemon.holder (resp.clientId, resp.tag),
      t.answers cl.ptr (resp.clientId, resp.tag) < t.requests cl.ptr (resp.clientId, resp.tag)
  | _ => True

instance (t : Relay) : ∀ e, Decidable (Outstanding t e)
  | .clientConn => isTrue trivial
  | .clientGetChannel _ _ => isTrue trivial
  | .clientGone _ => isTrue trivial
  | .tdp _ _ => isTrue trivial
  | .switchResponse resp => inferInstanceAs (Decidable
      (∀ cl ∈ t.daemon.holder (resp.clientId, resp.tag),
        t.answers cl.ptr (resp.clientId, resp.tag) < t.requests cl.ptr (resp.clientId, resp.tag)))

/-! ### One event -/

def forwarded (nd : NodeDaemon) : Event → List Reply
  | .switchResponse resp => ((nd.holder (resp.clientId, resp.tag)).map fun cl =>
      (cl.ptr, ⟨resp.fabricIp, resp.fabricQp⟩)).toList
  | _ => []

theorem Counts.le_increment (n : Counts) (c : ClientPtr) (pair : Nat × Nat) (c' : ClientPtr)
    (pair' : Nat × Nat) : n c' pair' ≤ n.increment c pair c' pair' := by
  rw [increment]
  split
  · exact Nat.le_succ _
  · exact le_rfl

theorem Counts.increment_le {n m : Counts} {c : ClientPtr} {pair : Nat × Nat}
    (h : ∀ c pair, n c pair ≤ m c pair) (hlt : n c pair < m c pair) (c' : ClientPtr)
    (pair' : Nat × Nat) : n.increment c pair c' pair' ≤ m c' pair' := by
  rw [increment]
  split
  · rename_i heq
    obtain ⟨rfl, rfl⟩ := heq
    exact hlt
  · exact h c' pair'

section Step

variable {t t' : Relay} {e : Event}

theorem Relays.sent (h : Relays t e t') : t'.sent = forwarded t.daemon e := by
  obtain ⟨-, ⟨toSwitch, h⟩, -⟩ := h
  cases e with
  | clientConn => exact (congrArg Handled.toClients (Except.ok.inj h)).symm
  | clientGetChannel c msg =>
      refine (congrArg Handled.toClients (Except.ok.inj h)).symm.trans ?_
      rw [onClientGetChannel]
      split <;> rfl
  | clientGone c => exact (congrArg Handled.toClients (Except.ok.inj h)).symm
  | tdp ctrlIp port =>
      obtain ⟨nd, -, h⟩ := Fallible.bind_eq_ok.1 h
      exact (congrArg Handled.toClients (Except.ok.inj h)).symm
  | switchResponse resp =>
      exact (congrArg Handled.toClients (Except.ok.inj h)).symm.trans
        (onSwitchFd_toClients t.daemon resp)

/-- An event routes its response exactly when the first client with an entry for it waits. -/
theorem relays_routed_iff (h : Relays t e t') (ht : ∀ c pair, t.answers c pair ≤ t.requests c pair) :
    Routed t e t' ↔ Outstanding t e := by
  have hsent := h.sent
  obtain ⟨-, -, hrequests, hanswers⟩ := h
  have hle : ∀ c pair, t.answers c pair ≤ recordRequest t.requests e c pair := by
    intro c pair
    refine (ht c pair).trans ?_
    cases e with
    | clientGetChannel c' msg => exact Counts.le_increment ..
    | _ => exact le_rfl
  by_cases hresp : ∃ resp, e = .switchResponse resp
  · obtain ⟨resp, rfl⟩ := hresp
    cases hholder : t.daemon.holder (resp.clientId, resp.tag) with
    | none =>
        have hnone : t'.sent = [] := by simpa [forwarded, hholder] using hsent
        refine iff_of_true ⟨fun r hr => ?_, fun c pair => ?_⟩ fun cl hcl => ?_
        · rw [hnone] at hr
          contradiction
        · rw [hanswers, hrequests, hnone]
          exact hle c pair
        · rw [hholder] at hcl
          contradiction
    | some cl =>
        have hone : t'.sent = [(cl.ptr, ⟨resp.fabricIp, resp.fabricQp⟩)] := by
          simpa [forwarded, hholder] using hsent
        have hcl : cl ∈ t.daemon.clients := List.mem_of_find?_eq_some hholder
        constructor
        · intro hrouted cl' hcl'
          obtain rfl := Option.some.inj (hholder.symm.trans hcl')
          obtain ⟨resp', heq, -, -, hlt⟩ := hrouted.requested _ (hone ▸ List.mem_singleton_self _)
          obtain rfl := Event.switchResponse.inj heq
          exact hlt
        · intro houtstanding
          have hlt := houtstanding cl hholder
          refine ⟨fun r hr => ?_, fun c pair => ?_⟩
          · rw [hone] at hr
            obtain rfl := List.mem_singleton.1 hr
            exact ⟨resp, rfl, rfl, List.mem_map_of_mem hcl, hlt⟩
          · rw [hanswers, hrequests, hone]
            exact Counts.increment_le ht hlt c pair
  · -- no other event forwards anything
    have hnone : t'.sent = [] ∧ Outstanding t e ∧ t'.answers = t.answers := by
      cases e with
      | switchResponse resp => exact absurd ⟨resp, rfl⟩ hresp
      | _ => exact ⟨hsent, trivial, hanswers⟩
    obtain ⟨hnone, houtstanding, hsame⟩ := hnone
    refine iff_of_true ⟨fun r hr => ?_, fun c pair => ?_⟩ houtstanding
    · rw [hnone] at hr
      contradiction
    · rw [hsame, hrequests]
      exact hle c pair

theorem along_routed_iff {run : List (Event × Relay)} {t : Relay}
    (ht : ∀ c pair, t.answers c pair ≤ t.requests c pair) (hrun : Along Relays t run) :
    Along Routed t run ↔ Along (fun t e _ => Outstanding t e) t run := by
  induction run generalizing t with
  | nil => simp
  | cons x run ih =>
      obtain ⟨hrelays, hrun⟩ := hrun
      rw [Along.cons, Along.cons, relays_routed_iff hrelays ht]
      exact and_congr_right fun houtstanding =>
        ih ((relays_routed_iff hrelays ht).2 houtstanding).once hrun

end Step

def Relay.initial (hpnNodeAddr : IPv4Addr) (hpnNodeMac : MacAddr) : Relay :=
  ⟨NodeDaemon.initial hpnNodeAddr hpnNodeMac, [], fun _ _ => 0, fun _ _ => 0⟩

/-- **Routing.** In a run of the daemon every response goes to a client with an unanswered request for
it if and only if, whenever a response comes in, the first client with an entry for it waits. -/
theorem run_routed_iff (hpnNodeAddr : IPv4Addr) (hpnNodeMac : MacAddr) (run : List (Event × Relay))
    (hrun : Along Relays (Relay.initial hpnNodeAddr hpnNodeMac) run) :
    Along Routed (Relay.initial hpnNodeAddr hpnNodeMac) run ↔
      Along (fun t e _ => Outstanding t e) (Relay.initial hpnNodeAddr hpnNodeMac) run :=
  along_routed_iff (fun _ _ => le_rfl) hrun

/-! ### Two clients with the same request -/

namespace Rerun

def start : Relay := Relay.initial 10 6

def relay (t : Relay) (e : Event) : Relay :=
  match handle t.daemon e with
  | .ok x => ⟨x.daemon, x.toClients, recordRequest t.requests e, recordAnswers t.answers x.toClients e⟩
  | .error _ => t

theorem relays_relay {t : Relay} {e : Event}
    (h : Possible t.daemon e ∧ (handle t.daemon e).isOk = true) : Relays t e (relay t e) := by
  obtain ⟨hpossible, hok⟩ := h
  cases hhandle : handle t.daemon e with
  | error message =>
      rw [hhandle] at hok
      contradiction
  | ok x =>
      rw [relay, hhandle]
      exact ⟨hpossible, ⟨x.toSwitch, hhandle⟩, rfl, rfl⟩

/-- The request of the only participant of the channel 5 through a client. -/
def request (c : ClientPtr) : Event := .clientGetChannel c ⟨[1], 1, 5, 3⟩

def response : Event := .switchResponse ⟨1, 5, 1, 0x100⟩

/-- A client comes back after it has left. -/
def again : List Event :=
  [.tdp 7 3, .clientConn, request 0, response, .clientGone 0, .clientConn, request 1, response]

theorem again_routed : Along Routed start (runOf relay start again) := by
  have hpossible : Along (fun t e _ => Possible t.daemon e ∧
      (handle t.daemon e).isOk = true) start (runOf relay start again) := by
    decide +kernel
  have hrun : Along Relays start (runOf relay start again) :=
    hpossible.of_runOf fun _ _ => relays_relay
  exact (run_routed_iff 10 6 _ hrun).2 (by decide +kernel)

/-- A second client makes the request while the first one is still connected. -/
def overlapping : List Event :=
  [.tdp 7 3, .clientConn, request 0, response, .clientConn, request 1, response]

/-- The second response goes to the first client again. -/
theorem overlapping_not_routed : Along Relays start (runOf relay start overlapping) ∧
    (runOf relay start overlapping).getLast?.map (fun x => x.2.sent) = some [(0, ⟨1, 0x100⟩)] ∧
    ¬ Along Routed start (runOf relay start overlapping) := by
  have hpossible : Along (fun t e _ => Possible t.daemon e ∧
      (handle t.daemon e).isOk = true) start (runOf relay start overlapping) := by
    decide +kernel
  have hrun : Along Relays start (runOf relay start overlapping) :=
    hpossible.of_runOf fun _ _ => relays_relay
  refine ⟨hrun, by decide +kernel, fun h => ?_⟩
  rw [along_routed_iff (fun _ _ => le_rfl) hrun] at h
  exact absurd h (by decide +kernel)

end Rerun

end NodeDaemon

end Mpitofino
