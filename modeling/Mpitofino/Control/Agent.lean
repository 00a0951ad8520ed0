import Mpitofino.Control.StateRepository
import Mpitofino.Library.FinTable
import Mathlib.Data.Finset.Sort

/-!
# The control plane agent

`Agent` of `distributed_control_plane_agent`: it serves the node daemons, its clients. A `GetChannel`
creates the channel if need be, makes the client an owner of it, enters the address of a participant
in the repository and holds the response back until there are as many responses as participants. A
channel without an owner is removed.

A client is known by the pointer to its `Client`, which no later client shares. A pending response
holds such a pointer, and nothing takes it back when the client disconnects. An exception ends the
daemon. The subscriber of the repository is a parameter; in the daemon it is the ASIC driver.
-/

namespace Mpitofino

/-- The message of a node daemon. `type` is left out, nothing here reads it. -/
structure GetChannel where
  aggGroupClientIds : List Nat
  clientId : Nat
  tag : Nat
  clientQp : IbQp
  clientIp : IPv4Addr
  clientMac : MacAddr
  switchPort : Nat

structure GetChannelResponse where
  clientId : Nat
  tag : Nat
  fabricIp : IPv4Addr
  fabricQp : IbQp
  deriving DecidableEq

abbrev ClientPtr := Nat

structure Client where
  ptr : ClientPtr
  channels : Finset Nat

abbrev Reply := ClientPtr × GetChannelResponse

structure Agent (σ : Type) where
  stRepo : StateRepository × σ
  clients : List Client
  pendingGetChannelResponses : FinTable Nat (List Reply)
  nextPtr : ClientPtr

namespace Agent

variable {σ : Type} (notify : List CollectiveChannel → σ → Except String σ)

def initial (stRepo : StateRepository × σ) : Agent σ := ⟨stRepo, [], FinTable.empty, 0⟩

def channel? (a : Agent σ) (tag : Nat) : Option CollectiveChannel := a.stRepo.1.getChannel tag

def pending (a : Agent σ) (tag : Nat) : List Reply :=
  (a.pendingGetChannelResponses.lookup tag).getD []

def modifyClient (a : Agent σ) (c : ClientPtr) (f : Finset Nat → Finset Nat) : Agent σ :=
  { a with clients := a.clients.map fun cl => if cl.ptr = c then ⟨cl.ptr, f cl.channels⟩ else cl }

/-- `get_next_fabric_qp`: the part of the channel, and how many participants the node already has. -/
def getNextFabricQp (ch : CollectiveChannel) (clientIp : IPv4Addr) : IbQp :=
  ch.fabricQpCommon.setWidth 24 <<< 8 |||
    (BitVec.ofNat 8 (ch.members.filter fun p => p.ip ≠ 0 ∧ p.ip = clientIp).length).setWidth 24

/-- The channel that is allocated for a message. -/
def allocateChannel (r : StateRepository) (msg : GetChannel) :
    Except String (StateRepository × CollectiveChannel) := do
  let (r, fabricQpCommon) ← r.getFreeCollQpCommon
  let aggUnit ← r.getFreeAggUnit
  return (r, {
    tag := msg.tag
    fabricIp := r.collectivesModuleIpAddr
    fabricQpCommon := fabricQpCommon
    fabricMac := r.getCollectivesModuleMacAddr
    aggUnit := aggUnit
    participants := msg.aggGroupClientIds.foldl (fun ps cid => ps.insert cid { clientId := cid })
      OrderedMap.empty })

/-- Get the channel, or allocate it and clear any pending responses. -/
def ensureChannel (msg : GetChannel) (a : Agent σ) : Except String (Agent σ) :=
  match a.channel? msg.tag with
  | some _ => .ok a
  | none => do
      let (r, c) ← allocateChannel a.stRepo.1 msg
      let stRepo ← StateRepository.call notify (r, a.stRepo.2) (.addChannel c)
      return { a with
        stRepo := stRepo
        pendingGetChannelResponses :=
          a.pendingGetChannelResponses.filter fun tag _ => tag ≠ msg.tag }

def participantUpdate (ch : CollectiveChannel) (msg : GetChannel) : ParticipantUpdate where
  ip := msg.clientIp
  localQp := msg.clientQp
  mac := msg.clientMac
  switchPort := BitVec.ofNat 9 msg.switchPort
  fabricQp := getNextFabricQp ch msg.clientIp

def response (ch : CollectiveChannel) (msg : GetChannel) : GetChannelResponse where
  clientId := msg.clientId
  tag := ch.tag
  fabricIp := ch.fabricIp
  fabricQp := getNextFabricQp ch msg.clientIp

/-- Hold the response, and send all of the channel once there is one for each participant. -/
def holdReply (ch : CollectiveChannel) (reply : Reply) (a : Agent σ) : Agent σ × List Reply :=
  let pm := a.pending ch.tag ++ [reply]
  if pm.length = ch.participants.entries.length then
    ({ a with
      pendingGetChannelResponses := a.pendingGetChannelResponses.filter fun tag _ => tag ≠ ch.tag },
      pm)
  else ({ a with pendingGetChannelResponses := a.pendingGetChannelResponses.put ch.tag pm }, [])

def onClientGetChannel (c : ClientPtr) (msg : GetChannel) (a : Agent σ) :
    Except String (Agent σ × List Reply) := do
  let a ← ensureChannel notify msg a
  match a.channel? msg.tag with
  | none => .error "No such channel"
  | some ch =>
      let a := a.modifyClient c (insert ch.tag)
      if 128 * 4 ≤ msg.switchPort then .error "Switch port received from client out of range"
      else
        let stRepo ← StateRepository.call notify a.stRepo
          (.updateChannelParticipant msg.tag msg.clientId (participantUpdate ch msg))
        return holdReply ch (c, response ch msg) { a with stRepo := stRepo }

def checkRemoveChannel (a : Agent σ) (tag : Nat) : Except String (Agent σ) :=
  if a.clients.any fun cl => tag ∈ cl.channels then .ok a
  else do
    let stRepo ← StateRepository.call notify a.stRepo (.removeChannel tag)
    return { a with stRepo := stRepo }

def ownedBy (a : Agent σ) (c : ClientPtr) : Finset Nat :=
  ((a.clients.find? fun cl => cl.ptr = c).map Client.channels).getD ∅

def onClientUnrefChannel (c : ClientPtr) (tag : Nat) (a : Agent σ) : Except String (Agent σ) :=
  if tag ∈ a.ownedBy c then checkRemoveChannel notify (a.modifyClient c fun s => s.erase tag) tag
  else .ok a

def onDisconnect (c : ClientPtr) (a : Agent σ) : Except String (Agent σ) := do
  let a' ← ((a.ownedBy c).sort (· ≤ ·)).foldlM (checkRemoveChannel notify)
    (a.modifyClient c fun _ => ∅)
  return { a' with clients := a'.clients.filter fun cl => cl.ptr ≠ c }

def onNewClient (a : Agent σ) : Agent σ :=
  { a with clients := a.clients ++ [⟨a.nextPtr, ∅⟩], nextPtr := a.nextPtr + 1 }

inductive Event where
  | newClient
  | getChannel (c : ClientPtr) (msg : GetChannel)
  | unrefChannel (c : ClientPtr) (tag : Nat)
  | disconnect (c : ClientPtr)

def handle (a : Agent σ) : Event → Except String (Agent σ × List Reply)
  | .newClient => .ok (a.onNewClient, [])
  | .getChannel c msg => onClientGetChannel notify c msg a
  | .unrefChannel c tag => do
      let a' ← onClientUnrefChannel notify c tag a
      return (a', [])
  | .disconnect c => do
      let a' ← onDisconnect notify c a
      return (a', [])

def Connected (a : Agent σ) (c : ClientPtr) : Prop := c ∈ a.clients.map Client.ptr

instance (a : Agent σ) (c : ClientPtr) : Decidable (a.Connected c) :=
  inferInstanceAs (Decidable (_ ∈ _))

/-- Whether the event can come in: its client is connected. -/
def Possible (a : Agent σ) : Event → Prop
  | .newClient => True
  | .getChannel c _ => a.Connected c
  | .unrefChannel c _ => a.Connected c
  | .disconnect c => a.Connected c

instance (a : Agent σ) : ∀ e, Decidable (a.Possible e)
  | .newClient => isTrue trivial
  | .getChannel c _ => inferInstanceAs (Decidable (a.Connected c))
  | .unrefChannel c _ => inferInstanceAs (Decidable (a.Connected c))
  | .disconnect c => inferInstanceAs (Decidable (a.Connected c))

def Handles (a : Agent σ) (e : Event) (a' : Agent σ) : Prop :=
  Possible a e ∧ ∃ sent, handle notify a e = .ok (a', sent)

/-! ### What the events do -/

open StateRepository (Call Called)

/-- A channel that was allocated for a message: fresh, and without a known participant. -/
structure Allocated (r : StateRepository) (msg : GetChannel) (c : CollectiveChannel) : Prop where
  tag : c.tag = msg.tag
  aggUnit : ∀ c' ∈ r.getChannels, c'.aggUnit ≠ c.aggUnit
  fabricQpCommon : ∀ c' ∈ r.getChannels, c'.fabricQpCommon ≠ c.fabricQpCommon
  unknown : ∀ k p, (k, p) ∈ c.participants.entries → p = { clientId := k }

private theorem mem_participants {ids : List Nat} {ps : OrderedMap Nat Participant} {k : Nat}
    {p : Participant} (hps : ∀ k p, (k, p) ∈ ps.entries → p = { clientId := k })
    (h : (k, p) ∈ (ids.foldl (fun ps cid => ps.insert cid { clientId := cid }) ps).entries) :
    p = { clientId := k } := by
  induction ids generalizing ps with
  | nil => exact hps k p h
  | cons cid ids ih =>
      refine ih (fun k p hmem => ?_) h
      cases hfind : ps.find? cid with
      | none =>
          rcases (OrderedMap.mem_insert hfind).1 hmem with heq | hold
          · obtain ⟨rfl, rfl⟩ := Prod.mk.inj heq
            rfl
          · exact hps k p hold
      | some p' =>
          have hsame : ps.insert cid { clientId := cid } = ps := OrderedMap.insert_of_find? hfind
          have hold : (k, p) ∈ (ps.insert cid { clientId := cid }).entries := hmem
          rw [hsame] at hold
          exact hps k p hold

theorem allocateChannel_ok {r r' : StateRepository} {msg : GetChannel} {c : CollectiveChannel}
    (h : allocateChannel r msg = .ok (r', c)) : r'.channels = r.channels ∧ Allocated r' msg c := by
  obtain ⟨⟨r₁, fabricQpCommon⟩, hqp, h⟩ := Fallible.bind_eq_ok.1 h
  obtain ⟨aggUnit, hunit, h⟩ := Fallible.bind_eq_ok.1 h
  obtain ⟨rfl, rfl⟩ := Prod.mk.inj (Except.ok.inj h)
  obtain ⟨hsame, hcommons⟩ := StateRepository.getFreeCollQpCommon_ok hqp
  have hchannels : r₁.getChannels = r.getChannels := congrArg OrderedMap.values hsame
  exact ⟨hsame, rfl, (StateRepository.getFreeAggUnit_ok hunit).2, by rwa [hchannels],
    fun k p hmem => mem_participants (fun _ _ h => by contradiction) hmem⟩

section Inversion

variable {notify} {a a' : Agent σ}

theorem ensureChannel_ok {msg : GetChannel} (h : ensureChannel notify msg a = .ok a') :
    (∃ ch, a.channel? msg.tag = some ch ∧ a' = a) ∨
      (a.channel? msg.tag = none ∧ ∃ r c stRepo, r.channels = a.stRepo.1.channels ∧
        Allocated r msg c ∧ Called notify (r, a.stRepo.2) (.addChannel c) stRepo ∧
        a' = { a with
          stRepo := stRepo
          pendingGetChannelResponses :=
            a.pendingGetChannelResponses.filter fun tag _ => tag ≠ msg.tag }) := by
  rw [ensureChannel] at h
  split at h
  · rename_i ch hch
    exact Or.inl ⟨ch, hch, (Except.ok.inj h).symm⟩
  · rename_i hch
    obtain ⟨⟨r, c⟩, hallocate, h⟩ := Fallible.bind_eq_ok.1 h
    obtain ⟨stRepo, hcall, h⟩ := Fallible.bind_eq_ok.1 h
    obtain ⟨hsame, hallocated⟩ := allocateChannel_ok hallocate
    exact Or.inr ⟨hch, r, c, stRepo, hsame, hallocated, StateRepository.call_ok hcall,
      (Except.ok.inj h).symm⟩

theorem onClientGetChannel_ok {c : ClientPtr} {msg : GetChannel} {sent : List Reply}
    (h : onClientGetChannel notify c msg a = .ok (a', sent)) :
    ∃ a₁ ch stRepo, ensureChannel notify msg a = .ok a₁ ∧ a₁.channel? msg.tag = some ch ∧
      Called notify a₁.stRepo
        (.updateChannelParticipant msg.tag msg.clientId (participantUpdate ch msg)) stRepo ∧
      (a', sent) = holdReply ch (c, response ch msg)
        { a₁.modifyClient c (insert ch.tag) with stRepo := stRepo } := by
  obtain ⟨a₁, hensure, h⟩ := Fallible.bind_eq_ok.1 h
  split at h
  · contradiction
  · rename_i ch hch
    split at h
    · contradiction
    · obtain ⟨stRepo, hcall, h⟩ := Fallible.bind_eq_ok.1 h
      exact ⟨a₁, ch, stRepo, hensure, hch, StateRepository.call_ok hcall, (Except.ok.inj h).symm⟩

theorem checkRemoveChannel_ok {tag : Nat} (h : checkRemoveChannel notify a tag = .ok a') :
    a' = a ∨ (∀ cl ∈ a.clients, tag ∉ cl.channels) ∧
      ∃ stRepo, Called notify a.stRepo (.removeChannel tag) stRepo ∧ a' = { a with stRepo := stRepo } := by
  rw [checkRemoveChannel] at h
  split at h
  · exact Or.inl (Except.ok.inj h).symm
  · rename_i hany
    obtain ⟨stRepo, hcall, h⟩ := Fallible.bind_eq_ok.1 h
    exact Or.inr ⟨by simpa using hany, stRepo, StateRepository.call_ok hcall,
      (Except.ok.inj h).symm⟩

end Inversion

end Agent

end Mpitofino
