import Mpitofino.Control.Agent
import Mpitofino.Library.Run

/-!
# The node daemon

`NodeDaemon` of `node_daemon`: local clients ask it for channels, it asks the switch daemon, and it
forwards the responses. A client has the channels it asked for with its local QPs, and an entry for
each response it waits for. A channel that no client uses any more is given back.

As in the agent a client is known by the pointer to its `Client`. The connection to the switch daemon
is there from the moment the nearest switch is known, and an exception ends the daemon.
-/

namespace Mpitofino

namespace NodeDaemon

/-- The message of a local client. `type` is left out, nothing here reads it. -/
structure GetChannel where
  aggGroupClientIds : List Nat
  clientId : Nat
  tag : Nat
  localQp : IbQp

structure GetChannelResponse where
  fabricIp : IPv4Addr := 0
  fabricQp : IbQp := 0
  deriving DecidableEq

structure Client where
  ptr : ClientPtr
  channels : OrderedMap Nat IbQp := OrderedMap.empty
  pendingGetChannelResponses : FinTable (Nat × Nat) GetChannelResponse := FinTable.empty

/-- The messages to the switch daemon. -/
inductive NdRequest where
  | getChannel (msg : Mpitofino.GetChannel)
  | unrefChannel (tag : Nat)

abbrev Reply := ClientPtr × GetChannelResponse

end NodeDaemon

structure NodeDaemon where
  hpnNodeAddr : IPv4Addr
  hpnNodeMac : MacAddr
  /-- 0 as long as the switch is not known. -/
  nearestSwitchIp : IPv4Addr
  switchPort : Nat
  clients : List NodeDaemon.Client
  nextPtr : ClientPtr

namespace NodeDaemon

def initial (hpnNodeAddr : IPv4Addr) (hpnNodeMac : MacAddr) : NodeDaemon :=
  ⟨hpnNodeAddr, hpnNodeMac, 0, 0, [], 0⟩

/-- What the daemon is after an event, and what it has sent. -/
structure Handled where
  daemon : NodeDaemon
  toSwitch : List NdRequest := []
  toClients : List Reply := []

def modifyClient (nd : NodeDaemon) (c : ClientPtr) (f : Client → Client) : NodeDaemon :=
  { nd with clients := nd.clients.map fun cl => if cl.ptr = c then f cl else cl }

def onClientConn (nd : NodeDaemon) : NodeDaemon :=
  { nd with clients := nd.clients ++ [{ ptr := nd.nextPtr }], nextPtr := nd.nextPtr + 1 }

/-- The request to the switch that a client's request becomes. -/
def switchRequest (nd : NodeDaemon) (msg : GetChannel) : Mpitofino.GetChannel where
  aggGroupClientIds := msg.aggGroupClientIds
  clientId := msg.clientId
  tag := msg.tag
  clientQp := msg.localQp
  clientIp := nd.hpnNodeAddr
  clientMac := nd.hpnNodeMac
  switchPort := nd.switchPort

/-- The client has the channel, and waits for a response unless it does already. -/
def Client.request (msg : GetChannel) (cl : Client) : Client :=
  { cl with
    channels := cl.channels.insert msg.tag msg.localQp
    pendingGetChannelResponses :=
      (cl.pendingGetChannelResponses.add? (msg.clientId, msg.tag) {}).getD
        cl.pendingGetChannelResponses }

def onClientGetChannel (c : ClientPtr) (msg : GetChannel) (nd : NodeDaemon) : Handled :=
  if nd.nearestSwitchIp = 0 then { daemon := nd }
  else {
    daemon := nd.modifyClient c (Client.request msg)
    toSwitch := [.getChannel (nd.switchRequest msg)] }

/-- How many clients but this one use a channel. -/
def users (nd : NodeDaemon) (c : ClientPtr) (tag : Nat) : Nat :=
  ((nd.clients.filter fun cl => cl.ptr ≠ c).filter fun cl => (cl.channels.find? tag).isSome).length

def channelsOf (nd : NodeDaemon) (c : ClientPtr) : List Nat :=
  ((nd.clients.find? fun cl => cl.ptr = c).map fun cl => cl.channels.entries.map Prod.fst).getD []

/-- `on_client_fd` once the client has gone. -/
def onClientGone (c : ClientPtr) (nd : NodeDaemon) : Handled where
  daemon := { nd with clients := nd.clients.filter fun cl => cl.ptr ≠ c }
  toSwitch := ((nd.channelsOf c).filter fun tag => nd.users c tag = 0).map .unrefChannel

def onTdp (ctrlIp : IPv4Addr) (port : Nat) (nd : NodeDaemon) : Except String NodeDaemon :=
  if nd.nearestSwitchIp = ctrlIp then .ok nd
  else if nd.nearestSwitchIp ≠ 0 then .error "Nearest switch changed; this is not supported yet."
  else .ok { nd with switchPort := port, nearestSwitchIp := ctrlIp }

/-- Complete the first entry for a response, which stays, and send it to its client. -/
def answer (resp : Mpitofino.GetChannelResponse) : List Client → List Client × List Reply
  | [] => ([], [])
  | cl :: cls =>
      let reply := ⟨resp.fabricIp, resp.fabricQp⟩
      match cl.pendingGetChannelResponses.modify? (resp.clientId, resp.tag) reply with
      | some pending =>
          ({ cl with pendingGetChannelResponses := pending } :: cls, [(cl.ptr, reply)])
      | none => (cl :: (answer resp cls).1, (answer resp cls).2)

def onSwitchFd (resp : Mpitofino.GetChannelResponse) (nd : NodeDaemon) : Handled where
  daemon := { nd with clients := (answer resp nd.clients).1 }
  toClients := (answer resp nd.clients).2

inductive Event where
  | clientConn
  | clientGetChannel (c : ClientPtr) (msg : GetChannel)
  | clientGone (c : ClientPtr)
  | tdp (ctrlIp : IPv4Addr) (port : Nat)
  | switchResponse (resp : Mpitofino.GetChannelResponse)

def handle (nd : NodeDaemon) : Event → Except String Handled
  | .clientConn => .ok { daemon := nd.onClientConn }
  | .clientGetChannel c msg => .ok (onClientGetChannel c msg nd)
  | .clientGone c => .ok (onClientGone c nd)
  | .tdp ctrlIp port => do
      let nd ← onTdp ctrlIp port nd
      return { daemon := nd }
  | .switchResponse resp => .ok (onSwitchFd resp nd)

def Connected (nd : NodeDaemon) (c : ClientPtr) : Prop := c ∈ nd.clients.map Client.ptr

instance (nd : NodeDaemon) (c : ClientPtr) : Decidable (nd.Connected c) :=
  inferInstanceAs (Decidable (_ ∈ _))

/-- Whether the event can come in: its client is connected, and a response comes from a switch. -/
def Possible (nd : NodeDaemon) : Event → Prop
  | .clientConn => True
  | .clientGetChannel c _ => nd.Connected c
  | .clientGone c => nd.Connected c
  | .tdp _ _ => True
  | .switchResponse _ => nd.nearestSwitchIp ≠ 0

instance (nd : NodeDaemon) : ∀ e, Decidable (nd.Possible e)
  | .clientConn => isTrue trivial
  | .clientGetChannel c _ => inferInstanceAs (Decidable (nd.Connected c))
  | .clientGone c => inferInstanceAs (Decidable (nd.Connected c))
  | .tdp _ _ => isTrue trivial
  | .switchResponse _ => inferInstanceAs (Decidable (_ ≠ _))

/-! ### Responses and the clients they are for -/

def Client.waits (pair : Nat × Nat) (cl : Client) : Bool :=
  (cl.pendingGetChannelResponses.lookup pair).isSome

/-- The first client with an entry for a client id and a tag. -/
def holder (nd : NodeDaemon) (pair : Nat × Nat) : Option Client := nd.clients.find? (Client.waits pair)

theorem Client.waits_iff {cl : Client} {pair : Nat × Nat} :
    pair ∈ cl.pendingGetChannelResponses.entries.map Prod.fst ↔ cl.waits pair = true := by
  rw [FinTable.mem_keys_iff, waits, Option.isSome_iff_exists]

theorem answer_snd (resp : Mpitofino.GetChannelResponse) (cls : List Client) :
    (answer resp cls).2 = ((cls.find? (Client.waits (resp.clientId, resp.tag))).map fun cl =>
      (cl.ptr, ⟨resp.fabricIp, resp.fabricQp⟩)).toList := by
  induction cls with
  | nil => rfl
  | cons cl cls ih =>
      rw [answer, FinTable.modify?]
      by_cases h : cl.waits (resp.clientId, resp.tag) = true
      · rw [if_pos (Client.waits_iff.2 h), List.find?_cons_of_pos h]
        rfl
      · rw [if_neg (mt Client.waits_iff.1 h), List.find?_cons_of_neg h]
        exact ih

theorem answer_fst (resp : Mpitofino.GetChannelResponse) (cls : List Client) :
    (answer resp cls).1.map (fun cl => (cl.ptr, cl.channels)) =
      cls.map fun cl => (cl.ptr, cl.channels) := by
  induction cls with
  | nil => rfl
  | cons cl cls ih =>
      rw [answer]
      split
      · rfl
      · exact congrArg ((cl.ptr, cl.channels) :: ·) ih

theorem onSwitchFd_toClients (nd : NodeDaemon) (resp : Mpitofino.GetChannelResponse) :
    (onSwitchFd resp nd).toClients = ((nd.holder (resp.clientId, resp.tag)).map fun cl =>
      (cl.ptr, ⟨resp.fabricIp, resp.fabricQp⟩)).toList :=
  answer_snd resp nd.clients

end NodeDaemon

end Mpitofino
