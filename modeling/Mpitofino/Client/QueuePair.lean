import Mathlib.Data.List.Intervals
import Mpitofino.Client.UserMemory
import Mpitofino.Dataplane.Headers

/-!
# The queue pair

What is around the loop of `allreduce` at a participant. The channel with its queue pair stays when a
call ends. The card takes the sends in order and cuts each into 64 packets. It puts the packets of a
message into the buffer of the oldest receive; a message of which a packet is missing is dropped. The
completions of the sends are polled in order, and those of the receives.
-/

namespace Mpitofino

namespace ClientLib

open Allreduce (bufSize nextPos)

/-- A request on the queue pair, with the number of the call that posted it. -/
abbrev Posted := Nat × WorkRequest

/-- A call of `allreduce`, at the head of its loop or before it polls. -/
structure Running where
  call : Allreduce
  /-- The memory when it was called. -/
  input : Memory
  loop : Loop
  polls : Bool

/-- How many messages a call sends. -/
def Allreduce.messages (c : Allreduce) : Nat := (c.size + (chunkSize - 1)) / chunkSize

/-- A participant: the call that is running, the queues of the queue pair, the PSN with which the current
message goes on, how many calls there were and how many messages they posted, and how many packets were
sent and received. -/
structure Host where
  running : Option Running
  recvs : List Posted
  sends : List Posted
  completions : List Posted
  expected : Option IbPsn
  calls : Nat
  due : Nat
  sent : Nat
  received : Nat

namespace Host

def start : Host := ⟨none, [], [], [], none, 0, 0, 0, 0⟩

def readPacket (addr j : Nat) (mem : Memory) : AggregateH := fun w =>
  swapBytes (mem (wordAt addr (64 * j + w.val)))

def writePacket (addr j : Nat) (words : AggregateH) (mem : Memory) : Memory := fun a =>
  if h : wordAt addr (64 * j) ≤ a ∧ a < wordAt addr (64 * j) + 64 then
    swapBytes (words ⟨a - wordAt addr (64 * j), Nat.sub_lt_left_of_lt_add h.1 h.2⟩)
  else mem a

/-- The memory of the process is that of the call that is running. Between calls it is not followed. -/
def modifyMem (f : Memory → Memory) (h : Host) : Host :=
  { h with running := h.running.map fun r => { r with loop := { r.loop with mem := f r.loop.mem } } }

def directed (d : Direction) (ws : List Posted) : List Posted := ws.filter fun w => w.2.direction = d

/-- Requests are posted by the call that is running. -/
def post (h : Host) (posted : List WorkRequest) : Host :=
  { h with
    recvs := h.recvs ++ directed .recv (posted.map (h.calls, ·))
    sends := h.sends ++ directed .send (posted.map (h.calls, ·))
    due := h.due + (directed .send (posted.map (h.calls, ·))).length }

/-- The next packet of the first send is on the link. -/
def packetSent (h : Host) (w : Posted) (rest : List Posted) : Host :=
  if h.sent % 64 = 63 then
    { h with sends := rest, completions := h.completions ++ [w], sent := h.sent + 1 }
  else { h with sent := h.sent + 1 }

/-- A packet is put into the buffer of a receive. -/
def packetTaken (h : Host) (psn : IbPsn) (words : AggregateH) (w : Posted) (rest : List Posted) : Host :=
  let h := h.modifyMem (writePacket w.2.addr (psn.toNat % 64) words)
  if psn.toNat % 64 = 63 then
    { h with
      recvs := rest
      completions := h.completions ++ [w]
      expected := none
      received := h.received + 1 }
  else { h with expected := some (psn + 1), received := h.received + 1 }

def packetDropped (h : Host) : Host := { h with expected := none, received := h.received + 1 }

/-- A packet arrives. The first one of a message is taken if a receive is posted, and another one if
those before it were. -/
def packetReceived (h : Host) (psn : IbPsn) (words : AggregateH) : Host :=
  match h.recvs with
  | w :: rest =>
      if psn.toNat % 64 = 0 ∨ h.expected = some psn then h.packetTaken psn words w rest
      else h.packetDropped
  | [] => h.packetDropped

/-- The user calls `allreduce` and gets back from it; the loop fills an element of the ring and polls;
the card sends and receives packets. -/
inductive Event where
  | call (c : Allreduce) (mem : Memory)
  | fill
  | poll (polled : List Posted) (wcs : List Completion)
  | ret
  | transmit (words : AggregateH)
  | receive (psn : IbPsn) (words : AggregateH)

/-- Nothing fails. -/
inductive Step (h : Host) : Event → Host → Prop where
  | call {c : Allreduce} {mem : Memory} (hidle : h.running = none) :
      Step h (.call c mem)
        { h with
          running := some ⟨c, mem, c.start mem, false⟩
          calls := h.calls + 1 }
  | fill {c : Allreduce} {input : Memory} {t t' : Loop} {posted : List WorkRequest}
      (hrunning : h.running = some ⟨c, input, t, false⟩) (hcontinues : c.Continues t)
      (hfill : c.fill t = .ok (t', posted)) :
      Step h .fill { h.post posted with running := some ⟨c, input, t', true⟩ }
  | poll {c : Allreduce} {input : Memory} {t t' : Loop} {polled rest : List Posted}
      {wcs : List Completion} (hrunning : h.running = some ⟨c, input, t, true⟩)
      (hcompletions : ∀ d, directed d h.completions = directed d polled ++ directed d rest)
      (hbatch : wcs.length ≤ 2 * reqInFlight)
      (hcompletes : List.Forall₂ (fun w => Allreduce.Completes (w.2, ⟨0, 0⟩)) polled wcs)
      (hloop : wcs.foldlM (c.complete wcs.length) t = .ok t') :
      Step h (.poll polled wcs) { h with running := some ⟨c, input, t', false⟩, completions := rest }
  | ret {c : Allreduce} {input : Memory} {t : Loop}
      (hrunning : h.running = some ⟨c, input, t, false⟩) (hends : ¬ c.Continues t) :
      Step h .ret { h with running := none }
  | transmit {w : Posted} {rest : List Posted} {words : AggregateH} (hsends : h.sends = w :: rest)
      (hwords : ∀ r, h.running = some r → words = readPacket w.2.addr (h.sent % 64) r.loop.mem) :
      Step h (.transmit words) (h.packetSent w rest)
  | receive {psn : IbPsn} {words : AggregateH} :
      Step h (.receive psn words) (h.packetReceived psn words)

/-! ### What a packet changes -/

section Packets

variable (h : Host) (psn : IbPsn) (words : AggregateH) (w : Posted) (rest : List Posted)

@[simp] theorem packetSent_sent : (h.packetSent w rest).sent = h.sent + 1 := by
  rw [packetSent]
  split <;> rfl

@[simp] theorem packetSent_received : (h.packetSent w rest).received = h.received := by
  rw [packetSent]
  split <;> rfl

@[simp] theorem packetSent_expected : (h.packetSent w rest).expected = h.expected := by
  rw [packetSent]
  split <;> rfl

@[simp] theorem packetSent_running : (h.packetSent w rest).running = h.running := by
  rw [packetSent]
  split <;> rfl

@[simp] theorem packetSent_calls : (h.packetSent w rest).calls = h.calls := by
  rw [packetSent]
  split <;> rfl

@[simp] theorem packetTaken_sent : (h.packetTaken psn words w rest).sent = h.sent := by
  rw [packetTaken]
  split <;> rfl

@[simp] theorem packetTaken_received :
    (h.packetTaken psn words w rest).received = h.received + 1 := by
  rw [packetTaken]
  split <;> rfl

@[simp] theorem packetTaken_calls : (h.packetTaken psn words w rest).calls = h.calls := by
  rw [packetTaken]
  split <;> rfl

theorem packetTaken_running : (h.packetTaken psn words w rest).running =
    (h.modifyMem (writePacket w.2.addr (psn.toNat % 64) words)).running := by
  rw [packetTaken]
  split <;> rfl

theorem packetReceived_cases {P : Host → Prop} (htaken : ∀ w rest, P (h.packetTaken psn words w rest))
    (hdropped : P h.packetDropped) : P (h.packetReceived psn words) := by
  rw [packetReceived]
  split
  · split
    · exact htaken _ _
    · exact hdropped
  · exact hdropped

@[simp] theorem packetReceived_sent : (h.packetReceived psn words).sent = h.sent :=
  packetReceived_cases (P := fun h' => h'.sent = h.sent) h psn words (packetTaken_sent h psn words) rfl

@[simp] theorem packetReceived_received :
    (h.packetReceived psn words).received = h.received + 1 :=
  packetReceived_cases (P := fun h' => h'.received = h.received + 1) h psn words
    (packetTaken_received h psn words) rfl

@[simp] theorem packetReceived_calls : (h.packetReceived psn words).calls = h.calls :=
  packetReceived_cases (P := fun h' => h'.calls = h.calls) h psn words (packetTaken_calls h psn words) rfl

theorem packetReceived_running :
    (h.packetReceived psn words).running.map Running.call = h.running.map Running.call := by
  refine packetReceived_cases (P := fun h' => h'.running.map Running.call = _) h psn words
    (fun w rest => ?_) rfl
  rw [packetTaken_running, modifyMem, Option.map_map]
  rfl

end Packets

end Host

end ClientLib

end Mpitofino
