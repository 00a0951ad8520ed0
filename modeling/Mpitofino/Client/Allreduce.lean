import Mpitofino.Client.Endianness
import Mpitofino.Library.Fallible
import Mpitofino.Library.Run

/-!
# The loop of `allreduce`

`AggregationGroup::allreduce` of the client library, for the one datatype there is. A round of the loop
fills the next element of the ring if it is free, which posts a receive and a send for a chunk, and then
takes the completions that there are. The first element to be filled is the element 1.

The queue pair and the network card are around the loop: a request that was posted completes once, in
any order, and until then the card may write to the buffer of a receive.
-/

namespace Mpitofino

namespace ClientLib

def chunkSize : Nat := 16384

def reqInFlight : Nat := 4

/-- The arguments, with the buffer of the channel. The allocator gives it an alignment of 4096 and keeps
it apart from the user's buffers, which have room for `count` words. -/
structure Allreduce where
  sbuf : Nat
  dbuf : Nat
  count : Nat
  ibBuf : Nat
  aligned : ibBuf % 4096 = 0
  separate : dbuf + 4 * count ≤ ibBuf ∨ ibBuf + 2 * (reqInFlight * chunkSize) ≤ dbuf
  room : dbuf + 4 * count < 2 ^ 64

structure RingElem where
  status : BitVec 8 := 0
  recvBuf : Nat
  sendBuf : Nat
  offset : Nat := 0
  size : Nat := 0

/-- The variables of the loop, and the memory. -/
structure Loop where
  ring : Nat → RingElem
  sendPos : Nat := 0
  outstandingReqs : BitVec 64 := 0
  ringPos : Nat := 0
  mem : Memory

inductive Direction where
  | recv
  | send
  deriving DecidableEq

structure WorkRequest where
  direction : Direction
  wrId : Nat
  addr : Nat
  length : Nat
  deriving DecidableEq

/-- A word of the buffer of a request. -/
def WorkRequest.Covers (w : WorkRequest) (a : Nat) : Prop := w.addr ≤ 4 * a ∧ 4 * a < w.addr + w.length

structure Completion where
  wrId : Nat
  success : Bool
  byteLen : Nat

namespace Allreduce

variable (c : Allreduce)

def size : Nat := c.count * 4 % 2 ^ 64

def bufSize : Nat := chunkSize * reqInFlight

def start (mem : Memory) : Loop where
  ring i := { recvBuf := c.ibBuf + bufSize + i * chunkSize, sendBuf := c.ibBuf + i * chunkSize }
  mem := mem

def Continues (t : Loop) : Prop := t.sendPos < c.size ∨ 0 < t.outstandingReqs

instance (t : Loop) : Decidable (c.Continues t) := inferInstanceAs (Decidable (_ ∨ _))

/-- The requests for an element of the ring. -/
def requests (pos : Nat) (elem : RingElem) : List WorkRequest :=
  [⟨.recv, 0x100000000 + pos, elem.recvBuf, chunkSize⟩,
    ⟨.send, 0x200000000 + pos, elem.sendBuf, chunkSize⟩]

/-- Fill the next element, with the requests that are posted. -/
def fill (t : Loop) : Except String (Loop × List WorkRequest) :=
  if t.sendPos < c.size then
    let next := (t.ringPos + 1) % reqInFlight
    if (t.ring next).status = 0 then do
      let toSend := min chunkSize (c.size - t.sendPos)
      let elem := { t.ring next with status := 2, offset := t.sendPos, size := toSend }
      let mem ← convertEndianess32 (c.sbuf + t.sendPos) elem.sendBuf (toSend / 4) t.mem
      return ({
        ring := Function.update t.ring next elem
        sendPos := t.sendPos + toSend
        outstandingReqs := t.outstandingReqs + 2
        ringPos := next
        mem := mem }, requests next elem)
    else .ok (t, [])
  else .ok (t, [])

def finish (pos : Nat) (t : Loop) : Loop :=
  { t with
    ring := Function.update t.ring pos { t.ring pos with status := (t.ring pos).status - 1 }
    outstandingReqs := t.outstandingReqs - 1 }

/-- Process a completion, of the `ret` that were polled. -/
def complete (ret : Nat) (t : Loop) (wc : Completion) : Except String Loop :=
  if 0x200000000 ≤ wc.wrId then
    if wc.success = false then .error ("IB send failed: " ++ toString ret)
    else .ok (finish (wc.wrId - 0x200000000) t)
  else
    let pos := wc.wrId - 0x100000000
    if wc.success = false ∨ wc.byteLen ≠ chunkSize then .error ("IB recv failed: " ++ toString ret)
    else do
      let elem := t.ring pos
      let mem ← convertEndianess32 elem.recvBuf (c.dbuf + elem.offset) (elem.size / 4) t.mem
      return { finish pos t with mem := mem }

/-! ### Runs with the queue pair -/

structure Chunk where
  offset : Nat
  size : Nat
  deriving DecidableEq

/-- A posted request with the chunk it is for. -/
abbrev Request := WorkRequest × Chunk

/-- A result that is converted: where it was received, and where it goes to. -/
structure Conversion where
  source : Nat
  chunk : Chunk
  deriving DecidableEq

/-- The loop, the requests that are outstanding, the chunks that were posted, and the conversions of
results. -/
structure Run where
  loop : Loop
  outstanding : List Request
  chunks : List Chunk
  conversions : List Conversion

/-- What happens in a round: what the network card has made of the memory, the requests that are done,
and their completions. -/
structure Event where
  nic : Memory
  done : List Request
  wcs : List Completion

/-- The conversion that a completion leads to. -/
def conversion? (t : Loop) (wc : Completion) : Option Conversion :=
  if 0x200000000 ≤ wc.wrId then none
  else
    let elem := t.ring (wc.wrId - 0x100000000)
    some ⟨elem.recvBuf, ⟨elem.offset, elem.size⟩⟩

def chunkBetween (t filled : Loop) : Chunk := ⟨t.sendPos, filled.sendPos - t.sendPos⟩

def Completes (x : Request) (wc : Completion) : Prop :=
  wc.wrId = x.1.wrId ∧ wc.success = true ∧ (x.1.direction = .recv → wc.byteLen = chunkSize)

/-- A round of the loop. -/
structure Rounds (t : Run) (e : Event) (t' : Run) (filled : Loop) (posted : List WorkRequest) : Prop where
  continues : c.Continues t.loop
  fill : c.fill t.loop = .ok (filled, posted)
  /-- The card writes to the buffers of receives only. -/
  nic : ∀ a, e.nic a ≠ filled.mem a → ∃ x ∈ t.outstanding ++ posted.map (·, chunkBetween t.loop filled),
    x.1.direction = .recv ∧ x.1.Covers a
  done : (t.outstanding ++ posted.map (·, chunkBetween t.loop filled)).Perm (e.done ++ t'.outstanding)
  batch : e.wcs.length ≤ 2 * reqInFlight
  completes : List.Forall₂ Completes e.done e.wcs
  loop : e.wcs.foldlM (c.complete e.wcs.length) { filled with mem := e.nic } = .ok t'.loop
  chunks : t'.chunks = t.chunks ++ if posted = [] then [] else [chunkBetween t.loop filled]
  conversions : t'.conversions = t.conversions ++ e.wcs.filterMap (conversion? filled)

def Iterates (t : Run) (e : Event) (t' : Run) : Prop :=
  ∃ filled posted, c.Rounds t e t' filled posted

def Run.start (mem : Memory) : Run := ⟨c.start mem, [], [], []⟩

end Allreduce

end ClientLib

end Mpitofino
