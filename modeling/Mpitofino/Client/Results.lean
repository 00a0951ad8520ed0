import Mpitofino.Client.Reversal
import Mpitofino.Client.Window

/-!
# The results of a call

What the buffers of the channel and of the user hold while a call is running on a network that loses
nothing: inputs on their way out, results on their way in, and the results that were converted. A call
that returns has all of them.
-/

namespace Mpitofino

namespace ClientLib

open Allreduce (bufSize nextPos)

def chunkWords : Nat := 4096

def lane (i : Nat) : Fin 64 := ⟨i % 64, Nat.mod_lt _ (by decide)⟩

namespace Allreduce

section Buffers

variable (c : Allreduce)

/-- The first words of the buffers for the `j`-th message. -/
def sendSlot (j : Nat) : Nat := (c.ibBuf + nextPos j * chunkSize) / 4

def recvSlot (j : Nat) : Nat := (c.ibBuf + bufSize + nextPos j * chunkSize) / 4

def wordsAt (j : Nat) : Nat := min chunkSize (c.size - j * chunkSize) / 4

/-- The buffers of the user are apart from each other and from that of the channel. -/
structure Admissible : Prop where
  separate : Separate c.sbuf c.dbuf c.count
  apart : c.sbuf + 4 * c.count ≤ c.ibBuf ∨ c.ibBuf + 2 * (reqInFlight * chunkSize) ≤ c.sbuf

variable {c}

theorem lt_wordsAt {j x : Nat} : x < c.wordsAt j ↔ x < chunkWords ∧ chunkWords * j + x < c.count := by
  rw [wordsAt, size_eq, chunkSize, chunkWords]
  omega

theorem wordsAt_le {j : Nat} (hmore : j * chunkSize < c.size) : c.wordsAt j ≤ chunkWords ∧
    chunkWords * j < c.count ∧ chunkWords * j + c.wordsAt j ≤ c.count := by
  rw [wordsAt, chunkWords]
  rw [size_eq] at hmore ⊢
  rw [chunkSize] at hmore ⊢
  omega

end Buffers

/-! ### Conversions -/

section Conversions

variable {c : Allreduce} {j : Nat} {mem mem' : Memory}

theorem aligned_of_ok {src dst count : Nat} (h : convertEndianess32 src dst count mem = .ok mem') :
    src % 4 = 0 ∧ dst % 4 = 0 := by
  rw [convertEndianess32] at h
  split at h
  · contradiction
  · omega

theorem fill_written (hc : c.Admissible) (hmore : j * chunkSize < c.size)
    (h : convertEndianess32 (c.sbuf + j * chunkSize) (c.ibBuf + nextPos j * chunkSize) (c.wordsAt j) mem
      = .ok mem') :
    (∀ x < c.wordsAt j, mem' (c.sendSlot j + x) = swapBytes (mem (c.sbuf / 4 + (chunkWords * j + x)))) ∧
      ∀ a, a < c.sendSlot j ∨ c.sendSlot j + chunkWords ≤ a → mem' a = mem a := by
  obtain ⟨hsrc, hdst⟩ := aligned_of_ok h
  have haligned := c.aligned
  have hslot := nextPos_lt j
  have hapart := hc.apart
  have hwords := wordsAt_le hmore
  rw [chunkWords] at hwords ⊢
  rw [reqInFlight] at hslot
  rw [chunkSize, reqInFlight] at hapart
  have hseparate : Separate (c.sbuf + j * chunkSize) (c.ibBuf + nextPos j * chunkSize) (c.wordsAt j) := by
    rw [Separate, chunkSize]
    omega
  have hclear : Clear (c.sbuf + j * chunkSize) (c.ibBuf + nextPos j * chunkSize) (c.wordsAt j) := by
    right
    rw [chunkSize]
    omega
  have hwritten := convertEndianess32_written hsrc hdst hseparate hclear h
  have hreach : c.ibBuf + nextPos j * chunkSize + 4 * reach (c.ibBuf + nextPos j * chunkSize) (c.wordsAt j)
      ≤ c.ibBuf + nextPos j * chunkSize + 16384 :=
    add_reach_le hdst (by omega) (Or.inl (by rw [chunkSize]; omega))
  constructor
  · intro x hx
    have hvalue := hwritten.done x (hx.trans_le count_le_reach) hx
    rw [wordAt, wordAt] at hvalue
    rw [sendSlot, hvalue, chunkSize]
    congr 2
    omega
  · intro a ha
    refine hwritten.kept a ?_
    rw [sendSlot] at ha
    omega

/-- The results of a message are in their place, with their bytes reversed. Only the words up to the next
boundary after them may change as well. -/
theorem result_written (hmore : j * chunkSize < c.size)
    (h : convertEndianess32 (c.ibBuf + bufSize + nextPos j * chunkSize) (c.dbuf + j * chunkSize)
      (c.wordsAt j) mem = .ok mem') :
    (∀ x < c.wordsAt j, mem' (c.dbuf / 4 + (chunkWords * j + x)) = swapBytes (mem (c.recvSlot j + x))) ∧
      (∀ a, a < c.dbuf / 4 + chunkWords * j ∨
        c.dbuf / 4 + (chunkWords * j + c.wordsAt j) + 8 ≤ a → mem' a = mem a) ∧
      ∀ a, c.ibBuf ≤ 4 * a → 4 * a < c.ibBuf + 2 * (reqInFlight * chunkSize) → mem' a = mem a := by
  obtain ⟨hsrc, hdst⟩ := aligned_of_ok h
  have haligned := c.aligned
  have hslot := nextPos_lt j
  have hapart := c.separate
  have hwords := wordsAt_le hmore
  rw [chunkWords] at hwords ⊢
  rw [reqInFlight] at hslot
  rw [chunkSize, reqInFlight] at hapart ⊢
  have hseparate : Separate (c.ibBuf + bufSize + nextPos j * chunkSize) (c.dbuf + j * chunkSize)
      (c.wordsAt j) := by
    rw [Separate, bufSize, chunkSize, reqInFlight]
    omega
  have hclear : Clear (c.ibBuf + bufSize + nextPos j * chunkSize) (c.dbuf + j * chunkSize)
      (c.wordsAt j) := by
    right
    rw [bufSize, chunkSize, reqInFlight]
    omega
  have hwritten := convertEndianess32_written hsrc hdst hseparate hclear h
  have hlt : reach (c.dbuf + j * chunkSize) (c.wordsAt j) < c.wordsAt j + 8 := reach_lt
  refine ⟨fun x hx => ?_, fun a ha => hwritten.kept a ?_, fun a hlow hhigh => hwritten.kept a ?_⟩
  · have hvalue := hwritten.done x (hx.trans_le count_le_reach) hx
    rw [wordAt, wordAt] at hvalue
    rw [recvSlot, ← hvalue, chunkSize]
    congr 1
    omega
  · rw [chunkSize] at hlt ⊢
    omega
  · rcases hapart with hbefore | hafter
    · have hreach : c.dbuf + j * chunkSize + 4 * reach (c.dbuf + j * chunkSize) (c.wordsAt j) ≤ c.ibBuf :=
        add_reach_le hdst (by rw [chunkSize]; omega) (Or.inl (by omega))
      rw [chunkSize] at hreach ⊢
      omega
    · rw [chunkSize]
      omega

end Conversions

/-! ### What the buffers hold -/

/-- The buffers of a call whose messages come after `base` others, when so many packets were received.
`value i` is the `i`-th result. -/
structure Holds (c : Allreduce) (input : Memory) (value : Nat → Value) (base received : Nat) (k : Marks)
    (mem : Memory) : Prop where
  unsent : ∀ i < c.count, chunkWords * k.posted ≤ i → mem (c.sbuf / 4 + i) = input (c.sbuf / 4 + i)
  sending : ∀ j x, k.sent ≤ j → j < k.posted → x < c.wordsAt j →
    mem (c.sendSlot j + x) = swapBytes (input (c.sbuf / 4 + (chunkWords * j + x)))
  received : ∀ j x, k.taken ≤ j → x < c.wordsAt j → 64 * (base + j) + x / 64 < received →
    mem (c.recvSlot j + x) = swapBytes (value (chunkWords * j + x))
  done : ∀ i < c.count, i < chunkWords * k.taken → mem (c.dbuf / 4 + i) = value i

section Steps

variable {c : Allreduce} {input mem mem' : Memory} {value : Nat → Value} {base received : Nat} {k : Marks}

theorem holds_start (c : Allreduce) (input : Memory) (value : Nat → Value) (base : Nat) :
    c.Holds input value base (64 * base) {} input where
  unsent _ _ _ := rfl
  sending _ _ _ hj := absurd hj (Nat.not_lt_zero _)
  received _ _ _ _ hreceived := absurd hreceived (by omega)
  done _ _ hi := absurd hi (Nat.not_lt_zero _)

theorem Holds.fill (h : c.Holds input value base received k mem) (hc : c.Admissible)
    (hwindow : k.posted < k.sent + reqInFlight) (hmore : k.posted * chunkSize < c.size)
    (hok : convertEndianess32 (c.sbuf + k.posted * chunkSize) (c.ibBuf + nextPos k.posted * chunkSize)
      (c.wordsAt k.posted) mem = .ok mem') :
    c.Holds input value base received { k with posted := k.posted + 1 } mem' := by
  obtain ⟨hvalue, hframe⟩ := fill_written hc hmore hok
  have haligned := c.aligned
  have hapart := hc.apart
  have hseparate := c.separate
  have hslot := nextPos_lt k.posted
  rw [chunkSize, reqInFlight] at hapart hseparate
  rw [reqInFlight] at hslot hwindow
  refine ⟨fun i hi hge => ?_, fun j x hj hlt hx => ?_, fun j x hj hx hreceived => ?_,
    fun i hi hlt => ?_⟩
  · rw [hframe]
    · refine h.unsent i hi ((Nat.mul_le_mul_left chunkWords (Nat.le_succ _)).trans hge)
    · rw [sendSlot, chunkSize, chunkWords]
      omega
  · by_cases heq : j = k.posted
    · subst heq
      rw [hvalue x hx, h.unsent _ (lt_wordsAt.1 hx).2 (Nat.le_add_right ..)]
    · have hne : nextPos j ≠ nextPos k.posted := by
        rw [nextPos, nextPos, reqInFlight]
        dsimp only at hj hlt
        omega
      rw [hframe]
      · exact h.sending j x hj (by dsimp only at hlt; omega) hx
      · have hlt' := (lt_wordsAt.1 hx).1
        rw [chunkWords] at hlt' ⊢
        rw [sendSlot, sendSlot, chunkSize]
        omega
  · rw [hframe]
    · exact h.received j x hj hx hreceived
    · rw [sendSlot, recvSlot, bufSize, chunkSize, chunkWords, reqInFlight]
      omega
  · rw [hframe]
    · exact h.done i hi hlt
    · rw [sendSlot, chunkSize, chunkWords]
      omega

theorem Holds.transmit {sent : Nat} (h : c.Holds input value base received k mem) (hle : k.sent ≤ sent) :
    c.Holds input value base received { k with sent := sent } mem :=
  ⟨h.unsent, fun j x hj => h.sending j x (hle.trans hj), h.received, h.done⟩

theorem Holds.acked {acked : Nat} (h : c.Holds input value base received k mem) :
    c.Holds input value base received { k with acked := acked } mem :=
  ⟨h.unsent, h.sending, h.received, h.done⟩

theorem Holds.taken (h : c.Holds input value base received k mem) (hc : c.Admissible)
    (hposted : k.taken < k.posted) (hmore : k.taken * chunkSize < c.size)
    (hreceived : 64 * (base + k.taken + 1) ≤ received)
    (hok : convertEndianess32 (c.ibBuf + bufSize + nextPos k.taken * chunkSize)
      (c.dbuf + k.taken * chunkSize) (c.wordsAt k.taken) mem = .ok mem') :
    c.Holds input value base received { k with taken := k.taken + 1 } mem' := by
  obtain ⟨hvalue, hframe, hchannel⟩ := result_written hmore hok
  have haligned := c.aligned
  have hapart := hc.apart
  have hseparate := hc.separate
  have hwords := wordsAt_le hmore
  rw [Separate] at hseparate
  rw [chunkSize, reqInFlight] at hapart hchannel
  rw [chunkWords] at hwords
  refine ⟨fun i hi hge => ?_, fun j x hj hlt hx => ?_, fun j x hj hx hin => ?_, fun i hi hlt => ?_⟩
  · rw [hframe]
    · exact h.unsent i hi hge
    · dsimp only at hge
      rw [chunkWords] at hge ⊢
      omega
  · have hslot := nextPos_lt j
    have hlt' := (lt_wordsAt.1 hx).1
    rw [chunkWords] at hlt'
    rw [reqInFlight] at hslot
    rw [hchannel]
    · exact h.sending j x hj hlt hx
    · rw [sendSlot, chunkSize]
      omega
    · rw [sendSlot, chunkSize]
      omega
  · have hslot := nextPos_lt j
    have hlt' := (lt_wordsAt.1 hx).1
    rw [chunkWords] at hlt'
    rw [reqInFlight] at hslot
    rw [hchannel]
    · exact h.received j x (Nat.le_of_succ_le hj) hx hin
    · rw [recvSlot, bufSize, chunkSize, reqInFlight]
      omega
    · rw [recvSlot, bufSize, chunkSize, reqInFlight]
      omega
  · by_cases hold : i < chunkWords * k.taken
    · rw [hframe]
      · exact h.done i hi hold
      · exact Or.inl (by omega)
    · obtain ⟨x, rfl⟩ := Nat.exists_eq_add_of_le (not_lt.1 hold)
      have hx : x < c.wordsAt k.taken := lt_wordsAt.2 ⟨by dsimp only at hlt; rw [chunkWords] at hlt ⊢; omega, hi⟩
      have hx' := (lt_wordsAt.1 hx).1
      rw [hvalue x hx, h.received k.taken x (Nat.le_refl _) hx, swapBytes_swapBytes]
      rw [chunkWords] at hx'
      omega

theorem Holds.packet {p : Nat} (words : AggregateH) (h : c.Holds input value base received k mem)
    (hc : c.Admissible) (hp : p < 64) (hreceived : 64 * (base + k.filled) + p = received)
    (hwindow : k.filled < k.taken + reqInFlight)
    (hwords : ∀ w : Fin 64, chunkWords * k.filled + (64 * p + w.val) < c.count →
      words w = value (chunkWords * k.filled + (64 * p + w.val))) :
    c.Holds input value base (received + 1) k
      (Host.writePacket (c.ibBuf + bufSize + nextPos k.filled * chunkSize) p words mem) := by
  have haligned := c.aligned
  have hapart := hc.apart
  have hseparate := c.separate
  have hslot := nextPos_lt k.filled
  rw [chunkSize, reqInFlight] at hapart hseparate
  rw [reqInFlight] at hslot hwindow
  have hframe : ∀ a, a < c.recvSlot k.filled + 64 * p ∨ c.recvSlot k.filled + 64 * p + 64 ≤ a →
      Host.writePacket (c.ibBuf + bufSize + nextPos k.filled * chunkSize) p words mem a = mem a := by
    intro a ha
    rw [Host.writePacket, dif_neg]
    rw [wordAt, ← recvSlot]
    omega
  have hchannel : ∀ a, 4 * a < c.ibBuf + 65536 ∨ c.ibBuf + 131072 ≤ 4 * a →
      Host.writePacket (c.ibBuf + bufSize + nextPos k.filled * chunkSize) p words mem a = mem a := by
    intro a ha
    apply hframe
    rw [recvSlot, bufSize, chunkSize, reqInFlight]
    omega
  refine ⟨fun i hi hge => ?_, fun j x hj hlt hx => ?_, fun j x hj hx hin => ?_, fun i hi hlt => ?_⟩
  · rw [hchannel _ (by omega)]
    exact h.unsent i hi hge
  · have hlt' := (lt_wordsAt.1 hx).1
    have hslot' := nextPos_lt j
    rw [chunkWords] at hlt'
    rw [reqInFlight] at hslot'
    rw [hchannel _ (by rw [sendSlot, chunkSize]; omega)]
    exact h.sending j x hj hlt hx
  · obtain ⟨hx', hcount⟩ := lt_wordsAt.1 hx
    rw [chunkWords] at hx'
    by_cases hold : 64 * (base + j) + x / 64 < received
    · rw [hframe]
      · exact h.received j x hj hx hold
      · by_cases heq : j = k.filled
        · subst heq
          omega
        · have hne : nextPos j ≠ nextPos k.filled := by
            rw [nextPos, nextPos, reqInFlight]
            omega
          rw [recvSlot, recvSlot, bufSize, chunkSize, reqInFlight]
          omega
    · obtain rfl : j = k.filled := by omega
      have hx64 : x / 64 = p := by omega
      have hin : wordAt (c.ibBuf + bufSize + nextPos k.filled * chunkSize) (64 * p) ≤ c.recvSlot k.filled + x ∧
          c.recvSlot k.filled + x < wordAt (c.ibBuf + bufSize + nextPos k.filled * chunkSize) (64 * p) + 64 := by
        rw [wordAt, ← recvSlot]
        omega
      have hindex : chunkWords * k.filled + (64 * p + (c.recvSlot k.filled + x -
          wordAt (c.ibBuf + bufSize + nextPos k.filled * chunkSize) (64 * p))) = chunkWords * k.filled + x := by
        rw [wordAt, ← recvSlot]
        omega
      rw [Host.writePacket, dif_pos hin, hwords _ (by rw [hindex]; exact hcount), hindex]
  · rw [hchannel _ (by omega)]
    exact h.done i hi hlt

end Steps

end Allreduce

/-! ### A participant on its network -/

namespace Host

/-- The network gives back each packet in order, after it was sent, with what the others add to it. -/
def Network (sentWords others : Nat → AggregateH) (h : Host) : Event → Prop
  | .transmit words => words = sentWords h.sent
  | .receive psn words => h.received < h.sent ∧ psn = BitVec.ofNat 24 h.received ∧
      words = sentWords h.received + others h.received
  | _ => True

def result (others : Nat → AggregateH) (base : Nat) (r : Running) (i : Nat) : Value :=
  r.input (r.call.sbuf / 4 + i) + others (64 * base + i / 64) (lane i)

/-- No message of the calls so far is on its way. -/
structure Rests (h : Host) : Prop where
  idle : Idle h
  sent : h.sent = 64 * h.due
  received : h.received = 64 * h.due
  expected : h.expected = none

/-- A call is running, and everything is where it belongs. -/
structure Serves (sentWords others : Nat → AggregateH) (h : Host) (base : Nat) (k : Marks) (r : Running) :
    Prop where
  inCall : InCall h base k r
  admissible : r.call.Admissible
  received : h.received / 64 = base + k.filled
  received_le : h.received ≤ h.sent
  expected : h.expected = if h.received % 64 = 0 then none else some (BitVec.ofNat 24 h.received)
  recorded : ∀ i < r.call.count, 64 * base + i / 64 < h.sent →
    sentWords (64 * base + i / 64) (lane i) = r.input (r.call.sbuf / 4 + i)
  holds : r.call.Holds r.input (result others base r) base h.received k r.loop.mem

section Steps

variable {sentWords others : Nat → AggregateH} {h h' : Host} {base : Nat} {k : Marks} {r : Running}
  {c : Allreduce} {input : Memory} {t t' : Loop}

theorem rests_start : Rests start := ⟨idle_start, rfl, rfl, rfl⟩

theorem Rests.call (hh : Rests h) (hc : c.Admissible) (mem : Memory) :
    Serves sentWords others { h with
        running := some ⟨c, mem, c.start mem, false⟩
        calls := h.calls + 1 } h.due {} ⟨c, mem, c.start mem, false⟩ where
  inCall := hh.idle.call c mem
  admissible := hc
  received := by
    dsimp only
    rw [hh.received]
    omega
  received_le := by
    dsimp only
    rw [hh.received, hh.sent]
  expected := by
    dsimp only
    rw [hh.expected, if_pos (by rw [hh.received]; omega)]
  recorded i _ hlt := by
    dsimp only at hlt
    rw [hh.sent] at hlt
    omega
  holds := by
    dsimp only
    rw [hh.received]
    exact Allreduce.holds_start c mem _ h.due

theorem Serves.congr {sentWords' others' : Nat → AggregateH} (hh : Serves sentWords others h base k r)
    (hsent : ∀ seq < h.sent, sentWords' seq = sentWords seq)
    (hothers : ∀ seq < h.received, others' seq = others seq) : Serves sentWords' others' h base k r where
  inCall := hh.inCall
  admissible := hh.admissible
  received := hh.received
  received_le := hh.received_le
  expected := hh.expected
  recorded i hi hlt := by
    rw [hsent _ hlt]
    exact hh.recorded i hi hlt
  holds := by
    have hresult : ∀ i, 64 * base + i / 64 < h.received → result others' base r i = result others base r i :=
      fun i hlt => by rw [result, hothers _ hlt, result]
    refine ⟨hh.holds.unsent, hh.holds.sending, fun j x hj hx hlt => ?_, fun i hi hlt => ?_⟩
    · rw [hresult, hh.holds.received j x hj hx hlt]
      rw [chunkWords]
      omega
    · rw [hresult, hh.holds.done i hi hlt]
      have hreceived := hh.received
      have horder := hh.inCall.queued.recvOrder.1
      rw [chunkWords] at hlt
      omega

theorem Serves.fill (hh : Serves sentWords others h base k ⟨c, input, t, false⟩)
    {posted : List WorkRequest} (hfill : c.fill t = .ok (t', posted)) :
    ∃ k', Serves sentWords others { h.post posted with running := some ⟨c, input, t', true⟩ } base k'
      ⟨c, input, t', true⟩ := by
  obtain ⟨next, hinCall, hnext⟩ := hh.inCall.fill hfill
  refine ⟨_, hinCall, hh.admissible, hh.received, hh.received_le, hh.expected, hh.recorded, ?_⟩
  rcases hnext with ⟨rfl, hmem⟩ | ⟨rfl, hmore, hwindow, hconvert⟩
  · dsimp only
    rw [hmem]
    exact hh.holds
  · exact hh.holds.fill hh.admissible hwindow hmore hconvert

theorem Serves.poll (hh : Serves sentWords others h base k ⟨c, input, t, true⟩)
    {polled rest : List Posted} {wcs : List Completion}
    (hcompletions : ∀ d, directed d h.completions = directed d polled ++ directed d rest)
    (hcompletes : List.Forall₂ (fun w => Allreduce.Completes (w.2, ⟨0, 0⟩)) polled wcs)
    (hok : wcs.foldlM (c.complete wcs.length) t = .ok t') :
    ∃ k', Serves sentWords others { h with running := some ⟨c, input, t', false⟩, completions := rest }
      base k' ⟨c, input, t', false⟩ := by
  have hreceived := hh.received
  obtain ⟨taken, acked, hinCall, hholds⟩ := hh.inCall.poll (P := fun k' mem =>
      k'.filled = k.filled ∧ k'.posted = k.posted ∧
        c.Holds input (result others base ⟨c, input, t, true⟩) base h.received k' mem)
    hcompletions hcompletes hok ⟨rfl, rfl, hh.holds⟩
    (by
      rintro k' mem mem' hlt hle hconvert ⟨hfilled, hposted, hholds⟩
      refine ⟨hfilled, hposted, hholds.taken hh.admissible (hlt.trans_le hle) ?_ ?_ hconvert⟩
      · have hposted_lt := hh.inCall.loop.posted_lt
        dsimp only at hposted_lt
        rw [← hposted] at hposted_lt
        have hstep : (k'.taken + 1) * chunkSize ≤ k'.posted * chunkSize :=
          Nat.mul_le_mul_right _ (hlt.trans_le hle)
        rw [Nat.succ_mul] at hstep
        omega
      · rw [hfilled] at hlt
        omega)
    (by
      rintro k' mem ⟨hfilled, hposted, hholds⟩
      exact ⟨hfilled, hposted, hholds.acked⟩)
  exact ⟨_, hinCall, hh.admissible, hh.received, hh.received_le, hh.expected, hh.recorded, hholds.2.2⟩

theorem Serves.ret (hh : Serves sentWords others h base k ⟨c, input, t, false⟩) (hends : ¬ c.Continues t) :
    Rests { h with running := none } ∧ ∀ i < c.count,
      t.mem (c.dbuf / 4 + i) = result others base ⟨c, input, t, false⟩ i := by
  obtain ⟨hidle, htaken, hsize⟩ := hh.inCall.ret hends
  have hposted := hh.inCall.loop.posted_eq hsize
  have hdue := hh.inCall.due
  have horder := hh.inCall.queued.recvOrder
  have hcounts := hh.inCall.counts
  have hsent := hcounts.sent
  have hreceived := hh.received
  have hreceived_le := hh.received_le
  have hsent_le := hcounts.sent_le
  dsimp only at hposted hdue
  have hsentAll : h.sent = 64 * h.due := by
    have hcounts' := hidle.counts.sent
    change h.sent / 64 = h.due + 0 at hcounts'
    omega
  have hreceivedAll : h.received = 64 * h.due := by omega
  refine ⟨⟨hidle, hsentAll, hreceivedAll, ?_⟩, fun i hi => hh.holds.done i hi ?_⟩
  · change h.expected = none
    rw [hh.expected, if_pos (by omega)]
  · rw [Allreduce.size_eq, chunkSize] at hsize
    rw [chunkWords]
    omega

theorem Serves.transmit (hh : Serves sentWords others h base k r) {w : Posted} {rest : List Posted}
    (hsends : h.sends = w :: rest)
    (hwords : readPacket w.2.addr (h.sent % 64) r.loop.mem = sentWords h.sent) :
    ∃ k', Serves sentWords others (h.packetSent w rest) base k' r := by
  obtain ⟨rfl, hlt, hinCall⟩ := hh.inCall.transmit hsends
  have hsent := hh.inCall.counts.sent
  refine ⟨_, hinCall, hh.admissible, ?_, ?_, ?_, fun i hi hless => ?_, ?_⟩
  · rw [packetSent_received]
    exact hh.received
  · rw [packetSent_received, packetSent_sent]
    exact hh.received_le.trans (Nat.le_succ _)
  · rw [packetSent_received, packetSent_expected]
    exact hh.expected
  · rw [packetSent_sent] at hless
    by_cases hold : 64 * base + i / 64 < h.sent
    · exact hh.recorded i hi hold
    · -- the packet has these words of the message
      have hpacket : 64 * base + i / 64 = h.sent := by omega
      have hx : i - chunkWords * k.sent < r.call.wordsAt k.sent := by
        rw [Allreduce.lt_wordsAt, chunkWords]
        omega
      have hsending := hh.holds.sending k.sent (i - chunkWords * k.sent) (Nat.le_refl _) hlt hx
      have hindex : chunkWords * k.sent + (i - chunkWords * k.sent) = i := by
        rw [chunkWords]
        omega
      rw [hindex] at hsending
      have hplace : wordAt (r.call.sendRequest k.sent).addr (64 * (h.sent % 64) + (lane i).val) =
          r.call.sendSlot k.sent + (i - chunkWords * k.sent) := by
        change r.call.sendSlot k.sent + (64 * (h.sent % 64) + i % 64) = _
        rw [chunkWords]
        omega
      rw [hpacket, ← hwords, readPacket]
      dsimp only
      rw [hplace, hsending, swapBytes_swapBytes]
  · rw [packetSent_received]
    refine hh.holds.transmit ?_
    omega

theorem toNat_psn_mod (received : Nat) : (BitVec.ofNat 24 received).toNat % 64 = received % 64 := by
  rw [BitVec.toNat_ofNat]
  omega

theorem expected_packetTaken (h : Host) (words : AggregateH) (w : Posted) (rest : List Posted) :
    (h.packetTaken (BitVec.ofNat 24 h.received) words w rest).expected =
      if (h.received + 1) % 64 = 0 then none else some (BitVec.ofNat 24 (h.received + 1)) := by
  rw [packetTaken, toNat_psn_mod]
  split
  · rw [if_pos (by omega)]
  · rw [if_neg (by omega), BitVec.ofNat_add]
    rfl

theorem Serves.next (hh : Serves sentWords others h base k r) :
    (BitVec.ofNat 24 h.received).toNat % 64 = 0 ∨ h.expected = some (BitVec.ofNat 24 h.received) := by
  rw [toNat_psn_mod, hh.expected]
  by_cases hfirst : h.received % 64 = 0
  · exact Or.inl hfirst
  · exact Or.inr (if_neg hfirst)

theorem Serves.packet_words (hh : Serves sentWords others h base k r) (hlt : h.received < h.sent)
    (w : Fin 64) (hw : chunkWords * k.filled + (64 * (h.received % 64) + w.val) < r.call.count) :
    (sentWords h.received + others h.received) w =
      result others base r (chunkWords * k.filled + (64 * (h.received % 64) + w.val)) := by
  have hreceived := hh.received
  have hlt64 := w.isLt
  rw [chunkWords] at hw ⊢
  have hindex : 64 * base + (4096 * k.filled + (64 * (h.received % 64) + w.val)) / 64 = h.received := by
    omega
  have hword : lane (4096 * k.filled + (64 * (h.received % 64) + w.val)) = w := by
    refine Fin.ext ?_
    change (4096 * k.filled + (64 * (h.received % 64) + w.val)) % 64 = w.val
    omega
  have hrecorded := hh.recorded _ hw (by rw [hindex]; exact hlt)
  simp only [hindex, hword] at hrecorded
  simp only [result, hindex, hword]
  rw [← hrecorded]
  rfl

theorem Serves.receive (hh : Serves sentWords others h base k r) (hlt : h.received < h.sent) :
    ∃ k' mem, Serves sentWords others
      (h.packetReceived (BitVec.ofNat 24 h.received) (sentWords h.received + others h.received)) base k'
      { r with loop := { r.loop with mem := mem } } := by
  have hreceived := hh.received
  have hsent_le := hh.inCall.counts.sent_le
  have hwindow := hh.inCall.loop.recvWindow.2
  have hqueue := hh.inCall.queued.recvs
  have hfilled : k.filled < k.posted := by omega
  rw [List.Ico.eq_cons hfilled, List.map_cons] at hqueue
  obtain ⟨-, -, hinCall⟩ := hh.inCall.taken (sentWords h.received + others h.received) hqueue hh.next
  rw [toNat_psn_mod] at hinCall
  have hstate : h.packetReceived (BitVec.ofNat 24 h.received) (sentWords h.received + others h.received) =
      h.packetTaken (BitVec.ofNat 24 h.received) (sentWords h.received + others h.received)
        (h.calls, r.call.recvRequest k.filled)
        ((List.Ico (k.filled + 1) k.posted).map fun i => (h.calls, r.call.recvRequest i)) := by
    rw [packetReceived, hqueue]
    exact if_pos hh.next
  rw [hstate]
  refine ⟨_, _, hinCall, hh.admissible, ?_, ?_, ?_, ?_, ?_⟩
  · rw [packetTaken_received]
    change (h.received + 1) / 64 = base + (k.filled + (h.received % 64 + 1) / 64)
    omega
  · rw [packetTaken_received, packetTaken_sent]
    exact hlt
  · rw [packetTaken_received, expected_packetTaken]
  · rw [packetTaken_sent]
    exact hh.recorded
  · rw [packetTaken_received]
    have hpacket := hh.holds.packet (sentWords h.received + others h.received) hh.admissible
      (Nat.mod_lt h.received (by decide : 0 < 64)) (by omega) (hfilled.trans_le hwindow)
      (hh.packet_words hlt)
    exact ⟨hpacket.unsent, hpacket.sending, hpacket.received, hpacket.done⟩

end Steps

end Host

end ClientLib

end Mpitofino
