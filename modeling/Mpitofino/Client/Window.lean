import Mpitofino.Client.QueuePair

/-!
# The window of a participant

A call posts its chunks in order, and the queue pair goes through its requests in order. So a
participant sends no packet 256 numbers ahead of those it received, whatever is lost on the way to it.
-/

namespace Mpitofino

namespace ClientLib

/-- How far a call is: the chunks that were posted, that were received and converted, and that were sent
and whose sends are done. -/
structure Marks where
  posted : Nat := 0
  filled : Nat := 0
  taken : Nat := 0
  sent : Nat := 0
  acked : Nat := 0

namespace Allreduce

section Requests

variable (c : Allreduce)

def chunkAt (i : Nat) : Chunk := ⟨i * chunkSize, min chunkSize (c.size - i * chunkSize)⟩

def recvRequest (i : Nat) : WorkRequest :=
  ⟨.recv, 0x100000000 + nextPos i, c.ibBuf + bufSize + nextPos i * chunkSize, chunkSize⟩

def sendRequest (i : Nat) : WorkRequest :=
  ⟨.send, 0x200000000 + nextPos i, c.ibBuf + nextPos i * chunkSize, chunkSize⟩

def recvAt (i : Nat) : Request := (c.recvRequest i, c.chunkAt i)

def sendAt (i : Nat) : Request := (c.sendRequest i, c.chunkAt i)

def outstandingAt (k : Marks) : List Request :=
  (List.Ico k.taken k.posted).map c.recvAt ++ (List.Ico k.acked k.posted).map c.sendAt

structure Follows (t : Loop) (k : Marks) : Prop where
  sound : Sound c t (c.outstandingAt k)
  sendPos : t.sendPos = min (k.posted * chunkSize) c.size
  ringPos : t.ringPos = k.posted % reqInFlight
  posted_lt : k.posted * chunkSize < c.size + chunkSize
  recvWindow : k.taken ≤ k.posted ∧ k.posted ≤ k.taken + reqInFlight
  sendWindow : k.acked ≤ k.posted ∧ k.posted ≤ k.acked + reqInFlight

structure Queued (n : Nat) (k : Marks) (recvs sends completions : List Posted) : Prop where
  recvs : recvs = (List.Ico k.filled k.posted).map fun i => (n, c.recvRequest i)
  sends : sends = (List.Ico k.sent k.posted).map fun i => (n, c.sendRequest i)
  received : Host.directed .recv completions =
    (List.Ico k.taken k.filled).map fun i => (n, c.recvRequest i)
  done : Host.directed .send completions = (List.Ico k.acked k.sent).map fun i => (n, c.sendRequest i)
  recvOrder : k.taken ≤ k.filled ∧ k.filled ≤ k.posted
  sendOrder : k.acked ≤ k.sent ∧ k.sent ≤ k.posted

end Requests

variable {c : Allreduce} {t t' : Loop} {k : Marks} {wc : Completion} {ret : Nat}

theorem nextPos_lt (i : Nat) : nextPos i < reqInFlight := Nat.mod_lt _ (by decide)

theorem follows_start (mem : Memory) : c.Follows (c.start mem) {} where
  sound := sound_start c mem
  sendPos := (Nat.zero_min _).symm.trans (by rw [Nat.zero_mul])
  ringPos := rfl
  posted_lt := by
    rw [Nat.zero_mul]
    exact Nat.add_pos_right _ (by decide)
  recvWindow := ⟨Nat.le_refl _, Nat.zero_le _⟩
  sendWindow := ⟨Nat.le_refl _, Nat.zero_le _⟩

theorem queued_start (n : Nat) : c.Queued n {} [] [] [] :=
  ⟨rfl, rfl, rfl, rfl, ⟨Nat.le_refl _, Nat.le_refl _⟩, ⟨Nat.le_refl _, Nat.le_refl _⟩⟩

/-! ### Posting a chunk -/

theorem Follows.window_of_free (h : c.Follows t k) (hfree : (t.ring (nextPos k.posted)).status = 0) :
    k.posted < k.taken + reqInFlight ∧ k.posted < k.acked + reqInFlight := by
  have hnone := h.sound.not_ofElem (nextPos_lt _) hfree
  obtain ⟨hrecv, hrecv'⟩ := h.recvWindow
  obtain ⟨hsend, hsend'⟩ := h.sendWindow
  constructor
  · by_contra hfull
    have hlt : k.taken < k.posted := by
      rw [reqInFlight] at hfull
      omega
    refine hnone (c.recvAt k.taken) (List.mem_append_left _ (List.mem_map_of_mem
      (List.Ico.mem.2 ⟨Nat.le_refl _, hlt⟩))) (Or.inl ?_)
    change 0x100000000 + nextPos k.taken = 0x100000000 + nextPos k.posted
    rw [nextPos, nextPos]
    rw [reqInFlight] at hfull hrecv' ⊢
    omega
  · by_contra hfull
    have hlt : k.acked < k.posted := by
      rw [reqInFlight] at hfull
      omega
    refine hnone (c.sendAt k.acked) (List.mem_append_right _ (List.mem_map_of_mem
      (List.Ico.mem.2 ⟨Nat.le_refl _, hlt⟩))) (Or.inr ?_)
    change 0x200000000 + nextPos k.acked = 0x200000000 + nextPos k.posted
    rw [nextPos, nextPos]
    rw [reqInFlight] at hfull hsend' ⊢
    omega

theorem outstandingAt_post (hrecv : k.taken ≤ k.posted) (hsend : k.acked ≤ k.posted) :
    (c.outstandingAt k ++ [c.recvAt k.posted, c.sendAt k.posted]).Perm
      (c.outstandingAt { k with posted := k.posted + 1 }) := by
  rw [outstandingAt, outstandingAt]
  dsimp only
  rw [List.Ico.succ_top hrecv, List.Ico.succ_top hsend, List.map_append, List.map_append,
    List.append_assoc, List.append_assoc]
  refine List.Perm.append_left _ ?_
  exact (List.perm_append_comm_assoc _ [c.recvAt k.posted] [c.sendAt k.posted])

theorem Follows.fill (h : c.Follows t k) {posted : List WorkRequest}
    (hfill : c.fill t = .ok (t', posted)) : t' = t ∧ posted = [] ∨
      posted = [c.recvRequest k.posted, c.sendRequest k.posted] ∧
        c.Follows t' { k with posted := k.posted + 1 } ∧ k.posted * chunkSize < c.size ∧
        convertEndianess32 (c.sbuf + k.posted * chunkSize) (c.ibBuf + nextPos k.posted * chunkSize)
          (min chunkSize (c.size - k.posted * chunkSize) / 4) t.mem = .ok t'.mem := by
  have hsound := h.sound.fill hfill
  rcases fill_ok hfill with ⟨rfl, rfl⟩ |
    ⟨next, toSend, mem, hnext, htoSend, hmore, hfree, hconvert, rfl, rfl⟩
  · exact Or.inl ⟨rfl, rfl⟩
  right
  have hpos : t.sendPos = k.posted * chunkSize := by
    have hsendPos := h.sendPos
    omega
  obtain rfl : next = nextPos k.posted := by rw [hnext, h.ringPos, nextPos, Nat.mod_add_mod]
  obtain ⟨hrecvBuf, hsendBuf⟩ := h.sound.bufs (nextPos k.posted)
  rw [hpos] at htoSend hmore
  subst htoSend
  have hrequests : requests (nextPos k.posted) (t.ring (nextPos k.posted)) =
      [c.recvRequest k.posted, c.sendRequest k.posted] := by
    rw [requests, hrecvBuf, hsendBuf, recvRequest, sendRequest]
  obtain ⟨hrecvWindow, hsendWindow⟩ := h.window_of_free hfree
  refine ⟨hrequests, ⟨?_, ?_, ?_, ?_, ⟨?_, hrecvWindow⟩, ?_, hsendWindow⟩, hmore, ?_⟩
  · refine Sound.perm hsound ?_
    rw [hrequests]
    have hchunk : ∀ loop : Loop, loop.sendPos = t.sendPos + min chunkSize (c.size - k.posted * chunkSize) →
        chunkBetween t loop = c.chunkAt k.posted := by
      intro loop hloop
      rw [chunkBetween, hloop, hpos, Nat.add_sub_cancel_left, chunkAt]
    rw [List.map_cons, List.map_cons, List.map_nil, hchunk _ rfl]
    exact outstandingAt_post h.recvWindow.1 h.sendWindow.1
  · change t.sendPos + _ = min ((k.posted + 1) * chunkSize) c.size
    rw [hpos, chunkSize]
    rw [chunkSize] at hmore
    omega
  · rfl
  · change (k.posted + 1) * chunkSize < c.size + chunkSize
    rw [Nat.succ_mul]
    exact Nat.add_lt_add_right hmore _
  · exact Nat.le_succ_of_le h.recvWindow.1
  · exact Nat.le_succ_of_le h.sendWindow.1
  · rwa [hpos, hsendBuf] at hconvert

/-! ### Taking completions -/

theorem Follows.complete_recv (h : c.Follows t k) (hlt : k.taken < k.posted)
    (hwc : Completes (c.recvAt k.taken) wc) (hok : c.complete ret t wc = .ok t') :
    c.Follows t' { k with taken := k.taken + 1 } ∧
      convertEndianess32 (c.ibBuf + bufSize + nextPos k.taken * chunkSize)
        (c.dbuf + k.taken * chunkSize) (min chunkSize (c.size - k.taken * chunkSize) / 4) t.mem =
          .ok t'.mem := by
  have hsound : Sound c t
      (c.recvAt k.taken :: c.outstandingAt { k with taken := k.taken + 1 }) := by
    have hold := h.sound
    rw [outstandingAt, List.Ico.eq_cons hlt] at hold
    exact hold
  have hnext := hsound.complete hwc hok
  obtain ⟨pos, mem, -, -, rfl, hmem⟩ := complete_ok hsound hwc hok
  exact ⟨⟨hnext, h.sendPos, h.ringPos, h.posted_lt,
    ⟨hlt, by have hwindow := h.recvWindow.2; dsimp only; omega⟩, h.sendWindow⟩, hmem⟩

theorem Follows.complete_send (h : c.Follows t k) (hlt : k.acked < k.posted)
    (hwc : Completes (c.sendAt k.acked) wc) (hok : c.complete ret t wc = .ok t') :
    c.Follows t' { k with acked := k.acked + 1 } ∧ t'.mem = t.mem := by
  have hsound : Sound c t
      (c.sendAt k.acked :: c.outstandingAt { k with acked := k.acked + 1 }) := by
    have hold := h.sound
    rw [outstandingAt, List.Ico.eq_cons hlt] at hold
    exact hold.perm List.perm_middle
  have hnext := hsound.complete hwc hok
  obtain ⟨pos, mem, -, -, rfl, hmem⟩ := complete_ok hsound hwc hok
  exact ⟨⟨hnext, h.sendPos, h.ringPos, h.posted_lt, h.recvWindow,
    ⟨hlt, by have hwindow := h.sendWindow.2; dsimp only; omega⟩⟩, hmem⟩

theorem Queued.complete {n : Nat} {recvs sends rest : List Posted} {w : Posted}
    (h : c.Queued n k recvs sends (w :: rest)) :
    (w = (n, c.recvRequest k.taken) ∧ k.taken < k.filled ∧
        c.Queued n { k with taken := k.taken + 1 } recvs sends rest) ∨
      (w = (n, c.sendRequest k.acked) ∧ k.acked < k.sent ∧
        c.Queued n { k with acked := k.acked + 1 } recvs sends rest) := by
  obtain ⟨hrecvs, hsends, hreceived, hdone, hrecvOrder, hsendOrder⟩ := h
  cases hd : w.2.direction with
  | recv =>
      left
      rw [Host.directed, List.filter_cons, if_pos (decide_eq_true hd), ← Host.directed] at hreceived
      rw [Host.directed, List.filter_cons, if_neg (by rw [hd]; simp), ← Host.directed] at hdone
      have hlt : k.taken < k.filled := by
        by_contra hge
        rw [List.Ico.eq_nil_of_le (not_lt.1 hge)] at hreceived
        contradiction
      rw [List.Ico.eq_cons hlt, List.map_cons] at hreceived
      obtain ⟨rfl, hrest⟩ := List.cons.inj hreceived
      exact ⟨rfl, hlt, hrecvs, hsends, hrest, hdone, ⟨hlt, hrecvOrder.2⟩, hsendOrder⟩
  | send =>
      right
      rw [Host.directed, List.filter_cons, if_neg (by rw [hd]; simp), ← Host.directed] at hreceived
      rw [Host.directed, List.filter_cons, if_pos (decide_eq_true hd), ← Host.directed] at hdone
      have hlt : k.acked < k.sent := by
        by_contra hge
        rw [List.Ico.eq_nil_of_le (not_lt.1 hge)] at hdone
        contradiction
      rw [List.Ico.eq_cons hlt, List.map_cons] at hdone
      obtain ⟨rfl, hrest⟩ := List.cons.inj hdone
      exact ⟨rfl, hlt, hrecvs, hsends, hreceived, hrest, hrecvOrder, ⟨hlt, hsendOrder.2⟩⟩

/-- What holds when a result is converted and when a send is done holds after a batch of completions. -/
theorem Follows.batch {n : Nat} {P : Marks → Memory → Prop} {recvs sends polled rest : List Posted}
    {wcs : List Completion} (h : c.Follows t k) (hqueued : c.Queued n k recvs sends (polled ++ rest))
    (hcompletes : List.Forall₂ (fun w => Completes (w.2, ⟨0, 0⟩)) polled wcs)
    (hok : wcs.foldlM (c.complete ret) t = .ok t') (hP : P k t.mem)
    (hrecv : ∀ (k : Marks) (mem mem' : Memory), k.taken < k.filled → k.filled ≤ k.posted →
      convertEndianess32 (c.ibBuf + bufSize + nextPos k.taken * chunkSize)
        (c.dbuf + k.taken * chunkSize) (min chunkSize (c.size - k.taken * chunkSize) / 4) mem =
          .ok mem' → P k mem → P { k with taken := k.taken + 1 } mem')
    (hsend : ∀ (k : Marks) (mem : Memory), P k mem → P { k with acked := k.acked + 1 } mem) :
    ∃ taken acked, c.Follows t' { k with taken, acked } ∧
      c.Queued n { k with taken, acked } recvs sends rest ∧ P { k with taken, acked } t'.mem := by
  induction hcompletes generalizing t k with
  | nil =>
      rw [Fallible.foldlM_nil_eq_ok] at hok
      subst hok
      exact ⟨k.taken, k.acked, h, hqueued, hP⟩
  | @cons w wc polled wcs hwc _ ih =>
      obtain ⟨t₁, hcomplete, hok⟩ := Fallible.foldlM_cons_eq_ok.1 hok
      rcases hqueued.complete with ⟨rfl, hlt, hqueued'⟩ | ⟨rfl, hlt, hqueued'⟩
      · obtain ⟨h', hconvert⟩ := h.complete_recv (hlt.trans_le hqueued.recvOrder.2) hwc hcomplete
        have hrest := ih h' hqueued' hok (hrecv k _ _ hlt hqueued.recvOrder.2 hconvert hP)
        exact hrest
      · obtain ⟨h', hmem⟩ := h.complete_send (hlt.trans_le hqueued.sendOrder.2) hwc hcomplete
        have hrest := ih h' hqueued' hok (hmem ▸ hsend k _ hP)
        exact hrest

theorem Follows.withMem (h : c.Follows t k) (mem : Memory) : c.Follows { t with mem := mem } k :=
  ⟨h.sound.withMem mem, h.sendPos, h.ringPos, h.posted_lt, h.recvWindow, h.sendWindow⟩

theorem Follows.ends (h : c.Follows t k) (hends : ¬ c.Continues t) :
    c.size ≤ k.posted * chunkSize ∧ k.taken = k.posted ∧ k.acked = k.posted := by
  rw [Continues, not_or, not_lt, BitVec.not_lt] at hends
  have hsendPos := h.sendPos
  have htotal := h.sound.total
  have hzero : t.outstandingReqs.toNat ≤ 0 := hends.2
  rw [outstandingAt, List.length_append, List.length_map, List.length_map, List.Ico.length,
    List.Ico.length] at htotal
  have hrecv := h.recvWindow.1
  have hsend := h.sendWindow.1
  omega

theorem Follows.posted_eq (h : c.Follows t k) (hall : c.size ≤ k.posted * chunkSize) :
    k.posted = c.messages := by
  have hlt := h.posted_lt
  rw [messages]
  rw [chunkSize] at *
  omega

theorem Follows.posted_le (h : c.Follows t k) : k.posted ≤ c.messages := by
  have hlt := h.posted_lt
  rw [messages]
  rw [chunkSize] at *
  omega

end Allreduce

/-! ### The queue pair -/

namespace Host

open Allreduce (nextPos)

/-- How many packets of the current message were taken. -/
def progress (h : Host) : Nat := (h.expected.map fun psn => psn.toNat % 64).getD 0

/-- How many packets were sent and received, where `base` messages are those of the earlier calls. -/
structure Counts (h : Host) (base : Nat) (k : Marks) : Prop where
  sent : h.sent / 64 = base + k.sent
  sent_le : h.sent ≤ 64 * (base + k.posted)
  received : 64 * (base + k.filled) + h.progress ≤ h.received

structure Idle (h : Host) : Prop where
  running : h.running = none
  recvs : h.recvs = []
  sends : h.sends = []
  completions : h.completions = []
  counts : Counts h h.due {}

structure InCall (h : Host) (base : Nat) (k : Marks) (r : Running) : Prop where
  running : h.running = some r
  due : h.due = base + k.posted
  loop : r.call.Follows r.loop k
  queued : r.call.Queued h.calls k h.recvs h.sends h.completions
  counts : Counts h base k

variable {h h' : Host} {base : Nat} {k : Marks} {r : Running} {c : Allreduce} {input : Memory}
  {t t' : Loop}

@[simp] theorem directed_append (d : Direction) (ws ws' : List Posted) :
    directed d (ws ++ ws') = directed d ws ++ directed d ws' := List.filter_append ..

theorem idle_start : Idle start := ⟨rfl, rfl, rfl, rfl, rfl, Nat.zero_le _, Nat.le_refl _⟩

theorem Idle.call (hh : Idle h) (c : Allreduce) (mem : Memory) :
    InCall { h with
        running := some ⟨c, mem, c.start mem, false⟩
        calls := h.calls + 1 } h.due {} ⟨c, mem, c.start mem, false⟩ where
  running := rfl
  due := rfl
  loop := Allreduce.follows_start mem
  queued := by
    dsimp only
    rw [hh.recvs, hh.sends, hh.completions]
    exact Allreduce.queued_start _
  counts := ⟨hh.counts.sent, hh.counts.sent_le, hh.counts.received⟩

theorem InCall.fill (hh : InCall h base k ⟨c, input, t, false⟩) {posted : List WorkRequest}
    (hfill : c.fill t = .ok (t', posted)) : ∃ next,
      InCall { h.post posted with running := some ⟨c, input, t', true⟩ } base
          { k with posted := next } ⟨c, input, t', true⟩ ∧
        (next = k.posted ∧ t'.mem = t.mem ∨
          next = k.posted + 1 ∧ k.posted * chunkSize < c.size ∧ k.posted < k.sent + reqInFlight ∧
            convertEndianess32 (c.sbuf + k.posted * chunkSize)
              (c.ibBuf + nextPos k.posted * chunkSize)
              (min chunkSize (c.size - k.posted * chunkSize) / 4) t.mem = .ok t'.mem) := by
  obtain ⟨hrunning, hdue, hloop, hqueued, hsent, hsent_le, hreceived⟩ := hh
  rcases hloop.fill hfill with ⟨rfl, rfl⟩ | ⟨rfl, hloop', hmore, hconvert⟩
  · refine ⟨k.posted, ⟨rfl, hdue, hloop, ?_, hsent, hsent_le, hreceived⟩, Or.inl ⟨rfl, rfl⟩⟩
    simpa [post, directed] using hqueued
  · have hacked := hqueued.sendOrder.1
    have hwindow := hloop'.sendWindow.2
    dsimp only at hwindow
    refine ⟨k.posted + 1, ⟨rfl, congrArg (· + 1) hdue, hloop', ?_, hsent, ?_, hreceived⟩,
      Or.inr ⟨rfl, hmore, by omega, hconvert⟩⟩
    · refine ⟨?_, ?_, hqueued.received, hqueued.done, ⟨hqueued.recvOrder.1,
        Nat.le_succ_of_le hqueued.recvOrder.2⟩, ⟨hqueued.sendOrder.1,
        Nat.le_succ_of_le hqueued.sendOrder.2⟩⟩
      · dsimp only [post]
        rw [List.Ico.succ_top hqueued.recvOrder.2, List.map_append, hqueued.recvs]
        rfl
      · dsimp only [post]
        rw [List.Ico.succ_top hqueued.sendOrder.2, List.map_append, hqueued.sends]
        rfl
    · dsimp only [post]
      omega

theorem InCall.poll {P : Marks → Memory → Prop} (hh : InCall h base k ⟨c, input, t, true⟩)
    {polled rest : List Posted} {wcs : List Completion}
    (hcompletions : ∀ d, directed d h.completions = directed d polled ++ directed d rest)
    (hcompletes : List.Forall₂ (fun w => Allreduce.Completes (w.2, ⟨0, 0⟩)) polled wcs)
    (hok : wcs.foldlM (c.complete wcs.length) t = .ok t') (hP : P k t.mem)
    (hrecv : ∀ (k : Marks) (mem mem' : Memory), k.taken < k.filled → k.filled ≤ k.posted →
      convertEndianess32 (c.ibBuf + Allreduce.bufSize + nextPos k.taken * chunkSize)
        (c.dbuf + k.taken * chunkSize) (min chunkSize (c.size - k.taken * chunkSize) / 4) mem =
          .ok mem' → P k mem → P { k with taken := k.taken + 1 } mem')
    (hsend : ∀ (k : Marks) (mem : Memory), P k mem → P { k with acked := k.acked + 1 } mem) :
    ∃ taken acked, InCall { h with running := some ⟨c, input, t', false⟩, completions := rest } base
      { k with taken, acked } ⟨c, input, t', false⟩ ∧ P { k with taken, acked } t'.mem := by
  obtain ⟨hrunning, hdue, hloop, hqueued, hcounts⟩ := hh
  have hqueued : c.Queued h.calls k h.recvs h.sends (polled ++ rest) :=
    ⟨hqueued.recvs, hqueued.sends, by rw [directed_append, ← hcompletions]; exact hqueued.received,
      by rw [directed_append, ← hcompletions]; exact hqueued.done, hqueued.recvOrder, hqueued.sendOrder⟩
  obtain ⟨taken, acked, hloop', hqueued', hP'⟩ :=
    hloop.batch hqueued hcompletes hok hP hrecv hsend
  exact ⟨taken, acked, ⟨rfl, hdue, hloop', hqueued', hcounts.sent, hcounts.sent_le, hcounts.received⟩, hP'⟩

theorem InCall.ret (hh : InCall h base k ⟨c, input, t, false⟩) (hends : ¬ c.Continues t) :
    Idle { h with running := none } ∧ k.taken = k.posted ∧ c.size ≤ k.posted * chunkSize := by
  obtain ⟨hrunning, hdue, hloop, hqueued, hsent, hsent_le, hreceived⟩ := hh
  obtain ⟨hsize, htaken, hacked⟩ := hloop.ends hends
  have hrecvOrder := hqueued.recvOrder
  have hsendOrder := hqueued.sendOrder
  have hall : h.due = base + k.posted := hdue
  have hfilled : k.filled = k.posted := by omega
  have hsentAll : k.sent = k.posted := by omega
  refine ⟨⟨rfl, ?_, ?_, ?_, ?_, ?_, ?_⟩, htaken, hsize⟩
  · rw [hqueued.recvs, hfilled, List.Ico.self_empty, List.map_nil]
  · rw [hqueued.sends, hsentAll, List.Ico.self_empty, List.map_nil]
  · refine List.eq_nil_iff_forall_not_mem.2 fun w hw => ?_
    have hreceived := hqueued.received
    have hdone := hqueued.done
    rw [htaken, hfilled, List.Ico.self_empty, List.map_nil, directed, List.filter_eq_nil_iff]
      at hreceived
    rw [hacked, hsentAll, List.Ico.self_empty, List.map_nil, directed, List.filter_eq_nil_iff] at hdone
    cases hd : w.2.direction with
    | recv => exact hreceived w hw (decide_eq_true hd)
    | send => exact hdone w hw (decide_eq_true hd)
  · change h.sent / 64 = h.due + 0
    rw [hsent, hall, hsentAll, Nat.add_zero]
  · change h.sent ≤ 64 * (h.due + 0)
    rwa [hall]
  · change 64 * (h.due + 0) + h.progress ≤ h.received
    rwa [hall, Nat.add_zero, ← hfilled]

theorem InCall.transmit (hh : InCall h base k r) {w : Posted} {rest : List Posted}
    (hsends : h.sends = w :: rest) : w = (h.calls, r.call.sendRequest k.sent) ∧ k.sent < k.posted ∧
      InCall (h.packetSent w rest) base { k with sent := (h.sent + 1) / 64 - base } r := by
  obtain ⟨hrunning, hdue, hloop, hqueued, hsent, hsent_le, hreceived⟩ := hh
  have hqueue := hqueued.sends
  have hlt : k.sent < k.posted := by
    by_contra hge
    rw [hsends, List.Ico.eq_nil_of_le (not_lt.1 hge)] at hqueue
    contradiction
  rw [hsends, List.Ico.eq_cons hlt, List.map_cons] at hqueue
  obtain ⟨rfl, hrest⟩ := List.cons.inj hqueue
  refine ⟨rfl, hlt, ?_⟩
  have hloop' : ∀ sent, r.call.Follows r.loop { k with sent := sent } := fun sent =>
    ⟨hloop.sound, hloop.sendPos, hloop.ringPos, hloop.posted_lt, hloop.recvWindow, hloop.sendWindow⟩
  rw [packetSent]
  split
  · rename_i hlast
    have hnext : (h.sent + 1) / 64 - base = k.sent + 1 := by omega
    rw [hnext]
    refine ⟨hrunning, hdue, hloop' _, ⟨hqueued.recvs, hrest, ?_, ?_, hqueued.recvOrder,
      ⟨Nat.le_succ_of_le hqueued.sendOrder.1, hlt⟩⟩, ?_, ?_, hreceived⟩
    · dsimp only
      rw [directed_append, hqueued.received]
      exact List.append_nil _
    · dsimp only
      rw [directed_append, hqueued.done, List.Ico.succ_top hqueued.sendOrder.1, List.map_append]
      rfl
    · dsimp only
      omega
    · dsimp only
      omega
  · rename_i hmore
    have hsame : (h.sent + 1) / 64 - base = k.sent := by omega
    rw [hsame]
    refine ⟨hrunning, hdue, hloop, hqueued, ?_, ?_, hreceived⟩
    · dsimp only
      omega
    · dsimp only
      omega

theorem InCall.dropped (hh : InCall h base k r) : InCall h.packetDropped base k r := by
  obtain ⟨hrunning, hdue, hloop, hqueued, hsent, hsent_le, hreceived⟩ := hh
  refine ⟨hrunning, hdue, hloop, hqueued, hsent, hsent_le, ?_⟩
  change 64 * (base + k.filled) + 0 ≤ h.received + 1
  omega

theorem InCall.taken (hh : InCall h base k r) {psn : IbPsn} (words : AggregateH) {w : Posted}
    {rest : List Posted} (hrecvs : h.recvs = w :: rest)
    (hnext : psn.toNat % 64 = 0 ∨ h.expected = some psn) :
    w = (h.calls, r.call.recvRequest k.filled) ∧ k.filled < k.posted ∧
      InCall (h.packetTaken psn words w rest) base
        { k with filled := k.filled + (psn.toNat % 64 + 1) / 64 }
        { r with loop := { r.loop with
            mem := writePacket (r.call.recvRequest k.filled).addr (psn.toNat % 64) words r.loop.mem } } := by
  obtain ⟨hrunning, hdue, hloop, hqueued, hsent, hsent_le, hreceived⟩ := hh
  have hqueue := hqueued.recvs
  have hlt : k.filled < k.posted := by
    by_contra hge
    rw [hrecvs, List.Ico.eq_nil_of_le (not_lt.1 hge)] at hqueue
    contradiction
  rw [hrecvs, List.Ico.eq_cons hlt, List.map_cons] at hqueue
  obtain ⟨rfl, hrest⟩ := List.cons.inj hqueue
  refine ⟨rfl, hlt, ?_⟩
  have hprogress : psn.toNat % 64 ≤ h.progress := by
    rcases hnext with hfirst | hexpected
    · omega
    · rw [progress, hexpected]
      exact Nat.le_refl _
  have hpsn : (psn + 1).toNat % 64 = (psn.toNat % 64 + 1) % 64 := by
    rw [BitVec.toNat_add]
    change (psn.toNat + 1) % 2 ^ 24 % 64 = _
    omega
  have hrunning' : (h.modifyMem (writePacket (r.call.recvRequest k.filled).addr (psn.toNat % 64) words)).running
      = some { r with loop := { r.loop with
          mem := writePacket (r.call.recvRequest k.filled).addr (psn.toNat % 64) words r.loop.mem } } := by
    rw [modifyMem, hrunning]
    rfl
  have hloop' : ∀ filled, r.call.Follows { r.loop with
      mem := writePacket (r.call.recvRequest k.filled).addr (psn.toNat % 64) words r.loop.mem }
        { k with filled := filled } := fun filled =>
    ⟨hloop.sound.withMem _, hloop.sendPos, hloop.ringPos, hloop.posted_lt, hloop.recvWindow,
      hloop.sendWindow⟩
  rw [packetTaken]
  dsimp only
  split
  · rename_i hlast
    have hfilled : k.filled + (psn.toNat % 64 + 1) / 64 = k.filled + 1 := by omega
    rw [hfilled]
    refine ⟨hrunning', hdue, hloop' _, ⟨hrest, hqueued.sends, ?_, ?_,
      ⟨Nat.le_succ_of_le hqueued.recvOrder.1, hlt⟩, hqueued.sendOrder⟩, hsent, hsent_le, ?_⟩
    · change directed .recv (h.completions ++ [_]) = _
      rw [directed_append, hqueued.received, List.Ico.succ_top hqueued.recvOrder.1, List.map_append]
      rfl
    · change directed .send (h.completions ++ [_]) = _
      rw [directed_append, hqueued.done]
      exact List.append_nil _
    · change 64 * (base + (k.filled + 1)) + 0 ≤ h.received + 1
      omega
  · rename_i hmore
    have hfilled : k.filled + (psn.toNat % 64 + 1) / 64 = k.filled := by omega
    rw [hfilled]
    refine ⟨hrunning', hdue, hloop' _, ⟨hqueued.recvs, hqueued.sends, hqueued.received, hqueued.done,
      hqueued.recvOrder, hqueued.sendOrder⟩, hsent, hsent_le, ?_⟩
    change 64 * (base + k.filled) + (psn + 1).toNat % 64 ≤ h.received + 1
    omega

/-! ### Every step -/

/-- What holds of a participant whose calls do not throw. -/
def Regular (h : Host) : Prop := Idle h ∨ ∃ base k r, InCall h base k r

theorem Regular.inCall (hh : Regular h) (hrunning : h.running = some r) :
    ∃ base k, InCall h base k r := by
  rcases hh with hidle | ⟨base, k, r', hinCall⟩
  · rw [hidle.running] at hrunning
    contradiction
  · obtain rfl := Option.some.inj (hinCall.running.symm.trans hrunning)
    exact ⟨base, k, hinCall⟩

theorem Idle.dropped (hh : Idle h) : Idle h.packetDropped := by
  obtain ⟨hrunning, hrecvs, hsends, hcompletions, hsent, hsent_le, hreceived⟩ := hh
  refine ⟨hrunning, hrecvs, hsends, hcompletions, hsent, hsent_le, ?_⟩
  change 64 * (h.due + 0) + 0 ≤ h.received + 1
  dsimp only at hreceived
  omega

theorem Regular.received (hh : Regular h) (psn : IbPsn) (words : AggregateH) :
    Regular (h.packetReceived psn words) := by
  rcases hh with hidle | ⟨base, k, r, hinCall⟩
  · rw [packetReceived, hidle.recvs]
    exact Or.inl hidle.dropped
  · rw [packetReceived]
    split
    · rename_i w rest hrecvs
      split
      · rename_i hnext
        exact Or.inr ⟨base, _, _, (hinCall.taken words hrecvs hnext).2.2⟩
      · exact Or.inr ⟨base, k, r, hinCall.dropped⟩
    · exact Or.inr ⟨base, k, r, hinCall.dropped⟩

theorem Regular.step (hh : Regular h) {e : Event} (hstep : Step h e h') : Regular h' := by
  cases hstep with
  | @call c mem hidle =>
      rcases hh with hidle' | ⟨base, k, r, hinCall⟩
      · exact Or.inr ⟨_, _, _, hidle'.call c mem⟩
      · rw [hinCall.running] at hidle
        contradiction
  | fill hrunning hcontinues hfill =>
      obtain ⟨base, k, hinCall⟩ := hh.inCall hrunning
      obtain ⟨next, hinCall', -⟩ := hinCall.fill hfill
      exact Or.inr ⟨base, _, _, hinCall'⟩
  | poll hrunning hcompletions hbatch hcompletes hloop =>
      obtain ⟨base, k, hinCall⟩ := hh.inCall hrunning
      obtain ⟨taken, acked, hinCall', -⟩ := hinCall.poll (P := fun _ _ => True) hcompletions
        hcompletes hloop trivial (fun _ _ _ _ _ _ _ => trivial) (fun _ _ _ => trivial)
      exact Or.inr ⟨base, _, _, hinCall'⟩
  | ret hrunning hends =>
      obtain ⟨base, k, hinCall⟩ := hh.inCall hrunning
      exact Or.inl (hinCall.ret hends).1
  | transmit hsends =>
      rcases hh with hidle | ⟨base, k, r, hinCall⟩
      · rw [hidle.sends] at hsends
        contradiction
      · exact Or.inr ⟨base, _, r, (hinCall.transmit hsends).2.2⟩
  | receive => exact hh.received _ _

/-- The packet that is sent next is less than 256 numbers ahead of those that were received. -/
theorem Regular.window (hh : Regular h) {w : Posted} {rest : List Posted} (hsends : h.sends = w :: rest) :
    h.sent < h.received + 256 := by
  rcases hh with hidle | ⟨base, k, r, hinCall⟩
  · rw [hidle.sends] at hsends
    contradiction
  · obtain ⟨-, hlt, -⟩ := hinCall.transmit hsends
    have hsent := hinCall.counts.sent
    have hreceived := hinCall.counts.received
    have hwindow := hinCall.loop.recvWindow.2
    have horder := hinCall.queued.recvOrder.1
    rw [reqInFlight] at hwindow
    omega

end Host

end ClientLib

end Mpitofino
