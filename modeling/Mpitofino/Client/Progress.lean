import Mpitofino.Client.Results
import Mpitofino.Library.Progress

/-!
# A call goes on

A call whose buffers have an alignment does not throw. When all that it sent has come back, it sends
more, takes a completion, posts the next message or returns.
-/

namespace Mpitofino

namespace ClientLib

open Allreduce (nextPos)

namespace Allreduce

/-- The buffers of the user have the alignment of a word. -/
def WordAligned (c : Allreduce) : Prop := c.sbuf % 4 = 0 ∧ c.dbuf % 4 = 0

instance (c : Allreduce) : Decidable c.WordAligned := inferInstanceAs (Decidable (_ ∧ _))

variable {c : Allreduce} {t t' : Loop} {k : Marks} {posted : List WorkRequest}

def success (w : WorkRequest) : Completion := ⟨w.wrId, true, chunkSize⟩

theorem Follows.exists_convert (h : c.Follows t k) (hc : c.WordAligned) (hmore : t.sendPos < c.size)
    (next count : Nat) : ∃ mem, convertEndianess32 (c.sbuf + t.sendPos) (t.ring next).sendBuf count t.mem =
      .ok mem := by
  have haligned := c.aligned
  have hsendPos := h.sendPos
  obtain ⟨hsbuf, -⟩ := hc
  refine convertEndianess32_isOk ?_ ?_ t.mem
  · rw [chunkSize] at hsendPos
    omega
  · rw [(h.sound.bufs next).2, chunkSize]
    omega

theorem Follows.exists_fill (h : c.Follows t k) (hc : c.WordAligned) :
    ∃ t' posted, c.fill t = .ok (t', posted) := by
  rw [Allreduce.fill]
  split
  · rename_i hmore
    dsimp only
    split
    · obtain ⟨mem, hconvert⟩ := h.exists_convert hc hmore ((t.ringPos + 1) % reqInFlight)
        (min chunkSize (c.size - t.sendPos) / 4)
      rw [hconvert]
      exact ⟨_, _, rfl⟩
    · exact ⟨t, [], rfl⟩
  · exact ⟨t, [], rfl⟩

theorem Follows.posts (h : c.Follows t k) (hcontinues : c.Continues t) (htaken : k.taken = k.posted)
    (hacked : k.acked = k.posted) (hfill : c.fill t = .ok (t', posted)) : posted ≠ [] := by
  have hnone : c.outstandingAt k = [] := by
    rw [outstandingAt, htaken, hacked, List.Ico.self_empty]
    rfl
  have hsound := h.sound
  rw [hnone] at hsound
  have hmore : t.sendPos < c.size := by
    rcases hcontinues with hmore | houtstanding
    · exact hmore
    · have hzero : t.outstandingReqs.toNat = 0 := hsound.total
      exact absurd (BitVec.lt_def.1 houtstanding) (by rw [hzero]; exact Nat.not_lt_zero _)
  have hfree : (t.ring ((t.ringPos + 1) % reqInFlight)).status = 0 :=
    BitVec.eq_of_toNat_eq (hsound.status _ (Nat.mod_lt _ (by decide)))
  rw [Allreduce.fill, if_pos hmore] at hfill
  dsimp only at hfill
  rw [if_pos hfree] at hfill
  obtain ⟨mem, -, hfill⟩ := Fallible.bind_eq_ok.1 hfill
  obtain ⟨-, rfl⟩ := Prod.mk.inj (Except.ok.inj hfill)
  exact List.cons_ne_nil _ _

theorem Follows.exists_complete_recv (h : c.Follows t k) (hc : c.WordAligned) (hlt : k.taken < k.posted)
    (ret : Nat) : ∃ t', c.complete ret t (success (c.recvRequest k.taken)) = .ok t' := by
  have hmem : c.recvAt k.taken ∈ c.outstandingAt k :=
    List.mem_append_left _ (List.mem_map_of_mem (List.Ico.mem.2 ⟨Nat.le_refl _, hlt⟩))
  obtain ⟨pos, hpos, hrequest, hchunk⟩ := h.sound.known _ hmem
  have hnext := nextPos_lt k.taken
  obtain rfl : pos = nextPos k.taken := ofElem_inj (ofElem_of_mem_requests hrequest) (Or.inl rfl) hpos hnext
  have haligned := c.aligned
  obtain ⟨-, hdbuf⟩ := hc
  have hoffset : (t.ring (nextPos k.taken)).offset = k.taken * chunkSize :=
    (congrArg Chunk.offset hchunk).symm
  obtain ⟨mem, hconvert⟩ : ∃ mem, convertEndianess32 (t.ring (nextPos k.taken)).recvBuf
      (c.dbuf + (t.ring (nextPos k.taken)).offset) ((t.ring (nextPos k.taken)).size / 4) t.mem = .ok mem := by
    refine convertEndianess32_isOk ?_ ?_ t.mem
    · rw [(h.sound.bufs _).1, bufSize, chunkSize]
      omega
    · rw [hoffset, chunkSize]
      omega
  have hwrId : (success (c.recvRequest k.taken)).wrId = 0x100000000 + nextPos k.taken := rfl
  have hsuccess : ¬ ((success (c.recvRequest k.taken)).success = false ∨
      (success (c.recvRequest k.taken)).byteLen ≠ chunkSize) := by simp [success]
  rw [reqInFlight] at hnext
  rw [complete, if_neg (by omega)]
  dsimp only
  rw [if_neg hsuccess, hwrId, Nat.add_sub_cancel_left, hconvert]
  exact ⟨_, rfl⟩

theorem exists_complete_send (t : Loop) (ret : Nat) (i : Nat) :
    ∃ t', c.complete ret t (success (c.sendRequest i)) = .ok t' := by
  have hwrId : (success (c.sendRequest i)).wrId = 0x200000000 + nextPos i := rfl
  rw [complete, if_pos (by omega)]
  exact ⟨_, if_neg (by simp [success])⟩

end Allreduce

namespace Host

def Event.Round : Event → Prop
  | .fill | .poll _ _ | .ret => True
  | _ => False

/-- How much of a call is done in a round: the messages that are posted, the completions that are taken,
and the return. -/
def Event.work (h : Host) (e : Event) (h' : Host) : Nat :=
  match e with
  | .fill => h'.due - h.due
  | .poll polled _ => polled.length
  | .ret => 1
  | .call _ _ | .transmit _ | .receive _ _ => 0

variable {sentWords others : Nat → AggregateH} {h h' : Host} {base : Nat} {k : Marks} {r : Running}
  {c : Allreduce} {input : Memory} {t t' : Loop}

theorem due_post (h : Host) {posted : List WorkRequest} (hfill : c.fill t = .ok (t', posted))
    (hposted : posted ≠ []) : (h.post posted).due = h.due + 1 := by
  rcases Allreduce.fill_ok hfill with ⟨-, rfl⟩ | ⟨next, toSend, mem, -, -, -, -, -, rfl, -⟩
  · contradiction
  · rfl

theorem Serves.exists_poll (hh : Serves sentWords others h base k ⟨c, input, t, true⟩)
    (hc : c.WordAligned) : ∃ wcs h', Step h (.poll (h.completions.take 1) wcs) h' ∧
      h'.sends = h.sends ∧ h'.sent = h.sent ∧ h'.received = h.received ∧
      ∃ k' t', Serves sentWords others h' base k' ⟨c, input, t', false⟩ := by
  have hqueued := hh.inCall.queued
  obtain ⟨t', hloop⟩ : ∃ t', ((h.completions.take 1).map fun w => Allreduce.success w.2).foldlM
      (c.complete (h.completions.take 1).length) t = .ok t' := by
    cases hcompletions : h.completions with
    | nil => exact ⟨t, rfl⟩
    | cons w rest =>
        rw [hcompletions] at hqueued
        obtain ⟨t', hcomplete⟩ : ∃ t', c.complete 1 t (Allreduce.success w.2) = .ok t' := by
          rcases hqueued.complete with ⟨rfl, hlt, -⟩ | ⟨rfl, -, -⟩
          · exact hh.inCall.loop.exists_complete_recv hc (hlt.trans_le hqueued.recvOrder.2) 1
          · exact Allreduce.exists_complete_send t 1 _
        exact ⟨t', Fallible.foldlM_cons_eq_ok.2 ⟨t', hcomplete, rfl⟩⟩
  have hsplit : ∀ d, directed d h.completions =
      directed d (h.completions.take 1) ++ directed d (h.completions.drop 1) := fun d => by
    rw [← directed_append, List.take_append_drop]
  have hcompletes : List.Forall₂ (fun w => Allreduce.Completes (w.2, ⟨0, 0⟩)) (h.completions.take 1)
      ((h.completions.take 1).map fun w => Allreduce.success w.2) := by
    rw [List.forall₂_map_right_iff, List.forall₂_same]
    exact fun w _ => ⟨rfl, rfl, fun _ => rfl⟩
  have hlength : ((h.completions.take 1).map fun w => Allreduce.success w.2).length =
      (h.completions.take 1).length := List.length_map ..
  rw [← hlength] at hloop
  refine ⟨_, _, .poll hh.inCall.running hsplit ?_ hcompletes hloop, rfl, rfl, rfl, ?_⟩
  · rw [hlength, List.length_take]
    exact (Nat.min_le_left _ _).trans (by decide)
  · obtain ⟨k', hserves⟩ := hh.poll hsplit hcompletes hloop
    exact ⟨k', t', hserves⟩

theorem InCall.marks_eq (hh : InCall h base k r) (hsends : h.sends = []) (hreceived : h.received = h.sent)
    (hall : h.received / 64 = base + k.filled) (hcompletions : h.completions = []) :
    k.taken = k.posted ∧ k.acked = k.posted := by
  have hqueued := hh.queued
  have hsent := hh.counts.sent
  obtain ⟨hacked, hsent_le⟩ := hqueued.sendOrder
  obtain ⟨htaken, hfilled_le⟩ := hqueued.recvOrder
  have hqueue := hqueued.sends
  rw [hsends, eq_comm, List.map_eq_nil_iff, List.Ico.eq_empty_iff] at hqueue
  have hrecv := hqueued.received
  rw [hcompletions, eq_comm] at hrecv
  have hrecv := List.Ico.eq_empty_iff.1 (List.map_eq_nil_iff.1 hrecv)
  have hdone := hqueued.done
  rw [hcompletions, eq_comm] at hdone
  have hdone := List.Ico.eq_empty_iff.1 (List.map_eq_nil_iff.1 hdone)
  omega

theorem Serves.exists_fill (hh : Serves sentWords others h base k ⟨c, input, t, false⟩)
    (hc : c.WordAligned) (hsends : h.sends = []) (hreceived : h.received = h.sent) :
    ∃ run, Along (fun h e h' => Step h e h' ∧ e.Round) h run ∧ 0 < workOf Event.work h run := by
  by_cases hcontinues : c.Continues t
  · obtain ⟨t', posted, hfill⟩ := hh.inCall.loop.exists_fill hc
    have hstep : Step h .fill { h.post posted with running := some ⟨c, input, t', true⟩ } :=
      .fill hh.inCall.running hcontinues hfill
    by_cases hposted : posted = []
    · -- nothing was posted, so that there is a completion
      obtain ⟨k', hserves⟩ := hh.fill hfill
      obtain ⟨wcs, h', hpoll, -⟩ := hserves.exists_poll hc
      have hne : h.completions ≠ [] := by
        intro hcompletions
        obtain ⟨htaken, hacked⟩ := hh.inCall.marks_eq hsends hreceived hh.received hcompletions
        exact hh.inCall.loop.posts hcontinues htaken hacked hfill hposted
      refine ⟨[(_, _), (_, _)], ⟨⟨hstep, trivial⟩, ⟨hpoll, trivial⟩, trivial⟩, ?_⟩
      rw [workOf, workOf]
      refine Nat.add_pos_right _ (Nat.add_pos_left ?_ _)
      rw [Event.work, List.length_take]
      exact Nat.lt_min.2 ⟨Nat.one_pos, List.length_pos_iff.2 hne⟩
    · refine ⟨[(_, _)], ⟨⟨hstep, trivial⟩, trivial⟩, ?_⟩
      rw [workOf, Event.work]
      dsimp only
      rw [due_post h hfill hposted]
      omega
  · exact ⟨[(_, _)], ⟨⟨.ret hh.inCall.running hcontinues, trivial⟩, trivial⟩, Nat.one_pos⟩

theorem Serves.exists_round (hh : Serves sentWords others h base k r) (hc : r.call.WordAligned)
    (hsends : h.sends = []) (hreceived : h.received = h.sent) :
    ∃ run, Along (fun h e h' => Step h e h' ∧ e.Round) h run ∧ 0 < workOf Event.work h run := by
  obtain ⟨c, input, t, polls⟩ := r
  cases polls with
  | false => exact hh.exists_fill hc hsends hreceived
  | true =>
      obtain ⟨wcs, h', hpoll, hsends', hsent', hreceived', k', t', hserves⟩ := hh.exists_poll hc
      obtain ⟨run, hrun, hwork⟩ := hserves.exists_fill hc (hsends'.trans hsends)
        (by rw [hreceived', hsent', hreceived])
      exact ⟨(_, _) :: run, ⟨⟨hpoll, trivial⟩, hrun⟩, Nat.add_pos_right _ hwork⟩

end Host

end ClientLib

end Mpitofino
