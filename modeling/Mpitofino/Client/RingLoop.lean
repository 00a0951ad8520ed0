import Mpitofino.Client.Allreduce
import Mathlib.Algebra.BigOperators.Group.Finset.Piecewise
import Mathlib.Algebra.BigOperators.Ring.Finset
import Mathlib.Data.List.Nodup
import Mathlib.Data.List.Perm.Subperm

/-!
# The accounts of the loop

What the elements of the ring, the counter of requests and the queue pair have to do with each other,
and what has become of the data when the loop ends.
-/

namespace Mpitofino

namespace ClientLib

namespace Allreduce

def OfElem (pos : Nat) (x : Request) : Prop :=
  x.1.wrId = 0x100000000 + pos ∨ x.1.wrId = 0x200000000 + pos

instance (pos : Nat) (x : Request) : Decidable (OfElem pos x) := inferInstanceAs (Decidable (_ ∨ _))

/-- The status of an element is the number of its outstanding requests, at most 2, the counter is the
sum, and there are no more sends or receives than elements. -/
structure Counted (t : Loop) (outstanding : List Request) : Prop where
  status : ∀ pos < reqInFlight,
    (t.ring pos).status.toInt = (outstanding.filter fun x => OfElem pos x).length
  status_le : ∀ pos < reqInFlight, 0 ≤ (t.ring pos).status.toInt ∧ (t.ring pos).status.toInt ≤ 2
  sum : (t.outstandingReqs.toNat : Int) = ∑ pos ∈ Finset.range reqInFlight, (t.ring pos).status.toInt
  total : t.outstandingReqs.toNat = outstanding.length
  inFlight : ∀ d, (outstanding.filter fun x => x.1.direction = d).length ≤ reqInFlight

/-- The chunks are a partition of a range, in order. -/
def Tiles : Nat → List Chunk → Nat → Prop
  | start, [], stop => start = stop
  | start, chunk :: chunks, stop =>
      chunk.offset = start ∧ 0 < chunk.size ∧ chunk.size ≤ chunkSize ∧
        Tiles (start + chunk.size) chunks stop

variable (c : Allreduce)

/-- The outstanding requests are those of the elements, each at most once. -/
structure Sound (t : Loop) (outstanding : List Request) : Prop where
  bufs : ∀ pos, (t.ring pos).recvBuf = c.ibBuf + bufSize + pos * chunkSize ∧
    (t.ring pos).sendBuf = c.ibBuf + pos * chunkSize
  nodup : (outstanding.map fun x => x.1.wrId).Nodup
  known : ∀ x ∈ outstanding, ∃ pos < reqInFlight, x.1 ∈ requests pos (t.ring pos) ∧
    x.2 = ⟨(t.ring pos).offset, (t.ring pos).size⟩
  inside : ∀ x ∈ outstanding, x.2.offset + x.2.size ≤ c.size
  status : ∀ pos < reqInFlight,
    (t.ring pos).status.toNat = (outstanding.filter fun x => OfElem pos x).length
  total : t.outstandingReqs.toNat = outstanding.length

section Lists

variable {c} {t : Loop} {outstanding outstanding' : List Request}

theorem mem_requests {pos : Nat} {elem : RingElem} {w : WorkRequest} (h : w ∈ requests pos elem) :
    w = ⟨.recv, 0x100000000 + pos, elem.recvBuf, chunkSize⟩ ∨
      w = ⟨.send, 0x200000000 + pos, elem.sendBuf, chunkSize⟩ := by
  simpa [requests] using h

theorem Sound.perm (h : Sound c t outstanding) (hperm : outstanding.Perm outstanding') :
    Sound c t outstanding' where
  bufs := h.bufs
  nodup := (hperm.map _).nodup_iff.1 h.nodup
  known x hx := h.known x (hperm.mem_iff.2 hx)
  inside x hx := h.inside x (hperm.mem_iff.2 hx)
  status pos hpos := (h.status pos hpos).trans (hperm.filter _).length_eq
  total := h.total.trans hperm.length_eq

private theorem length_le_of_ids {xs : List Request} (hnodup : (xs.map fun x => x.1.wrId).Nodup)
    {ids : List Nat} (hids : ∀ x ∈ xs, x.1.wrId ∈ ids) : xs.length ≤ ids.length := by
  have hsub : (xs.map fun x => x.1.wrId) ⊆ ids := by
    intro id hid
    obtain ⟨x, hx, rfl⟩ := List.mem_map.1 hid
    exact hids x hx
  simpa using (hnodup.subperm hsub).length_le

theorem Sound.filter_nodup (h : Sound c t outstanding) (p : Request → Bool) :
    ((outstanding.filter p).map fun x => x.1.wrId).Nodup :=
  h.nodup.sublist (List.filter_sublist.map _)

theorem Sound.status_le (h : Sound c t outstanding) (pos : Nat) :
    (outstanding.filter fun x => OfElem pos x).length ≤ 2 := by
  have hids : ∀ x ∈ outstanding.filter fun x => OfElem pos x,
      x.1.wrId ∈ [0x100000000 + pos, 0x200000000 + pos] := by
    intro x hx
    have hpos : OfElem pos x := of_decide_eq_true (List.mem_filter.1 hx).2
    simpa [OfElem] using hpos
  exact length_le_of_ids (h.filter_nodup _) hids

theorem Sound.inFlight (h : Sound c t outstanding) (d : Direction) :
    (outstanding.filter fun x => x.1.direction = d).length ≤ reqInFlight := by
  have hids : ∀ x ∈ outstanding.filter fun x => x.1.direction = d, x.1.wrId ∈
      (List.range reqInFlight).map fun pos =>
        match d with
        | .recv => 0x100000000 + pos
        | .send => 0x200000000 + pos := by
    intro x hx
    obtain ⟨hx, hd⟩ := List.mem_filter.1 hx
    have hd : x.1.direction = d := of_decide_eq_true hd
    obtain ⟨pos, hpos, hmem, -⟩ := h.known x hx
    refine List.mem_map.2 ⟨pos, List.mem_range.2 hpos, ?_⟩
    rcases mem_requests hmem with heq | heq
    · rw [heq] at hd ⊢
      rw [← hd]
    · rw [heq] at hd ⊢
      rw [← hd]
  simpa using length_le_of_ids (h.filter_nodup _) hids

theorem Sound.length_eq (h : Sound c t outstanding) : outstanding.length =
    ∑ pos ∈ Finset.range reqInFlight, (outstanding.filter fun x => OfElem pos x).length := by
  have hknown : ∀ x ∈ outstanding, ∃ pos < reqInFlight, OfElem pos x := by
    intro x hx
    obtain ⟨pos, hpos, hmem, -⟩ := h.known x hx
    refine ⟨pos, hpos, ?_⟩
    rcases mem_requests hmem with heq | heq
    · exact Or.inl (by rw [heq])
    · exact Or.inr (by rw [heq])
  clear h
  induction outstanding with
  | nil => simp
  | cons x outstanding ih =>
      obtain ⟨pos, hpos, hx⟩ := hknown x List.mem_cons_self
      have hone : ∀ pos' ∈ Finset.range reqInFlight,
          ((x :: outstanding).filter fun x => OfElem pos' x).length =
            (if pos' = pos then 1 else 0) + (outstanding.filter fun x => OfElem pos' x).length := by
        intro pos' hpos'
        have hlt := Finset.mem_range.1 hpos'
        have hiff : OfElem pos' x ↔ pos' = pos := by
          rw [OfElem] at hx ⊢
          rw [reqInFlight] at hpos hlt
          omega
        by_cases heq : pos' = pos
        · rw [List.filter_cons, if_pos (decide_eq_true (hiff.2 heq)), if_pos heq, List.length_cons,
            Nat.add_comm]
        · rw [List.filter_cons, if_neg (by simpa using mt hiff.1 heq), if_neg heq, Nat.zero_add]
      rw [Finset.sum_congr rfl hone, Finset.sum_add_distrib, ← ih fun x hx =>
        hknown x (List.mem_cons_of_mem _ hx), Finset.sum_ite_eq', if_pos (Finset.mem_range.2 hpos),
        List.length_cons, Nat.add_comm]

theorem Sound.counted (h : Sound c t outstanding) : Counted t outstanding := by
  have hstatus : ∀ pos < reqInFlight, (t.ring pos).status.toInt =
      (outstanding.filter fun x => OfElem pos x).length := by
    intro pos hpos
    have hle := h.status_le pos
    rw [← h.status pos hpos] at hle ⊢
    exact BitVec.toInt_eq_toNat_of_lt (by omega)
  refine ⟨hstatus, fun pos hpos => ?_, ?_, h.total, h.inFlight⟩
  · have hle := h.status_le pos
    rw [hstatus pos hpos]
    omega
  · rw [h.total, h.length_eq, Finset.sum_congr rfl fun pos hpos => hstatus pos (Finset.mem_range.1 hpos)]
    exact Nat.cast_sum ..

end Lists

/-! ### Filling an element -/

section Fill

variable {c} {t filled : Loop} {posted : List WorkRequest} {outstanding : List Request}

theorem requests_congr {pos : Nat} {elem elem' : RingElem} (hrecv : elem'.recvBuf = elem.recvBuf)
    (hsend : elem'.sendBuf = elem.sendBuf) : requests pos elem' = requests pos elem := by
  rw [requests, requests, hrecv, hsend]

theorem fill_ok (h : c.fill t = .ok (filled, posted)) : filled = t ∧ posted = [] ∨
    ∃ next toSend mem, next = (t.ringPos + 1) % reqInFlight ∧
      toSend = min chunkSize (c.size - t.sendPos) ∧ t.sendPos < c.size ∧ (t.ring next).status = 0 ∧
      convertEndianess32 (c.sbuf + t.sendPos) (t.ring next).sendBuf (toSend / 4) t.mem = .ok mem ∧
      posted = requests next (t.ring next) ∧
      filled = {
        ring := Function.update t.ring next
          { t.ring next with status := 2, offset := t.sendPos, size := toSend }
        sendPos := t.sendPos + toSend
        outstandingReqs := t.outstandingReqs + 2
        ringPos := next
        mem := mem } := by
  rw [fill] at h
  split at h
  · rename_i hmore
    dsimp only at h
    split at h
    · rename_i hfree
      obtain ⟨mem, hconvert, h⟩ := Fallible.bind_eq_ok.1 h
      obtain ⟨rfl, rfl⟩ := Prod.mk.inj (Except.ok.inj h)
      exact Or.inr ⟨_, _, mem, rfl, rfl, hmore, hfree, hconvert, rfl, rfl⟩
    · obtain ⟨rfl, rfl⟩ := Prod.mk.inj (Except.ok.inj h)
      exact Or.inl ⟨rfl, rfl⟩
  · obtain ⟨rfl, rfl⟩ := Prod.mk.inj (Except.ok.inj h)
    exact Or.inl ⟨rfl, rfl⟩

theorem Sound.not_ofElem (h : Sound c t outstanding) {pos : Nat} (hpos : pos < reqInFlight)
    (hfree : (t.ring pos).status = 0) : ∀ x ∈ outstanding, ¬ OfElem pos x := by
  have hnone := h.status pos hpos
  rw [hfree] at hnone
  change 0 = _ at hnone
  rw [eq_comm, List.length_eq_zero_iff, List.filter_eq_nil_iff] at hnone
  exact fun x hx => by simpa using hnone x hx

theorem ofElem_of_mem_requests {pos : Nat} {elem : RingElem} {x : Request}
    (h : x.1 ∈ requests pos elem) : OfElem pos x := by
  rcases mem_requests h with heq | heq
  · exact Or.inl (by rw [heq])
  · exact Or.inr (by rw [heq])

theorem ofElem_inj {pos pos' : Nat} {x : Request} (h : OfElem pos x) (h' : OfElem pos' x)
    (hpos : pos < reqInFlight) (hpos' : pos' < reqInFlight) : pos = pos' := by
  rw [OfElem] at h h'
  rw [reqInFlight] at hpos hpos'
  omega

theorem Sound.fill (h : Sound c t outstanding) (hfill : c.fill t = .ok (filled, posted)) :
    Sound c filled (outstanding ++ posted.map (·, chunkBetween t filled)) := by
  rcases fill_ok hfill with ⟨rfl, rfl⟩ |
    ⟨next, toSend, mem, heq, htoSend, hmore, hfree, -, rfl, rfl⟩
  · rwa [List.map_nil, List.append_nil]
  have hnext : next < reqInFlight := heq ▸ Nat.mod_lt _ (by decide)
  have hinside : t.sendPos + toSend ≤ c.size := by omega
  have hnone := h.not_ofElem hnext hfree
  have hsize : t.sendPos + toSend - t.sendPos = toSend := Nat.add_sub_cancel_left ..
  rw [chunkBetween, hsize]
  have hlength : outstanding.length ≤ 8 := by
    have hle := h.status_le
    rw [h.length_eq]
    simp only [reqInFlight, Finset.sum_range_succ, Finset.sum_range_zero]
    have h0 := hle 0
    have h1 := hle 1
    have h2 := hle 2
    have h3 := hle 3
    omega
  refine ⟨fun pos => ?_, ?_, fun x hx => ?_, fun x hx => ?_, fun pos hpos' => ?_, ?_⟩
  · by_cases heq : pos = next
    · subst heq
      simpa using h.bufs pos
    · simpa [Function.update_of_ne heq] using h.bufs pos
  · rw [List.map_append, List.nodup_append]
    refine ⟨h.nodup, by simp [requests], fun id hid id' hid' => ?_⟩
    rintro rfl
    obtain ⟨x, hx, rfl⟩ := List.mem_map.1 hid
    refine hnone x hx ?_
    simpa [requests, OfElem] using hid'
  · rcases List.mem_append.1 hx with hold | hnew
    · obtain ⟨pos, hpos', hmem, hchunk⟩ := h.known x hold
      have hne : pos ≠ next := by
        rintro rfl
        exact hnone x hold (ofElem_of_mem_requests hmem)
      exact ⟨pos, hpos', by simpa [Function.update_of_ne hne] using hmem,
        by simpa [Function.update_of_ne hne] using hchunk⟩
    · obtain ⟨w, hw, rfl⟩ := List.mem_map.1 hnew
      exact ⟨next, hnext, by simpa [requests] using hw, by simp⟩
  · rcases List.mem_append.1 hx with hx | hx
    · exact h.inside x hx
    · obtain ⟨w, hw, rfl⟩ := List.mem_map.1 hx
      exact hinside
  · rw [List.filter_append, List.length_append, ← h.status pos hpos']
    by_cases heq : pos = next
    · subst heq
      simp [requests, OfElem, hfree]
    · have hother : ∀ x : Request, x.1 ∈ requests next (t.ring next) → ¬ OfElem pos x :=
        fun x hx hof => heq (ofElem_inj hof (ofElem_of_mem_requests hx) hpos' hnext)
      have hempty : ((requests next (t.ring next)).map
          (·, Chunk.mk t.sendPos toSend)).filter (fun x => OfElem pos x) = [] := by
        refine List.filter_eq_nil_iff.2 fun x hx => ?_
        obtain ⟨w, hw, rfl⟩ := List.mem_map.1 hx
        simpa using hother _ hw
      simp [Function.update_of_ne heq, hempty]
  · have htotal := h.total
    simp only [List.length_append, List.length_map, requests, List.length_cons, List.length_nil]
    rw [BitVec.toNat_add, htotal]
    change (outstanding.length + 2) % 2 ^ 64 = outstanding.length + 2
    omega

end Fill

/-! ### Completions -/

section Complete

variable {c} {t t' : Loop} {x : Request} {rest : List Request} {wc : Completion} {ret : Nat}

@[simp] theorem finish_recvBuf (pos pos' : Nat) :
    ((finish pos t).ring pos').recvBuf = (t.ring pos').recvBuf := by
  by_cases h : pos' = pos <;> simp [finish, h]

@[simp] theorem finish_sendBuf (pos pos' : Nat) :
    ((finish pos t).ring pos').sendBuf = (t.ring pos').sendBuf := by
  by_cases h : pos' = pos <;> simp [finish, h]

@[simp] theorem finish_offset (pos pos' : Nat) :
    ((finish pos t).ring pos').offset = (t.ring pos').offset := by
  by_cases h : pos' = pos <;> simp [finish, h]

@[simp] theorem finish_size (pos pos' : Nat) :
    ((finish pos t).ring pos').size = (t.ring pos').size := by
  by_cases h : pos' = pos <;> simp [finish, h]

@[simp] theorem finish_status (pos : Nat) :
    ((finish pos t).ring pos).status = (t.ring pos).status - 1 := by
  simp [finish]

theorem finish_status_of_ne {pos pos' : Nat} (h : pos' ≠ pos) :
    ((finish pos t).ring pos').status = (t.ring pos').status := by
  simp [finish, h]

theorem Sound.finish {pos : Nat} (h : Sound c t (x :: rest)) (hpos : pos < reqInFlight)
    (hx : OfElem pos x) : Sound c (finish pos t) rest := by
  refine ⟨fun pos' => ?_, ?_, fun y hy => ?_, fun y hy => h.inside y (List.mem_cons_of_mem _ hy),
    fun pos' hpos' => ?_, ?_⟩
  · simpa using h.bufs pos'
  · exact (List.nodup_cons.1 h.nodup).2
  · obtain ⟨pos', hpos', hmem, hchunk⟩ := h.known y (List.mem_cons_of_mem _ hy)
    refine ⟨pos', hpos', ?_, by simpa using hchunk⟩
    rwa [requests_congr (finish_recvBuf pos pos') (finish_sendBuf pos pos')]
  · have hstatus := h.status pos' hpos'
    by_cases heq : pos' = pos
    · subst heq
      rw [List.filter_cons, if_pos (decide_eq_true hx), List.length_cons] at hstatus
      rw [finish_status]
      bv_omega
    · have hother : ¬ OfElem pos' x := fun hof => heq (ofElem_inj hof hx hpos' hpos)
      rw [List.filter_cons, if_neg (by simpa using hother)] at hstatus
      rw [finish_status_of_ne heq, hstatus]
  · have htotal := h.total
    rw [List.length_cons] at htotal
    change (t.outstandingReqs - 1).toNat = _
    bv_omega

theorem Sound.withMem (h : Sound c t rest) (mem : Memory) : Sound c { t with mem := mem } rest :=
  ⟨h.bufs, h.nodup, h.known, h.inside, h.status, h.total⟩

theorem complete_ok (h : Sound c t (x :: rest)) (hwc : Completes x wc)
    (hok : c.complete ret t wc = .ok t') : ∃ pos mem, pos < reqInFlight ∧ OfElem pos x ∧
      t' = { finish pos t with mem := mem } ∧
      match x.1.direction with
      | .send => mem = t.mem
      | .recv => convertEndianess32 x.1.addr (c.dbuf + x.2.offset) (x.2.size / 4) t.mem = .ok mem := by
  obtain ⟨pos, hpos, hmem, hchunk⟩ := h.known x List.mem_cons_self
  have hof : OfElem pos x := ofElem_of_mem_requests hmem
  obtain ⟨hid, hsuccess, hlen⟩ := hwc
  rcases mem_requests hmem with heq | heq
  · have hwrId : wc.wrId = 0x100000000 + pos := by rw [hid, heq]
    rw [heq] at hlen
    rw [complete, if_neg (by rw [hwrId]; rw [reqInFlight] at hpos; omega), hwrId] at hok
    dsimp only at hok
    rw [Nat.add_sub_cancel_left, if_neg (by simp [hsuccess, hlen rfl])] at hok
    obtain ⟨mem, hconvert, hok⟩ := Fallible.bind_eq_ok.1 hok
    refine ⟨pos, mem, hpos, hof, (Except.ok.inj hok).symm, ?_⟩
    rw [heq, hchunk]
    exact hconvert
  · have hwrId : wc.wrId = 0x200000000 + pos := by rw [hid, heq]
    rw [complete, if_pos (by rw [hwrId]; omega), if_neg (by simp [hsuccess]), hwrId,
      Nat.add_sub_cancel_left] at hok
    refine ⟨pos, t.mem, hpos, hof, (Except.ok.inj hok).symm, ?_⟩
    rw [heq]

theorem Sound.complete (h : Sound c t (x :: rest)) (hwc : Completes x wc)
    (hok : c.complete ret t wc = .ok t') : Sound c t' rest := by
  obtain ⟨pos, mem, hpos, hof, rfl, -⟩ := complete_ok h hwc hok
  exact (h.finish hpos hof).withMem mem

/-- An end of the results: all of them come before it, and it is a boundary or they do not reach the
first one. -/
structure Bounds (bound : Nat) : Prop where
  le : c.dbuf + c.size ≤ bound
  boundary : bound % 32 = 0 ∨ c.dbuf % 32 ≠ 0 ∧ c.dbuf % 32 + c.size ≤ 32

theorem complete_mem {bound : Nat} (h : Sound c t (x :: rest)) (hwc : Completes x wc)
    (hok : c.complete ret t wc = .ok t') (hbound : c.Bounds bound) (a : Nat)
    (ha : 4 * a < c.dbuf ∨ bound ≤ 4 * a) : t'.mem a = t.mem a := by
  obtain ⟨pos, mem, -, -, rfl, hmem⟩ := complete_ok h hwc hok
  have hinside := h.inside x List.mem_cons_self
  obtain ⟨hle, hboundary⟩ := hbound
  split at hmem
  · exact congrFun hmem a
  · have hdst : (c.dbuf + x.2.offset) % 4 = 0 := by
      rw [convertEndianess32] at hmem
      split at hmem
      · contradiction
      · omega
    refine convertEndianess32_frame hmem a ?_
    rcases Nat.eq_zero_or_pos (x.2.size / 4) with hzero | hpos
    · rw [hzero]
      have hreach : reach (c.dbuf + x.2.offset) 0 = 0 := by simp [reach]
      rw [hreach]
      omega
    · have hreach : c.dbuf + x.2.offset + 4 * reach (c.dbuf + x.2.offset) (x.2.size / 4) ≤ bound :=
        add_reach_le hdst (by omega) (by omega)
      omega

theorem Sound.batch {done : List Request} {wcs : List Completion} (h : Sound c t (done ++ rest))
    (hcompletes : List.Forall₂ Completes done wcs)
    (hok : wcs.foldlM (c.complete ret) t = .ok t') : Sound c t' rest ∧ t'.sendPos = t.sendPos ∧
      ∀ bound, c.Bounds bound → ∀ a, 4 * a < c.dbuf ∨ bound ≤ 4 * a → t'.mem a = t.mem a := by
  induction hcompletes generalizing t with
  | nil =>
      rw [Fallible.foldlM_nil_eq_ok] at hok
      subst hok
      exact ⟨h, rfl, fun _ _ _ _ => rfl⟩
  | cons hwc hcompletes ih =>
      obtain ⟨t₁, hcomplete, hok⟩ := Fallible.foldlM_cons_eq_ok.1 hok
      obtain ⟨hsound, hpos, hmem⟩ := ih (h.complete hwc hcomplete) hok
      obtain ⟨pos, mem, -, -, heq, -⟩ := complete_ok h hwc hcomplete
      refine ⟨hsound, hpos.trans (by rw [heq]; rfl), fun bound hbound a ha => ?_⟩
      exact (hmem bound hbound a ha).trans (complete_mem h hwc hcomplete hbound a ha)

theorem Sound.conversions {done : List Request} {wcs : List Completion} (h : Sound c t rest)
    (hdone : ∀ x ∈ done, x ∈ rest) (hcompletes : List.Forall₂ Completes done wcs) :
    wcs.filterMap (conversion? t) =
      (done.filter fun x => x.1.direction = .recv).map fun x => ⟨x.1.addr, x.2⟩ := by
  induction hcompletes with
  | nil => rfl
  | @cons x wc done wcs hwc _ ih =>
      have hrest := ih fun y hy => hdone y (List.mem_cons_of_mem _ hy)
      obtain ⟨pos, hpos, hmem, hchunk⟩ := h.known x (hdone x List.mem_cons_self)
      obtain ⟨hid, -⟩ := hwc
      rcases mem_requests hmem with heq | heq
      · have hwrId : wc.wrId = 0x100000000 + pos := by rw [hid, heq]
        have hconversion : conversion? t wc = some ⟨x.1.addr, x.2⟩ := by
          rw [conversion?, if_neg (by rw [hwrId]; rw [reqInFlight] at hpos; omega), hwrId,
            Nat.add_sub_cancel_left, heq, hchunk]
        rw [List.filterMap_cons_some hconversion, hrest, List.filter_cons,
          if_pos (by rw [heq]; rfl), List.map_cons]
      · have hwrId : wc.wrId = 0x200000000 + pos := by rw [hid, heq]
        have hconversion : conversion? t wc = none := by
          rw [conversion?, if_pos (by rw [hwrId]; omega)]
        rw [List.filterMap_cons_none hconversion, hrest, List.filter_cons,
          if_neg (by rw [heq]; simp)]

end Complete

/-! ### Buffers -/

section Buffers

variable {c} {t : Loop} {outstanding : List Request} {x : Request} {a : Nat}

theorem size_eq : c.size = 4 * c.count := by
  have hroom := c.room
  rw [size]
  omega

theorem Sound.covers (h : Sound c t outstanding) (hx : x ∈ outstanding) (ha : x.1.Covers a) :
    ∃ pos < reqInFlight, OfElem pos x ∧
      (x.1.direction = .send → c.ibBuf + pos * chunkSize ≤ 4 * a ∧
        4 * a < c.ibBuf + pos * chunkSize + chunkSize) ∧
      (x.1.direction = .recv → c.ibBuf + bufSize + pos * chunkSize ≤ 4 * a ∧
        4 * a < c.ibBuf + bufSize + pos * chunkSize + chunkSize) := by
  obtain ⟨pos, hpos, hmem, -⟩ := h.known x hx
  obtain ⟨hrecv, hsend⟩ := h.bufs pos
  refine ⟨pos, hpos, ofElem_of_mem_requests hmem, ?_⟩
  rcases mem_requests hmem with heq | heq
  · rw [WorkRequest.Covers, heq, hrecv] at ha
    rw [heq]
    exact ⟨fun hd => by contradiction, fun _ => ha⟩
  · rw [WorkRequest.Covers, heq, hsend] at ha
    rw [heq]
    exact ⟨fun _ => ha, fun hd => by contradiction⟩

/-- The buffers of the channel are not among the results, nor is there one between the last result and
the next boundary. -/
theorem exists_bounds (ha : c.ibBuf ≤ 4 * a ∧ 4 * a < c.ibBuf + 2 * (reqInFlight * chunkSize)) :
    ∃ bound, c.Bounds bound ∧ (4 * a < c.dbuf ∨ bound ≤ 4 * a) := by
  have haligned := c.aligned
  have hsize := size_eq (c := c)
  rcases c.separate with hbefore | hafter
  · exact ⟨c.ibBuf, ⟨by omega, Or.inl (by omega)⟩, Or.inr ha.1⟩
  · exact ⟨(c.dbuf + c.size + 31) / 32 * 32, ⟨by omega, Or.inl (by omega)⟩, Or.inl (by omega)⟩

theorem Sound.mem_ibBuf (h : Sound c t outstanding) (hx : x ∈ outstanding) (ha : x.1.Covers a) :
    c.ibBuf ≤ 4 * a ∧ 4 * a < c.ibBuf + 2 * (reqInFlight * chunkSize) := by
  obtain ⟨pos, hpos, -, hsend, hrecv⟩ := h.covers hx ha
  rw [bufSize, chunkSize] at hrecv
  rw [chunkSize] at hsend
  rw [reqInFlight] at hpos
  rw [reqInFlight] at hrecv
  rw [reqInFlight, chunkSize]
  cases hd : x.1.direction with
  | send =>
      have hcover := hsend hd
      omega
  | recv =>
      have hcover := hrecv hd
      omega

/-- Filling an element writes to its buffer for sending only. -/
theorem Sound.fill_mem {filled : Loop} {posted : List WorkRequest} (h : Sound c t outstanding)
    (hfill : c.fill t = .ok (filled, posted)) :
    filled.mem = t.mem ∧ posted = [] ∨ ∃ next < reqInFlight, (t.ring next).status = 0 ∧
      posted = requests next (t.ring next) ∧
      ∀ a, 4 * a < c.ibBuf + next * chunkSize ∨ c.ibBuf + next * chunkSize + chunkSize ≤ 4 * a →
        filled.mem a = t.mem a := by
  rcases fill_ok hfill with ⟨rfl, rfl⟩ |
    ⟨next, toSend, mem, heq, htoSend, -, hfree, hconvert, rfl, rfl⟩
  · exact Or.inl ⟨rfl, rfl⟩
  · have hnext : next < reqInFlight := heq ▸ Nat.mod_lt _ (by decide)
    have hle : toSend ≤ chunkSize := htoSend ▸ Nat.min_le_left ..
    refine Or.inr ⟨next, hnext, hfree, rfl, fun a ha => convertEndianess32_frame hconvert a ?_⟩
    have haligned := c.aligned
    rw [(h.bufs next).2]
    rw [chunkSize] at ha hle ⊢
    have hreach : c.ibBuf + next * 16384 + 4 * reach (c.ibBuf + next * 16384) (toSend / 4) ≤
        c.ibBuf + next * 16384 + 16384 := add_reach_le (by omega) (by omega) (by omega)
    omega

end Buffers

/-! ### Rounds -/

section Rounds

variable {c} {t t' : Run} {e : Event} {filled : Loop} {posted : List WorkRequest}

theorem Tiles.append {start stop : Nat} {chunks : List Chunk} {chunk : Chunk}
    (h : Tiles start chunks stop) (hoffset : chunk.offset = stop) (hpos : 0 < chunk.size)
    (hle : chunk.size ≤ chunkSize) : Tiles start (chunks ++ [chunk]) (stop + chunk.size) := by
  induction chunks generalizing start with
  | nil =>
      obtain rfl : start = stop := h
      exact ⟨hoffset, hpos, hle, rfl⟩
  | cons first chunks ih =>
      obtain ⟨hfirst, hpos', hle', hrest⟩ := h
      exact ⟨hfirst, hpos', hle', ih hrest⟩

theorem Rounds.sound_filled (h : c.Rounds t e t' filled posted) (ht : Sound c t.loop t.outstanding) :
    Sound c { filled with mem := e.nic } (e.done ++ t'.outstanding) :=
  ((ht.fill h.fill).perm h.done).withMem e.nic

theorem Rounds.sound (h : c.Rounds t e t' filled posted) (ht : Sound c t.loop t.outstanding) :
    Sound c t'.loop t'.outstanding :=
  ((h.sound_filled ht).batch h.completes h.loop).1

theorem Rounds.fresh (h : c.Rounds t e t' filled posted) (ht : Sound c t.loop t.outstanding) :
    ∀ x ∈ t.outstanding, ∀ w ∈ posted, ∀ a, x.1.Covers a → ¬ w.Covers a := by
  intro x hx w hw a ha hwa
  rcases ht.fill_mem h.fill with ⟨-, hnone⟩ | ⟨next, hnext, hfree, hposted, -⟩
  · rw [hnone] at hw
    contradiction
  obtain ⟨pos, hpos, hof, hsend, hrecv⟩ := ht.covers hx ha
  have hne : pos ≠ next := by
    rintro rfl
    exact ht.not_ofElem hnext hfree x hx hof
  obtain ⟨hrecvBuf, hsendBuf⟩ := ht.bufs next
  rw [hposted] at hw
  rw [bufSize] at hrecv hrecvBuf
  rw [reqInFlight] at hpos hnext hrecv hrecvBuf
  rw [chunkSize] at hsend hrecv hrecvBuf hsendBuf
  -- the buffers of two elements, and the two of one element, are apart
  rcases mem_requests hw with heq | heq
  · rw [WorkRequest.Covers, heq, hrecvBuf, chunkSize] at hwa
    dsimp only at hwa
    cases hd : x.1.direction with
    | send =>
        have hcover := hsend hd
        omega
    | recv =>
        have hcover := hrecv hd
        omega
  · rw [WorkRequest.Covers, heq, hsendBuf, chunkSize] at hwa
    dsimp only at hwa
    cases hd : x.1.direction with
    | send =>
        have hcover := hsend hd
        omega
    | recv =>
        have hcover := hrecv hd
        omega

theorem Rounds.untouched (h : c.Rounds t e t' filled posted) (ht : Sound c t.loop t.outstanding) :
    ∀ x ∈ t.outstanding, ∀ a, x.1.Covers a → filled.mem a = t.loop.mem a := by
  intro x hx a ha
  rcases ht.fill_mem h.fill with ⟨hmem, -⟩ | ⟨next, hnext, hfree, hposted, hmem⟩
  · rw [hmem]
  refine hmem a (by_contra fun hin => ?_)
  refine h.fresh ht x hx ⟨.send, 0x200000000 + next, (t.loop.ring next).sendBuf, chunkSize⟩ ?_ a ha ?_
  · rw [hposted]
    exact List.mem_cons_of_mem _ (List.mem_singleton_self _)
  · rw [WorkRequest.Covers, (ht.bufs next).2]
    dsimp only
    omega

theorem Rounds.kept (h : c.Rounds t e t' filled posted) (ht : Sound c t.loop t.outstanding) :
    ∀ x ∈ t.outstanding ++ posted.map (·, chunkBetween t.loop filled), ∀ a, x.1.Covers a →
      t'.loop.mem a = e.nic a ∧ (x.1.direction = .send → e.nic a = filled.mem a) := by
  intro x hx a ha
  have hfilled := ht.fill h.fill
  refine ⟨?_, fun hd => by_contra fun hne => ?_⟩
  · obtain ⟨bound, hbound, hout⟩ := exists_bounds (hfilled.mem_ibBuf hx ha)
    exact ((h.sound_filled ht).batch h.completes h.loop).2.2 bound hbound a hout
  · obtain ⟨y, hy, hd', hya⟩ := h.nic a hne
    obtain ⟨pos, hpos, -, hsend, -⟩ := hfilled.covers hx ha
    obtain ⟨pos', -, -, -, hrecv⟩ := hfilled.covers hy hya
    have hx' := hsend hd
    have hy' := hrecv hd'
    rw [bufSize] at hy'
    rw [reqInFlight] at hpos hy'
    rw [chunkSize] at hx' hy'
    omega

end Rounds

theorem sound_start (mem : Memory) : Sound c (c.start mem) [] :=
  ⟨fun _ => ⟨rfl, rfl⟩, List.nodup_nil, fun _ h => by contradiction, fun _ h => by contradiction,
    fun _ _ => rfl, rfl⟩

namespace Reordered

/-- 4097 words, so that the second chunk is one word. -/
def call : Allreduce where
  sbuf := 0x100000
  dbuf := 0x200000
  count := 4097
  ibBuf := 0x400000
  aligned := by decide
  separate := by decide
  room := by decide

def filled (t : Run) : Loop × List WorkRequest := ((call.fill t.loop).toOption).getD (t.loop, [])

/-- The requests that may be done in a round. -/
def postable (t : Run) : List Request :=
  t.outstanding ++ (filled t).2.map (·, chunkBetween t.loop (filled t).1)

def completions (done : List Request) : List Completion :=
  done.map fun x => ⟨x.1.wrId, true, chunkSize⟩

def round (t : Run) (done : List Request) : Event × Run :=
  (⟨(filled t).1.mem, done, completions done⟩,
    { loop := (((completions done).foldlM (call.complete done.length) (filled t).1).toOption).getD t.loop
      outstanding := (postable t).diff done
      chunks := t.chunks ++
        if (filled t).2 = [] then [] else [chunkBetween t.loop (filled t).1]
      conversions := t.conversions ++ (completions done).filterMap (conversion? (filled t).1) })

def doneAt (t : Run) (places : List Nat) : List Request := places.filterMap fun i => (postable t)[i]?

def rounds (t : Run) : List (List Nat) → List (Event × Run)
  | [] => []
  | places :: rest => round t (doneAt t places) :: rounds (round t (doneAt t places)).2 rest

/-- Whether a round goes on without an exception, and its requests are among the outstanding ones. -/
def Goes (t : Run) (done : List Request) : Prop :=
  call.Continues t.loop ∧ (call.fill t.loop).toBool = true ∧
    (postable t).Perm (done ++ (postable t).diff done) ∧ done.length ≤ 2 * reqInFlight ∧
    ((completions done).foldlM (call.complete done.length) (filled t).1).toBool = true

instance (t : Run) (done : List Request) : Decidable (Goes t done) :=
  inferInstanceAs (Decidable (_ ∧ _ ∧ _ ∧ _ ∧ _))

def GoOn : Run → List (List Nat) → Prop
  | _, [] => True
  | t, places :: rest => Goes t (doneAt t places) ∧ GoOn (round t (doneAt t places)).2 rest

instance GoOn.decidable : ∀ t rest, Decidable (GoOn t rest)
  | _, [] => isTrue trivial
  | t, places :: rest =>
      have := GoOn.decidable (round t (doneAt t places)).2 rest
      inferInstanceAs (Decidable (_ ∧ _))

/-- Nothing is done at first, then both sends and the second receive, the first receive last. -/
def places : List (List Nat) := [[], [3, 2, 1], [], [0]]

end Reordered

end Allreduce

end ClientLib

end Mpitofino
