import Mpitofino.Client.RingLoop

/-!
# The memory of the user

A result is written up to the 32 byte boundary after it, unless it ends before the first boundary. So
`allreduce` leaves the user's memory around the results alone exactly when the last one ends at a
boundary, or all of them come before the first one.
-/

namespace Mpitofino

namespace ClientLib

namespace Allreduce

variable (c : Allreduce)

/-- A word that is not of the buffer of the channel. -/
def UserWord (a : Nat) : Prop :=
  4 * a < c.ibBuf ∨ c.ibBuf + 2 * (reqInFlight * chunkSize) ≤ 4 * a

/-- In no run a word of the user changes but those of the results. -/
def LeavesUserMemory : Prop := ∀ mem run, Along c.Iterates (Run.start c mem) run →
  ∀ x ∈ run, ∀ a, c.UserWord a → a < c.dbuf / 4 ∨ c.dbuf / 4 + c.count ≤ a → x.2.loop.mem a = mem a

/-! ### Results that fit -/

section Frame

variable {c} {t t' : Run} {e : Event} {filled : Loop} {posted : List WorkRequest}

theorem Rounds.user_mem {bound a : Nat} (h : c.Rounds t e t' filled posted)
    (ht : Sound c t.loop t.outstanding) (hbound : c.Bounds bound) (huser : c.UserWord a)
    (ha : 4 * a < c.dbuf ∨ bound ≤ 4 * a) : t'.loop.mem a = t.loop.mem a := by
  have hbatch := ((h.sound_filled ht).batch h.completes h.loop).2.2 bound hbound a ha
  have hnic : e.nic a = filled.mem a := by
    by_contra hne
    obtain ⟨x, hx, -, hcovers⟩ := h.nic a hne
    have hin := (ht.fill h.fill).mem_ibBuf hx hcovers
    rcases huser with huser | huser <;> omega
  have hfilled : filled.mem a = t.loop.mem a := by
    rcases ht.fill_mem h.fill with ⟨hmem, -⟩ | ⟨next, hnext, -, -, hmem⟩
    · rw [hmem]
    · refine hmem a ?_
      rw [UserWord, reqInFlight, chunkSize] at huser
      rw [reqInFlight] at hnext
      rw [chunkSize]
      omega
  exact hbatch.trans (hnic.trans hfilled)

theorem leavesUserMemory_of_fits (hdbuf : c.dbuf % 4 = 0) (hfits : Fits c.dbuf c.count) :
    c.LeavesUserMemory := by
  intro mem run hrun x hx a huser ha
  have hbound : c.Bounds (c.dbuf + 4 * c.count) := by
    refine ⟨by rw [size_eq], ?_⟩
    rw [size_eq]
    exact hfits
  have hall := hrun.invariant (I := fun t => Sound c t.loop t.outstanding ∧ t.loop.mem a = mem a)
    (fun t e t' ht hround => ?_) ⟨sound_start c mem, rfl⟩ x hx
  · exact hall.2
  · obtain ⟨hsound, hmem⟩ := ht
    obtain ⟨filled, posted, hround⟩ := hround
    exact ⟨hround.sound hsound,
      (hround.user_mem hsound hbound huser (by omega)).trans hmem⟩

end Frame

/-! ### Results that do not fit -/

structure Idle (j : Nat) (t : Run) : Prop where
  sound : Sound c t.loop t.outstanding
  outstanding : t.outstanding = []
  sendPos : t.loop.sendPos = j * chunkSize
  ringPos : t.loop.ringPos = j % reqInFlight

section Beyond

variable {c} {t : Run} {j : Nat}

theorem Idle.status (h : c.Idle j t) {pos : Nat} (hpos : pos < reqInFlight) :
    (t.loop.ring pos).status = 0 := by
  have hstatus := h.sound.status pos hpos
  rw [h.outstanding] at hstatus
  exact BitVec.eq_of_toNat_eq hstatus

theorem complete_recv {loop : Loop} {ret pos : Nat} {mem : Memory} (hpos : pos < reqInFlight)
    (hconvert : convertEndianess32 (loop.ring pos).recvBuf (c.dbuf + (loop.ring pos).offset)
      ((loop.ring pos).size / 4) loop.mem = .ok mem) :
    c.complete ret loop ⟨0x100000000 + pos, true, chunkSize⟩ =
      .ok { finish pos loop with mem := mem } := by
  rw [reqInFlight] at hpos
  rw [complete, if_neg (by dsimp only; omega)]
  dsimp only
  rw [if_neg (by simp), Nat.add_sub_cancel_left, hconvert]
  rfl

theorem complete_send {loop : Loop} {ret pos len : Nat} :
    c.complete ret loop ⟨0x200000000 + pos, true, len⟩ = .ok (finish pos loop) := by
  rw [complete, if_pos (Nat.le_add_right ..), if_neg (by simp)]
  dsimp only
  rw [Nat.add_sub_cancel_left]

def nextPos (j : Nat) : Nat := (j + 1) % reqInFlight

variable (c) in
def nextLoop (j : Nat) (loop : Loop) (mem : Memory) : Loop where
  ring := Function.update loop.ring (nextPos j) {
    loop.ring (nextPos j) with
    status := 2
    offset := j * chunkSize
    size := min chunkSize (c.size - j * chunkSize) }
  sendPos := j * chunkSize + min chunkSize (c.size - j * chunkSize)
  outstandingReqs := loop.outstandingReqs + 2
  ringPos := nextPos j
  mem := mem

theorem Idle.exists_fill (h : c.Idle j t) (hsbuf : c.sbuf % 4 = 0) (hmore : j * chunkSize < c.size) :
    ∃ mem, (∀ a, 4 * a < c.ibBuf ∨ c.ibBuf + bufSize ≤ 4 * a → mem a = t.loop.mem a) ∧
      c.fill t.loop = .ok (c.nextLoop j t.loop mem, requests (nextPos j) (t.loop.ring (nextPos j))) := by
  have hnext : nextPos j < reqInFlight := Nat.mod_lt _ (by decide)
  have hsend := (h.sound.bufs (nextPos j)).2
  have haligned := c.aligned
  obtain ⟨mem, hconvert⟩ : ∃ mem, convertEndianess32 (c.sbuf + j * chunkSize)
      (t.loop.ring (nextPos j)).sendBuf (min chunkSize (c.size - j * chunkSize) / 4) t.loop.mem =
        .ok mem :=
    convertEndianess32_isOk (by rw [chunkSize]; omega) (by rw [hsend, chunkSize]; omega) t.loop.mem
  have hfill : c.fill t.loop =
      .ok (c.nextLoop j t.loop mem, requests (nextPos j) (t.loop.ring (nextPos j))) := by
    rw [fill, h.sendPos, if_pos hmore, h.ringPos, Nat.mod_add_mod, ← nextPos]
    dsimp only
    rw [if_pos (h.status hnext), hconvert]
    rfl
  refine ⟨mem, fun a ha => ?_, hfill⟩
  rcases h.sound.fill_mem hfill with ⟨-, hnone⟩ | ⟨next, hlt, -, -, hmem⟩
  · contradiction
  · refine hmem a ?_
    rw [bufSize, chunkSize, reqInFlight] at ha
    rw [reqInFlight] at hlt
    rw [chunkSize]
    omega

theorem Idle.exists_round (h : c.Idle j t) (hsbuf : c.sbuf % 4 = 0) (hdbuf : c.dbuf % 4 = 0)
    (hmore : j * chunkSize < c.size) : ∃ e t' mem, c.Iterates t e t' ∧
      (∀ a, 4 * a < c.ibBuf ∨ c.ibBuf + bufSize ≤ 4 * a → mem a = t.loop.mem a) ∧
      convertEndianess32 (c.ibBuf + bufSize + nextPos j * chunkSize) (c.dbuf + j * chunkSize)
        (min chunkSize (c.size - j * chunkSize) / 4) mem = .ok t'.loop.mem ∧
      ((j + 1) * chunkSize ≤ c.size → c.Idle (j + 1) t') := by
  obtain ⟨mem, hframe, hfill⟩ := h.exists_fill hsbuf hmore
  have hnext : nextPos j < reqInFlight := Nat.mod_lt _ (by decide)
  have hring : (c.nextLoop j t.loop mem).ring (nextPos j) = {
      t.loop.ring (nextPos j) with
      status := 2
      offset := j * chunkSize
      size := min chunkSize (c.size - j * chunkSize) } := Function.update_self ..
  have haligned := c.aligned
  obtain ⟨mem', hconvert⟩ : ∃ mem', convertEndianess32
      (c.ibBuf + bufSize + nextPos j * chunkSize) (c.dbuf + j * chunkSize)
      (min chunkSize (c.size - j * chunkSize) / 4) mem = .ok mem' :=
    convertEndianess32_isOk (by rw [bufSize, chunkSize]; omega) (by rw [chunkSize]; omega) mem
  let chunk := chunkBetween t.loop (c.nextLoop j t.loop mem)
  let posted := requests (nextPos j) (t.loop.ring (nextPos j))
  let wcs : List Completion :=
    [⟨0x100000000 + nextPos j, true, chunkSize⟩, ⟨0x200000000 + nextPos j, true, chunkSize⟩]
  let loop' := finish (nextPos j) { finish (nextPos j) (c.nextLoop j t.loop mem) with mem := mem' }
  have hloop : wcs.foldlM (c.complete wcs.length) (c.nextLoop j t.loop mem) = .ok loop' := by
    have hrecv : convertEndianess32 ((c.nextLoop j t.loop mem).ring (nextPos j)).recvBuf
        (c.dbuf + ((c.nextLoop j t.loop mem).ring (nextPos j)).offset)
        (((c.nextLoop j t.loop mem).ring (nextPos j)).size / 4) mem = .ok mem' := by
      rw [hring, (h.sound.bufs (nextPos j)).1]
      exact hconvert
    refine Fallible.foldlM_cons_eq_ok.2 ⟨_, complete_recv hnext hrecv, ?_⟩
    exact Fallible.foldlM_cons_eq_ok.2 ⟨_, complete_send, Fallible.foldlM_nil_eq_ok.2 rfl⟩
  have hround : c.Rounds t ⟨(c.nextLoop j t.loop mem).mem, posted.map (·, chunk), wcs⟩
      ⟨loop', [], t.chunks ++ [chunk],
        t.conversions ++ wcs.filterMap (conversion? (c.nextLoop j t.loop mem))⟩
      (c.nextLoop j t.loop mem) posted := by
    refine ⟨Or.inl (by rwa [h.sendPos]), hfill, fun a ha => absurd rfl ha, ?_,
      show 2 ≤ 2 * reqInFlight by decide, ?_, hloop, rfl, rfl⟩
    · rw [h.outstanding, List.nil_append, List.append_nil]
    · exact .cons ⟨rfl, rfl, fun _ => rfl⟩ (.cons ⟨rfl, rfl, fun _ => rfl⟩ .nil)
  refine ⟨_, _, mem, ⟨_, posted, hround⟩, hframe, hconvert, fun hle => ?_⟩
  refine ⟨hround.sound h.sound, rfl, ?_, rfl⟩
  change j * chunkSize + min chunkSize (c.size - j * chunkSize) = (j + 1) * chunkSize
  rw [chunkSize] at hle ⊢
  omega

/-- The words that results are converted from, with the ones that the last block may reach. -/
def Sources (c : Allreduce) (a : Nat) : Prop :=
  c.ibBuf + bufSize ≤ 4 * a ∧ 4 * a < c.ibBuf + 2 * bufSize + 32 ∧ a ≠ c.dbuf / 4 + c.count

theorem sources_of_lt (hdbuf : c.dbuf % 4 = 0) (hmore : j * chunkSize < c.size) (i : Nat)
    (hi : i < min chunkSize (c.size - j * chunkSize) / 4 + 8) :
    c.Sources ((c.ibBuf + bufSize + nextPos j * chunkSize) / 4 + i) := by
  have hseparate := c.separate
  have haligned := c.aligned
  have hsize := size_eq (c := c)
  rw [Sources, bufSize, nextPos, reqInFlight, chunkSize]
  rw [reqInFlight, chunkSize] at hseparate
  rw [chunkSize] at hmore hi
  omega

/-- A chunk that does not cover the word after the results is followed by one that does not fit. -/
theorem not_fits_next {p r : Nat} (hp : p % 4 = 0) (hfits : ¬ Fits p r)
    (huncovered : reach p (min 4096 r) ≤ r) : 4096 ≤ r ∧ ¬ Fits (p + 16384) (r - 4096) := by
  have hlt : 4096 ≤ r := by
    by_contra hlt
    rw [Nat.min_eq_right (by omega)] at huncovered
    exact hfits ((reach_eq_iff hp).1 (Nat.le_antisymm huncovered count_le_reach))
  refine ⟨hlt, ?_⟩
  rw [Nat.min_eq_left hlt, reach, head] at huncovered
  rw [Fits] at hfits ⊢
  split at huncovered <;> omega

theorem Idle.exists_beyond (h : c.Idle j t) (hsbuf : c.sbuf % 4 = 0) (hdbuf : c.dbuf % 4 = 0)
    (hfits : ¬ Fits (c.dbuf + j * chunkSize) ((c.size - j * chunkSize) / 4))
    (hzero : ∀ a, c.Sources a → t.loop.mem a = 0) :
    ∃ run, Along c.Iterates t run ∧ ∃ x ∈ run, x.2.loop.mem (c.dbuf / 4 + c.count) = 0 := by
  have hsize := size_eq (c := c)
  induction hrest : c.size - j * chunkSize using Nat.strong_induction_on generalizing j t with
  | _ rest ih =>
      have hmore : j * chunkSize < c.size := by
        by_contra hdone
        rw [Nat.sub_eq_zero_of_le (by omega)] at hfits
        refine hfits ?_
        rw [Fits]
        omega
      obtain ⟨e, t', mem, hiterates, hframe, hconvert, hidle⟩ := h.exists_round hsbuf hdbuf hmore
      have hwritten := convertEndianess32_zero hconvert (sources_of_lt hdbuf hmore)
        fun a ha => (hframe a (Or.inr ha.1)).trans (hzero a ha)
      have hcount : min chunkSize (c.size - j * chunkSize) / 4 =
          min 4096 ((c.size - j * chunkSize) / 4) := by
        rw [chunkSize]
        omega
      rw [hcount] at hwritten
      by_cases hcovered : (c.size - j * chunkSize) / 4 <
          reach (c.dbuf + j * chunkSize) (min 4096 ((c.size - j * chunkSize) / 4))
      · refine ⟨[(e, t')], ⟨hiterates, trivial⟩, _, List.mem_singleton_self _, ?_⟩
        refine hwritten _ (Or.inr ?_)
        rw [chunkSize] at hmore hcovered ⊢
        omega
      · obtain ⟨hfull, hfits'⟩ := not_fits_next (by rw [chunkSize]; omega) hfits (not_lt.1 hcovered)
        have hnext : c.dbuf + (j + 1) * chunkSize = c.dbuf + j * chunkSize + 16384 := by
          rw [chunkSize]
          omega
        have hrest' : (c.size - (j + 1) * chunkSize) / 4 = (c.size - j * chunkSize) / 4 - 4096 := by
          rw [chunkSize]
          omega
        have hle : (j + 1) * chunkSize ≤ c.size := by
          rw [chunkSize] at hfull ⊢
          omega
        obtain ⟨run, hrun, x, hx, hmem⟩ := ih (c.size - (j + 1) * chunkSize)
          (by rw [chunkSize] at hmore ⊢; rw [← hrest, chunkSize]; omega) (hidle hle)
          (by rwa [hnext, hrest']) (fun a ha => hwritten a (Or.inl ha)) rfl
        exact ⟨(e, t') :: run, ⟨hiterates, hrun⟩, x, List.mem_cons_of_mem _ hx, hmem⟩

end Beyond

/-- In no run a word of the user changes but those of the results if and only if the results fit. -/
theorem leavesUserMemory_iff (hsbuf : c.sbuf % 4 = 0) (hdbuf : c.dbuf % 4 = 0) :
    c.LeavesUserMemory ↔ Fits c.dbuf c.count := by
  refine ⟨fun hleaves => by_contra fun hfits => ?_, leavesUserMemory_of_fits hdbuf⟩
  have hsize := size_eq (c := c)
  -- all words are zero but the one after the results
  let mem : Memory := Function.update (fun _ => 0) (c.dbuf / 4 + c.count) 1
  have hidle : c.Idle 0 (Run.start c mem) := ⟨sound_start c mem, rfl, by simp [Run.start, start], rfl⟩
  obtain ⟨run, hrun, x, hx, hwritten⟩ := hidle.exists_beyond hsbuf hdbuf
    (by rwa [Nat.zero_mul, Nat.add_zero, Nat.sub_zero, hsize, Nat.mul_div_cancel_left _ (by decide)])
    fun a ha => show mem a = 0 from Function.update_of_ne ha.2.2 ..
  have huser : c.UserWord (c.dbuf / 4 + c.count) := by
    have hseparate := c.separate
    have haligned := c.aligned
    rw [Fits] at hfits
    rw [UserWord, reqInFlight, chunkSize]
    rw [reqInFlight, chunkSize] at hseparate
    omega
  have hkept := hleaves mem run hrun x hx _ huser (Or.inr (Nat.le_refl _))
  have hone : mem (c.dbuf / 4 + c.count) = 1 := Function.update_self ..
  rw [hwritten, hone] at hkept
  exact absurd hkept (by decide)

end Allreduce

/-- **Frame.** The conversion writes only its destination, and `allreduce` only its results, exactly when
they end at a 32 byte boundary or before the first one. -/
theorem writesOnly_and_leavesUserMemory_iff (src dst count : Nat) (hsrc : src % 4 = 0)
    (hdst : dst % 4 = 0) (hseparate : src + 4 * count ≤ dst ∨ dst + 4 * count ≤ src) (c : Allreduce)
    (hsbuf : c.sbuf % 4 = 0) (hdbuf : c.dbuf % 4 = 0) :
    (WritesOnly src dst count ↔ Fits dst count) ∧ (c.LeavesUserMemory ↔ Fits c.dbuf c.count) :=
  ⟨writesOnly_iff hsrc hdst hseparate, c.leavesUserMemory_iff hsbuf hdbuf⟩

/-! ### One word -/

namespace OneWord

/-- A result of one word at a boundary. -/
def call : Allreduce where
  sbuf := 0x100000
  dbuf := 0x200000
  count := 1
  ibBuf := 0x400000
  aligned := Allreduce.Reordered.call.aligned
  separate := by decide
  room := by decide

/-- The seven words after it are overwritten. -/
theorem not_writesOnly : ((convertEndianess32 0x1000 0x2000 1 fun _ => 1).toOption.map fun mem =>
      (List.range 9).map fun i => mem (0x2000 / 4 + i)) =
      some [0x1000000, 0x1000000, 0x1000000, 0x1000000, 0x1000000, 0x1000000, 0x1000000, 0x1000000, 1] ∧
    ¬ WritesOnly 0x1000 0x2000 1 ∧ ¬ call.LeavesUserMemory := by
  refine ⟨by decide +kernel, ?_, ?_⟩
  · rw [writesOnly_iff (by decide) (by decide) (by decide)]
    decide
  · rw [call.leavesUserMemory_iff (by decide) (by decide)]
    decide

/-- A result that ends at a boundary. -/
def upToBoundary : Allreduce := { call with dbuf := 0x20001c, separate := by decide, room := by decide }

/-- Three words that end before the first boundary, a result of one word that ends at one, and a result
that does neither. -/
theorem before_boundary : (WritesOnly 0x1000 0x2010 3 ∧ upToBoundary.LeavesUserMemory) ∧
    ¬ call.LeavesUserMemory := by
  have hframe := writesOnly_and_leavesUserMemory_iff 0x1000 0x2010 3 (by decide) (by decide) (by decide)
  obtain ⟨honly, hleaves⟩ := hframe upToBoundary (by decide) (by decide)
  exact ⟨⟨honly.2 (by decide), hleaves.2 (by decide)⟩,
    fun h => absurd ((hframe call (by decide) (by decide)).2.1 h) (by decide)⟩

end OneWord

end ClientLib

end Mpitofino
