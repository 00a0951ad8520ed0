import Mathlib.Logic.Function.Basic
import Mathlib.Tactic.IntervalCases

/-!
# The conversion of words

`convert_endianess_32` of the client library. Words before the first 32 byte boundary of the
destination are written one by one, then eight at a time. The second loop runs while its first word is
one of the `count` words, so that the last block may reach beyond them.

A pointer is the address of a byte, memory is read and written by words.
-/

namespace Mpitofino

namespace ClientLib

/-- The memory of a process, by the indices of its words of 32 bits. -/
abbrev Memory := Nat → BitVec 32

def swapBytes (v : BitVec 32) : BitVec 32 :=
  (v &&& 0xff) <<< 24 ||| (v &&& 0xff00) <<< 8 ||| (v &&& 0xff0000) >>> 8 |||
    (v &&& 0xff000000) >>> 24

/-- What `_mm256_shuffle_epi8` does to each word with the mask 3, 2, 1, 0, .. -/
def shuffle (v : BitVec 32) : BitVec 32 :=
  v.extractLsb' 0 8 ++ v.extractLsb' 8 8 ++ v.extractLsb' 16 8 ++ v.extractLsb' 24 8

def wordAt (p i : Nat) : Nat := p / 4 + i

def writeWord (src dst i : Nat) (mem : Memory) : Memory :=
  Function.update mem (wordAt dst i) (swapBytes (mem (wordAt src i)))

/-- Eight words are read, then written. -/
def writeBlock (src dst i : Nat) (mem : Memory) : Memory := fun a =>
  if wordAt dst i ≤ a ∧ a < wordAt dst i + 8 then shuffle (mem (wordAt src (a - dst / 4))) else mem a

/-- Beginning of the buffer, until the destination is 32 byte aligned. -/
def alignLoop (src dst count : Nat) : Nat → Nat → Memory → Nat × Memory
  | 0, i, mem => (i, mem)
  | fuel + 1, i, mem =>
      if i < count ∧ (dst + 4 * i) % 32 ≠ 0 then
        alignLoop src dst count fuel (i + 1) (writeWord src dst i mem)
      else (i, mem)

def fastLoop (src dst count : Nat) : Nat → Nat → Memory → Nat × Memory
  | 0, i, mem => (i, mem)
  | fuel + 1, i, mem =>
      if i < count then fastLoop src dst count fuel (i + 8) (writeBlock src dst i mem) else (i, mem)

def wordLoop (src dst count : Nat) : Nat → Nat → Memory → Memory
  | 0, _, mem => mem
  | fuel + 1, i, mem =>
      if i < count then wordLoop src dst count fuel (i + 1) (writeWord src dst i mem) else mem

/-- Every loop ends after at most `count` rounds. -/
def convertEndianess32 (src dst count : Nat) (mem : Memory) : Except String Memory :=
  if src % 4 ≠ 0 ∨ dst % 4 ≠ 0 then .error "uint32_t* not aligned to 4 bytes"
  else
    let (i, mem) := alignLoop src dst count count 0 mem
    let (i, mem) := fastLoop src dst count count i mem
    .ok (if i ≠ count then wordLoop src dst count count (i - 8) mem else mem)

/-! ### How far the loops come -/

/-- The words before the first 32 byte boundary. -/
def head (dst : Nat) : Nat := (8 - dst / 4 % 8) % 8

/-- How many words are written. -/
def reach (dst count : Nat) : Nat :=
  if count ≤ head dst then count else head dst + 8 * ((count - head dst + 7) / 8)

section Loops

variable {src dst count : Nat} {fuel i : Nat} {mem : Memory}

theorem alignLoop_invariant {Q : Nat → Memory → Prop}
    (hround : ∀ i mem, i < count → (dst + 4 * i) % 32 ≠ 0 → Q i mem →
      Q (i + 1) (writeWord src dst i mem)) (h : Q i mem) :
    Q (alignLoop src dst count fuel i mem).1 (alignLoop src dst count fuel i mem).2 := by
  induction fuel generalizing i mem with
  | zero => exact h
  | succ fuel ih =>
      rw [alignLoop]
      split
      · rename_i hi
        exact ih (hround i mem hi.1 hi.2 h)
      · exact h

theorem alignLoop_exit (hfuel : count ≤ fuel + i) (hi : i ≤ count) :
    (alignLoop src dst count fuel i mem).1 = count ∨
      (alignLoop src dst count fuel i mem).1 < count ∧
        (dst + 4 * (alignLoop src dst count fuel i mem).1) % 32 = 0 := by
  induction fuel generalizing i mem with
  | zero =>
      left
      change i = count
      omega
  | succ fuel ih =>
      rw [alignLoop]
      split
      · exact ih (by omega) (by omega)
      · rename_i hexit
        rcases Nat.lt_or_ge i count with hlt | hge
        · exact Or.inr ⟨hlt, by_contra fun hne => hexit ⟨hlt, hne⟩⟩
        · exact Or.inl (Nat.le_antisymm hi hge)

theorem alignLoop_fst (hdst : dst % 4 = 0) :
    (alignLoop src dst count count 0 mem).1 = min count (head dst) := by
  have hbefore : ∀ i < (alignLoop src dst count count 0 mem).1, (dst + 4 * i) % 32 ≠ 0 := by
    refine alignLoop_invariant (Q := fun n _ => ∀ i < n, (dst + 4 * i) % 32 ≠ 0) ?_ (by simp)
    intro n _ _ hn h i hi
    rcases Nat.lt_succ_iff_lt_or_eq.1 hi with hi | rfl
    · exact h i hi
    · exact hn
  have hexit : (alignLoop src dst count count 0 mem).1 = count ∨
      (alignLoop src dst count count 0 mem).1 < count ∧
        (dst + 4 * (alignLoop src dst count count 0 mem).1) % 32 = 0 :=
    alignLoop_exit (Nat.le_refl _) (Nat.zero_le _)
  generalize (alignLoop src dst count count 0 mem).1 = n at hbefore hexit
  have hhead : (dst + 4 * head dst) % 32 = 0 := by
    rw [head]
    omega
  have hle : n ≤ head dst := by
    by_contra hlt
    exact hbefore _ (by omega) hhead
  have hboundary : (dst + 4 * n) % 32 = 0 → n = head dst := by
    intro hn
    rw [head] at hle ⊢
    omega
  omega

theorem fastLoop_invariant {Q : Nat → Memory → Prop}
    (hround : ∀ i mem, i < count → Q i mem → Q (i + 8) (writeBlock src dst i mem)) (h : Q i mem) :
    Q (fastLoop src dst count fuel i mem).1 (fastLoop src dst count fuel i mem).2 := by
  induction fuel generalizing i mem with
  | zero => exact h
  | succ fuel ih =>
      rw [fastLoop]
      split
      · rename_i hi
        exact ih (hround i mem hi h)
      · exact h

theorem fastLoop_fst (hfuel : count ≤ fuel + i) :
    (fastLoop src dst count fuel i mem).1 = i + 8 * ((count - i + 7) / 8) := by
  induction fuel generalizing i mem with
  | zero =>
      change i = _
      omega
  | succ fuel ih =>
      rw [fastLoop]
      split
      · rw [ih (by omega)]
        omega
      · omega

theorem wordLoop_invariant {Q : Memory → Prop}
    (hround : ∀ j mem, i ≤ j → j < count → Q mem → Q (writeWord src dst j mem)) (h : Q mem) :
    Q (wordLoop src dst count fuel i mem) := by
  induction fuel generalizing i mem with
  | zero => exact h
  | succ fuel ih =>
      rw [wordLoop]
      split
      · rename_i hi
        exact ih (fun j mem hj => hround j mem (Nat.le_of_succ_le hj)) (hround i mem (Nat.le_refl i) hi h)
      · exact h

theorem count_le_reach : count ≤ reach dst count := by
  rw [reach]
  split
  · exact Nat.le_refl _
  · omega

theorem reach_lt : reach dst count < count + 8 := by
  rw [reach]
  split <;> omega

theorem add_reach_le {bound : Nat} (hdst : dst % 4 = 0) (hle : dst + 4 * count ≤ bound)
    (hbound : bound % 32 = 0 ∨ dst % 32 ≠ 0 ∧ dst % 32 + 4 * count ≤ 32) :
    dst + 4 * reach dst count ≤ bound := by
  rw [reach, head]
  split <;> omega

/-- What the rounds of the first two loops keep holds before the third one, which takes the last block
again if it has words beyond the end. -/
theorem convertEndianess32_phases {Q : Nat → Memory → Prop} {mem' : Memory}
    (h : convertEndianess32 src dst count mem = .ok mem')
    (hword : ∀ i mem, i < count → i < head dst → Q i mem → Q (i + 1) (writeWord src dst i mem))
    (hblock : ∀ i mem, head dst ≤ i → i < count → Q i mem → Q (i + 8) (writeBlock src dst i mem))
    (h₀ : Q 0 mem) : ∃ m, Q (reach dst count) m ∧ mem' =
      if reach dst count ≠ count then wordLoop src dst count count (reach dst count - 8) m else m := by
  rw [convertEndianess32] at h
  split at h
  · contradiction
  · rename_i haligned
    have hdst : dst % 4 = 0 := by omega
    have hfirst : Q (alignLoop src dst count count 0 mem).1 (alignLoop src dst count count 0 mem).2 := by
      have hword' : ∀ i mem, i < count → (dst + 4 * i) % 32 ≠ 0 →
          (Q i mem ∧ i ≤ head dst) → Q (i + 1) (writeWord src dst i mem) ∧ i + 1 ≤ head dst := by
        rintro i mem hi hne ⟨hQ, hle⟩
        have hlt : i < head dst := by
          refine Nat.lt_of_le_of_ne hle fun heq => hne ?_
          rw [heq, head]
          omega
        exact ⟨hword i mem hi hlt hQ, hlt⟩
      exact (alignLoop_invariant (Q := fun i mem => Q i mem ∧ i ≤ head dst) hword'
        ⟨h₀, Nat.zero_le _⟩).1
    have hstart : (alignLoop src dst count count 0 mem).1 = min count (head dst) := alignLoop_fst hdst
    have hsecond : Q (fastLoop src dst count count (alignLoop src dst count count 0 mem).1
          (alignLoop src dst count count 0 mem).2).1
        (fastLoop src dst count count (alignLoop src dst count count 0 mem).1
          (alignLoop src dst count count 0 mem).2).2 := by
      have hblock' : ∀ i mem, i < count → (Q i mem ∧ (i < count → head dst ≤ i)) →
          Q (i + 8) (writeBlock src dst i mem) ∧ (i + 8 < count → head dst ≤ i + 8) := by
        rintro i mem hi ⟨hQ, hle⟩
        exact ⟨hblock i mem (hle hi) hi hQ, fun _ => (hle hi).trans (Nat.le_add_right ..)⟩
      exact (fastLoop_invariant (Q := fun i mem => Q i mem ∧ (i < count → head dst ≤ i)) hblock'
        ⟨hfirst, fun hlt => by omega⟩).1
    have hreach : (fastLoop src dst count count (alignLoop src dst count count 0 mem).1
        (alignLoop src dst count count 0 mem).2).1 = reach dst count := by
      rw [fastLoop_fst (by omega), hstart, reach]
      split <;> omega
    rw [hreach] at hsecond
    refine ⟨_, hsecond, ?_⟩
    rw [← Except.ok.inj h, ← hreach]

theorem convertEndianess32_invariant {Q : Nat → Memory → Prop} {mem' : Memory}
    (h : convertEndianess32 src dst count mem = .ok mem')
    (hword : ∀ i mem, i < count → i < head dst → Q i mem → Q (i + 1) (writeWord src dst i mem))
    (hblock : ∀ i mem, head dst ≤ i → i < count → Q i mem → Q (i + 8) (writeBlock src dst i mem))
    (hrest : ∀ i mem, reach dst count ≤ i + 8 → i < count → Q (reach dst count) mem →
      Q (reach dst count) (writeWord src dst i mem)) (h₀ : Q 0 mem) : Q (reach dst count) mem' := by
  obtain ⟨m, hm, rfl⟩ := convertEndianess32_phases h hword hblock h₀
  split
  · exact wordLoop_invariant (fun i mem hi => hrest i mem (by omega)) hm
  · exact hm

/-! ### What is written -/

theorem shuffle_eq_swapBytes (v : BitVec 32) : shuffle v = swapBytes v := by
  apply BitVec.eq_of_getLsbD_eq
  intro i hi
  change @BitVec.getLsbD (8 + 8 + 8 + 8) (v.extractLsb' 0 8 ++ v.extractLsb' 8 8 ++
    v.extractLsb' 16 8 ++ v.extractLsb' 24 8) i = _
  rw [BitVec.getLsbD_append, BitVec.getLsbD_append, BitVec.getLsbD_append]
  simp only [BitVec.getLsbD_extractLsb', swapBytes, BitVec.getLsbD_or, BitVec.getLsbD_shiftLeft,
    BitVec.getLsbD_ushiftRight, BitVec.getLsbD_and]
  interval_cases i <;> simp

theorem writeBlock_apply {a : Nat} :
    writeBlock src dst i mem a = if wordAt dst i ≤ a ∧ a < wordAt dst i + 8 then
      swapBytes (mem (wordAt src (a - dst / 4))) else mem a := by
  rw [writeBlock, shuffle_eq_swapBytes]

theorem convertEndianess32_isOk (hsrc : src % 4 = 0) (hdst : dst % 4 = 0) (mem : Memory) :
    ∃ mem', convertEndianess32 src dst count mem = .ok mem' := by
  rw [convertEndianess32, if_neg (by omega)]
  exact ⟨_, rfl⟩

theorem convertEndianess32_frame {mem' : Memory} (h : convertEndianess32 src dst count mem = .ok mem')
    (a : Nat) (ha : a < dst / 4 ∨ dst / 4 + reach dst count ≤ a) : mem' a = mem a := by
  have hcount : count ≤ reach dst count := count_le_reach
  refine convertEndianess32_invariant
    (Q := fun i m => ∀ a, a < dst / 4 ∨ dst / 4 + i ≤ a → m a = mem a) h ?_ ?_ ?_ (fun _ _ => rfl) a ha
  · intro i m _ _ hm a ha
    rw [writeWord, Function.update_of_ne (by rw [wordAt]; omega)]
    exact hm a (by omega)
  · intro i m _ _ hm a ha
    rw [writeBlock_apply, if_neg (by rw [wordAt]; omega)]
    exact hm a (by omega)
  · intro i m _ hi hm a ha
    rw [writeWord, Function.update_of_ne (by rw [wordAt]; omega)]
    exact hm a ha

/-- Where the block with the last word goes beyond it, the next word is written as well. The words that
it depends on are zero when a set of words is that has their sources. -/
theorem convertEndianess32_beyond {mem' : Memory} {Z : Nat → Prop}
    (h : convertEndianess32 src dst count mem = .ok mem') (hbeyond : count < reach dst count)
    (hsources : ∀ i < count, Z (dst / 4 + i) → Z (src / 4 + i)) (hnext : Z (src / 4 + count))
    (hzero : ∀ a, Z a → mem a = 0) : mem' (dst / 4 + count) = 0 := by
  have hswap : swapBytes 0 = 0 := by decide
  refine (convertEndianess32_invariant (Q := fun i m => (i ≤ count → ∀ a, Z a → m a = 0) ∧
    (count < i → m (dst / 4 + count) = 0)) h ?_ ?_ ?_ ?_).2 hbeyond
  · rintro i m hi _ ⟨hm, -⟩
    refine ⟨fun _ a ha => ?_, fun hlt => absurd hlt (by omega)⟩
    by_cases heq : a = wordAt dst i
    · subst heq
      rw [writeWord, Function.update_self, wordAt, hm hi.le _ (hsources i hi ha), hswap]
    · rw [writeWord, Function.update_of_ne heq]
      exact hm hi.le a ha
  · rintro i m - hi ⟨hm, -⟩
    refine ⟨fun hle a ha => ?_, fun hlt => ?_⟩
    · rw [writeBlock_apply]
      split
      · rename_i hin
        rw [wordAt] at hin
        obtain ⟨j, rfl⟩ := Nat.exists_eq_add_of_le (show dst / 4 ≤ a by omega)
        rw [wordAt, Nat.add_sub_cancel_left, hm hi.le _ (hsources j (by omega) ha), hswap]
      · exact hm hi.le a ha
    · rw [writeBlock_apply, if_pos (by rw [wordAt]; omega), wordAt, Nat.add_sub_cancel_left,
        hm hi.le _ hnext, hswap]
  · rintro i m - hi ⟨-, hm⟩
    refine ⟨fun hle => absurd hle (by omega), fun hlt => ?_⟩
    rw [writeWord, Function.update_of_ne (by rw [wordAt]; omega)]
    exact hm hlt
  · exact ⟨fun _ => hzero, fun hlt => absurd hlt (by omega)⟩

theorem convertEndianess32_zero {mem' : Memory} {Z : Nat → Prop}
    (h : convertEndianess32 src dst count mem = .ok mem')
    (hsources : ∀ i < count + 8, Z (src / 4 + i)) (hzero : ∀ a, Z a → mem a = 0) :
    ∀ a, Z a ∨ dst / 4 ≤ a ∧ a < dst / 4 + reach dst count → mem' a = 0 := by
  have hswap : swapBytes 0 = 0 := by decide
  refine convertEndianess32_invariant
    (Q := fun i m => ∀ a, Z a ∨ dst / 4 ≤ a ∧ a < dst / 4 + i → m a = 0) h ?_ ?_ ?_ ?_
  · intro i m hi _ hm a ha
    by_cases heq : a = wordAt dst i
    · subst heq
      rw [writeWord, Function.update_self, wordAt, hm _ (Or.inl (hsources i (by omega))), hswap]
    · rw [wordAt] at heq
      rw [writeWord, Function.update_of_ne (by rwa [wordAt])]
      exact hm a (ha.imp_right fun hin => by omega)
  · intro i m _ hi hm a ha
    rw [writeBlock_apply]
    split
    · rename_i hin
      rw [wordAt] at hin
      obtain ⟨j, rfl⟩ := Nat.exists_eq_add_of_le (show dst / 4 ≤ a by omega)
      rw [wordAt, Nat.add_sub_cancel_left, hm _ (Or.inl (hsources j (by omega))), hswap]
    · rename_i hout
      rw [wordAt] at hout
      exact hm a (ha.imp_right fun hin => by omega)
  · intro i m _ hi hm a ha
    by_cases heq : a = wordAt dst i
    · subst heq
      rw [writeWord, Function.update_self, wordAt, hm _ (Or.inl (hsources i (by omega))), hswap]
    · rw [writeWord, Function.update_of_ne heq]
      exact hm a ha
  · intro a ha
    exact hzero a (ha.resolve_right fun hin => by omega)

end Loops

/-! ### What is left alone -/

/-- The words end at a 32 byte boundary, or before the first one. -/
def Fits (dst count : Nat) : Prop :=
  (dst + 4 * count) % 32 = 0 ∨ dst % 32 ≠ 0 ∧ dst % 32 + 4 * count ≤ 32

instance (dst count : Nat) : Decidable (Fits dst count) := inferInstanceAs (Decidable (_ ∨ _))

/-- The conversion changes no word but those of its destination. -/
def WritesOnly (src dst count : Nat) : Prop :=
  ∀ mem mem', convertEndianess32 src dst count mem = .ok mem' →
    ∀ a, a < dst / 4 ∨ dst / 4 + count ≤ a → mem' a = mem a

section Frame

variable {src dst count : Nat}

theorem reach_eq_iff (hdst : dst % 4 = 0) : reach dst count = count ↔ Fits dst count := by
  rw [reach, Fits, head]
  split <;> omega

theorem writesOnly_iff (hsrc : src % 4 = 0) (hdst : dst % 4 = 0)
    (hseparate : src + 4 * count ≤ dst ∨ dst + 4 * count ≤ src) :
    WritesOnly src dst count ↔ Fits dst count := by
  rw [← reach_eq_iff hdst]
  constructor
  · intro honly
    by_contra hne
    have hbeyond : count < reach dst count := lt_of_le_of_ne count_le_reach (Ne.symm hne)
    have hpos : 0 < count := by
      rw [reach] at hbeyond
      split at hbeyond <;> omega
    -- all words are zero but the one after the destination
    let mem : Memory := Function.update (fun _ => 0) (dst / 4 + count) 1
    obtain ⟨mem', h⟩ : ∃ mem', convertEndianess32 src dst count mem = .ok mem' :=
      convertEndianess32_isOk hsrc hdst mem
    have hzero : ∀ a, a ≠ dst / 4 + count → mem a = 0 := fun a ha => Function.update_of_ne ha ..
    have hwritten : mem' (dst / 4 + count) = 0 := by
      rcases hseparate with hbefore | hafter
      · exact convertEndianess32_beyond (Z := (· < dst / 4 + count)) h hbeyond
          (fun i hi _ => by omega) (by omega) fun a ha => hzero a ha.ne
      · exact convertEndianess32_beyond (Z := (dst / 4 + count < ·)) h hbeyond
          (fun i hi hlt => by omega) (by omega) fun a ha => hzero a ha.ne'
    have hkept := honly mem mem' h (dst / 4 + count) (Or.inr (Nat.le_refl _))
    have hone : mem (dst / 4 + count) = 1 := Function.update_self ..
    rw [hwritten, hone] at hkept
    exact absurd hkept (by decide)
  · intro heq mem mem' h a ha
    exact convertEndianess32_frame h a (by rwa [heq])

end Frame

end ClientLib

end Mpitofino
