import Mpitofino.Dataplane.Tables

/-!
# Worker bitmaps

A node bitmap has 64 bits in two words. `on_st_repo_channels` counts the participants of a pipe through
by shifting a single bit, and gathers the bits it gave away in the full bitmap; a slot of the dataplane
gathers the bits of the packets it has seen. Bit by bit, the `k`-th node bitmap is `k` alone and the
full bitmap of `k` workers is everything below `k`.
-/

namespace Mpitofino

namespace NodeBitmap

def next (b : NodeBitmap) : NodeBitmap where
  low := b.low <<< 1
  high := if b.low = 1 <<< 31 then 1 else b.high <<< 1

def union (a b : NodeBitmap) : NodeBitmap := ⟨a.low ||| b.low, a.high ||| b.high⟩

def none : NodeBitmap := ⟨0, 0⟩

def bit (b : NodeBitmap) (i : Nat) : Bool :=
  if i < 32 then b.low.getLsbD i else b.high.getLsbD (i - 32)

theorem ext_bit {a b : NodeBitmap} (h : ∀ i < 64, a.bit i = b.bit i) : a = b := by
  have hlow : a.low = b.low := by
    apply BitVec.eq_of_getLsbD_eq
    intro i hi
    simpa only [bit, if_pos hi] using h i (by omega)
  have hhigh : a.high = b.high := by
    apply BitVec.eq_of_getLsbD_eq
    intro i hi
    simpa only [bit, if_neg (show ¬ i + 32 < 32 by omega), Nat.add_sub_cancel]
      using h (i + 32) (by omega)
  cases a
  cases b
  rw [mk.injEq]
  exact ⟨hlow, hhigh⟩

@[simp] theorem bit_union (a b : NodeBitmap) (i : Nat) :
    (a.union b).bit i = (a.bit i || b.bit i) := by
  simp only [bit, union, BitVec.getLsbD_or]
  split <;> rfl

@[simp] theorem bit_none (i : Nat) : none.bit i = false := by
  simp [bit, none]

/-- The bitmap of the worker after `k` others. -/
def nodeAt : Nat → NodeBitmap
  | 0 => ⟨1, 0⟩
  | k + 1 => (nodeAt k).next

def fullAt : Nat → NodeBitmap
  | 0 => none
  | k + 1 => (fullAt k).union (nodeAt k)

private theorem one_shiftLeft_eq (k : Fin 32) : (1#32 <<< k.val = 1 <<< 31) ↔ k = 31 := by
  revert k
  decide

private theorem nodeAt_eq (k : Nat) :
    nodeAt k = if k < 32 then ⟨1#32 <<< k, 0⟩ else ⟨0, 1#32 <<< (k - 32)⟩ := by
  induction k with
  | zero => rfl
  | succ k ih =>
      rw [nodeAt, ih]
      rcases Nat.lt_trichotomy k 31 with hk | rfl | hk
      · have hne : ¬ 1#32 <<< k = 1 <<< 31 := by
          rw [one_shiftLeft_eq ⟨k, by omega⟩, Fin.ext_iff]
          exact Nat.ne_of_lt hk
        rw [if_pos (by omega), if_pos (by omega), next, BitVec.shiftLeft_add, if_neg hne]
        rfl
      · rfl
      · rw [if_neg (by omega), if_neg (by omega), next, show k + 1 - 32 = k - 32 + 1 by omega,
          BitVec.shiftLeft_add]
        rfl

theorem bit_nodeAt {k i : Nat} (hk : k < 64) (hi : i < 64) :
    (nodeAt k).bit i = decide (i = k) := by
  rw [nodeAt_eq, bit]
  by_cases hlow : k < 32 <;> by_cases hi32 : i < 32
  · rw [if_pos hlow, if_pos hi32, BitVec.getLsbD_shiftLeft, BitVec.getLsbD_one]
    simp only [hi32, decide_true, Bool.true_and]
    by_cases h : i < k
    · simp [h, Nat.ne_of_lt h]
    · simp [h, show i - k = 0 ↔ i = k by omega]
  · simp [hlow, hi32, show i ≠ k by omega]
  · simp [hlow, hi32, show i ≠ k by omega]
  · rw [if_neg hlow, if_neg hi32, BitVec.getLsbD_shiftLeft, BitVec.getLsbD_one]
    simp only [show i - 32 < 32 by omega, decide_true, Bool.true_and]
    by_cases h : i - 32 < k - 32
    · simp [h, show i ≠ k by omega]
    · simp [h, show i - 32 - (k - 32) = 0 ↔ i = k by omega]

theorem bit_fullAt {k i : Nat} (hk : k ≤ 64) (hi : i < 64) :
    (fullAt k).bit i = decide (i < k) := by
  induction k with
  | zero => simp [fullAt]
  | succ k ih =>
      rw [fullAt, bit_union, ih (by omega), bit_nodeAt (by omega) hi, ← Bool.decide_or]
      exact decide_eq_decide.2 (by omega)

theorem fullAt_low_eq_zero_iff {k : Nat} (hk : k ≤ 64) : (fullAt k).low = 0 ↔ k = 0 := by
  constructor
  · intro h
    have hbit := bit_fullAt (i := 0) hk (by omega)
    rw [bit, if_pos (by omega), h] at hbit
    have hpos : decide (0 < k) = false := hbit.symm
    simpa using hpos
  · rintro rfl
    rfl

end NodeBitmap

/-- `node_bitmap_low`, `node_bitmap_high`, `full_bitmap_low` and `full_bitmap_high`. -/
structure WorkerBitmaps where
  node : PipeId → NodeBitmap
  full : PipeId → NodeBitmap

namespace WorkerBitmaps

def initial : WorkerBitmaps := ⟨fun _ => ⟨1, 0⟩, fun _ => ⟨0, 0⟩⟩

def update (b : WorkerBitmaps) (pipe : PipeId) : WorkerBitmaps where
  node := Function.update b.node pipe (b.node pipe).next
  full := Function.update b.full pipe ((b.full pipe).union (b.node pipe))

/-- The bitmaps after so many workers of each pipe. -/
def counted (count : PipeId → Nat) : WorkerBitmaps where
  node := fun pipe => NodeBitmap.nodeAt (count pipe)
  full := fun pipe => NodeBitmap.fullAt (count pipe)

theorem initial_eq : initial = counted fun _ => 0 := rfl

theorem update_counted (count : PipeId → Nat) (pipe : PipeId) :
    (counted count).update pipe = counted (Function.update count pipe (count pipe + 1)) := by
  simp only [update, counted, mk.injEq]
  constructor <;> funext pipe' <;> by_cases h : pipe' = pipe
  · rw [h, Function.update_self, Function.update_self]
    rfl
  · rw [Function.update_of_ne h, Function.update_of_ne h]
  · rw [h, Function.update_self, Function.update_self]
    rfl
  · rw [Function.update_of_ne h, Function.update_of_ne h]

end WorkerBitmaps

end Mpitofino
