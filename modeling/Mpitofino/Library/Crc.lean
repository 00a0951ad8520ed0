import Mathlib.Data.BitVec

/-!
# Cyclic redundancy checks as linear maps

The register of a CRC after a message is a function of the register before and of the message, and
that function is linear over exclusive or in both together (`feed_xor`). Everything about splitting
a message into summands, moving a summand to the right end of the message, or folding a known prefix
into a constant follows from that one fact. The register is modelled in the reflected form
(`shiftBit`, least significant bit first) and in the direct form (`shiftBitMsb`), which are mirror
images of each other (`reverse_feedMsb`).
-/

namespace Crc

variable {w : Nat} (poly : BitVec w)

/-- One message bit into the reflected register. -/
def shiftBit (c : BitVec w) (b : Bool) : BitVec w :=
  if c.getLsbD 0 ^^ b then (c >>> 1) ^^^ poly else c >>> 1

/-- A whole message into the reflected register. -/
def feed (c : BitVec w) (bits : List Bool) : BitVec w := bits.foldl (shiftBit poly) c

/-- One message bit into the direct register. -/
def shiftBitMsb (c : BitVec w) (b : Bool) : BitVec w :=
  if c.msb ^^ b then (c <<< 1) ^^^ poly else c <<< 1

/-- A whole message into the direct register. -/
def feedMsb (c : BitVec w) (bits : List Bool) : BitVec w := bits.foldl (shiftBitMsb poly) c

/-- The bitwise sum of two messages. -/
def xorBits (m n : List Bool) : List Bool := List.zipWith Bool.xor m n

/-- The all-zero message of a length. -/
def zeros (n : Nat) : List Bool := List.replicate n false

@[simp] theorem length_zeros (n : Nat) : (zeros n).length = n := List.length_replicate

theorem xorBits_zeros (m : List Bool) : xorBits m (zeros m.length) = m := by
  induction m with
  | nil => rfl
  | cons b m ih =>
      rw [xorBits, zeros] at ih ⊢
      simpa [List.replicate_succ] using ih

theorem zeros_xorBits (m : List Bool) : xorBits (zeros m.length) m = m := by
  induction m with
  | nil => rfl
  | cons b m ih =>
      rw [xorBits, zeros] at ih ⊢
      simpa [List.replicate_succ] using ih

theorem zeros_add (k l : Nat) : zeros (k + l) = zeros k ++ zeros l :=
  List.replicate_add k l false

@[simp] theorem feed_cons (c : BitVec w) (b : Bool) (m : List Bool) :
    feed poly c (b :: m) = feed poly (shiftBit poly c b) m := rfl

theorem feed_append (c : BitVec w) (m n : List Bool) :
    feed poly c (m ++ n) = feed poly (feed poly c m) n := List.foldl_append

theorem shiftBit_xor (c d : BitVec w) (a b : Bool) :
    shiftBit poly (c ^^^ d) (a ^^ b) = shiftBit poly c a ^^^ shiftBit poly d b := by
  have hcancel : ∀ x y : BitVec w, (x ^^^ poly) ^^^ (y ^^^ poly) = x ^^^ y := fun x y => by
    rw [BitVec.xor_assoc x, ← BitVec.xor_assoc poly, BitVec.xor_comm poly y, BitVec.xor_assoc y,
      BitVec.xor_self, BitVec.xor_zero]
  have hsum : ((c ^^^ d).getLsbD 0 ^^ (a ^^ b)) = ((c.getLsbD 0 ^^ a) ^^ (d.getLsbD 0 ^^ b)) := by
    rw [BitVec.getLsbD_xor]
    cases c.getLsbD 0 <;> cases d.getLsbD 0 <;> cases a <;> cases b <;> rfl
  simp only [shiftBit, hsum, BitVec.ushiftRight_xor_distrib]
  cases c.getLsbD 0 ^^ a <;> cases d.getLsbD 0 ^^ b <;>
    simp only [Bool.xor_false, Bool.xor_true, Bool.not_false, Bool.not_true, Bool.false_eq_true,
      if_true, if_false]
  · rw [BitVec.xor_assoc]
  · rw [BitVec.xor_assoc, BitVec.xor_assoc, BitVec.xor_comm poly]
  · exact (hcancel _ _).symm

/-- **Linearity.** Feeding the sum of two messages of one length into the sum of two registers gives
the sum of the two results. -/
theorem feed_xor (c d : BitVec w) {m n : List Bool} (h : m.length = n.length) :
    feed poly (c ^^^ d) (xorBits m n) = feed poly c m ^^^ feed poly d n := by
  induction m generalizing c d n with
  | nil =>
      obtain rfl := List.length_eq_zero_iff.1 h.symm
      rfl
  | cons a m ih =>
      obtain ⟨b, n, rfl⟩ := List.exists_cons_of_length_eq_add_one h.symm
      change feed poly (shiftBit poly (c ^^^ d) (a ^^ b)) (xorBits m n) = _
      rw [shiftBit_xor, ih _ _ (Nat.succ.inj h)]
      rfl

/-- The register part and the message part of a result separate. -/
theorem feed_split (c : BitVec w) (m : List Bool) :
    feed poly c m = feed poly c (zeros m.length) ^^^ feed poly 0 m := by
  conv_lhs => rw [← zeros_xorBits m, ← BitVec.xor_zero (x := c)]
  exact feed_xor poly c 0 (length_zeros _)

theorem feed_zero_append (m n : List Bool) :
    feed poly 0 (m ++ n) = feed poly 0 (m ++ zeros n.length) ^^^ feed poly 0 n := by
  rw [feed_append, feed_append, feed_split poly (feed poly 0 m) n]

theorem feed_zeros_add (c : BitVec w) (k l : Nat) :
    feed poly c (zeros (k + l)) = feed poly (feed poly c (zeros k)) (zeros l) := by
  rw [zeros_add, feed_append]

/-- Starting from another register adds a constant that only depends on the length. -/
theorem feed_register (c d : BitVec w) (m : List Bool) :
    feed poly c m = feed poly d m ^^^ feed poly (c ^^^ d) (zeros m.length) := by
  rw [← feed_xor poly d (c ^^^ d) (length_zeros _).symm, xorBits_zeros, BitVec.xor_comm c,
    ← BitVec.xor_assoc, BitVec.xor_self, BitVec.zero_xor]

/-! ### The mirror image -/

theorem reverse_shiftLeft_one (c : BitVec w) : (c <<< 1).reverse = c.reverse >>> 1 := by
  apply BitVec.eq_of_getLsbD_eq
  intro i hi
  rw [BitVec.getLsbD_reverse, BitVec.getMsbD_eq_getLsbD, BitVec.getLsbD_ushiftRight,
    BitVec.getLsbD_reverse, BitVec.getMsbD_eq_getLsbD, BitVec.getLsbD_shiftLeft]
  by_cases h : 1 + i < w
  · have h0 : ¬ w - 1 - i < 1 := by omega
    have he : w - 1 - i - 1 = w - 1 - (1 + i) := by omega
    simp [hi, h, h0, he, show w - 1 - i < w by omega]
  · have h0 : w - 1 - i < 1 := by omega
    simp [h, h0]

theorem reverse_xor (c d : BitVec w) : (c ^^^ d).reverse = c.reverse ^^^ d.reverse := by
  apply BitVec.eq_of_getLsbD_eq
  intro i hi
  simp [BitVec.getLsbD_reverse, BitVec.getMsbD_xor]

theorem reverse_shiftBitMsb (c : BitVec w) (b : Bool) :
    (shiftBitMsb poly c b).reverse = shiftBit poly.reverse c.reverse b := by
  have hlow : c.reverse.getLsbD 0 = c.msb := by
    rw [BitVec.getLsbD_reverse]
    rfl
  rw [shiftBitMsb, shiftBit, hlow]
  split
  · rw [reverse_xor, reverse_shiftLeft_one]
  · rw [reverse_shiftLeft_one]

/-- The direct register is the mirror image of the reflected one. -/
theorem reverse_feedMsb (c : BitVec w) (m : List Bool) :
    (feedMsb poly c m).reverse = feed poly.reverse c.reverse m := by
  induction m generalizing c with
  | nil => rfl
  | cons b m ih =>
      change (feedMsb poly (shiftBitMsb poly c b) m).reverse = _
      rw [ih, reverse_shiftBitMsb]
      rfl

end Crc
