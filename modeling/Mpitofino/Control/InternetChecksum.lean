import Mathlib.Algebra.Group.Nat.Defs
import Mathlib.Data.List.Basic
import Mpitofino.Library.OnesComplement

/-!
# The internet checksum

`internet_checksum` adds the 16-bit words of a buffer, as the host reads them, and folds the carries
into the sum. A buffer whose checksum is stored in it has the checksum zero.
-/

namespace Mpitofino

/-- A word in memory; its first byte is the low one. -/
def wordOf (first second : BitVec 8) : BitVec 16 := second ++ first

def bytesOf (w : BitVec 16) : List (BitVec 8) := [w.extractLsb' 0 8, w.extractLsb' 8 8]

def sumWords (sum : BitVec 32) : List (BitVec 8) → BitVec 32
  | first :: second :: data => sumWords (sum + (wordOf first second).setWidth 32) data
  | [last] => sum + last.setWidth 32
  | [] => sum

/-- The loop `while (sum >> 16)`, for at most so many rounds. -/
def foldCarries : Nat → BitVec 32 → BitVec 32
  | 0, sum => sum
  | rounds + 1, sum =>
      if sum >>> 16 = 0 then sum else foldCarries rounds ((sum &&& 0xffff#32) + (sum >>> 16))

/-- Two rounds are enough. -/
def internetChecksum (data : List (BitVec 8)) : BitVec 16 :=
  ~~~ (foldCarries 2 (sumWords 0 data)).setWidth 16

/-- No addition to the accumulator wraps. -/
def NoWrap (sum : BitVec 32) : List (BitVec 8) → Prop
  | first :: second :: data => sum.toNat + (wordOf first second).toNat < 2 ^ 32 ∧
      NoWrap (sum + (wordOf first second).setWidth 32) data
  | [last] => sum.toNat + last.toNat < 2 ^ 32
  | [] => True

/-- The accumulator does not wrap, and the folding loop ends. -/
structure SumsUp (data : List (BitVec 8)) : Prop where
  noWrap : NoWrap 0 data
  ends : foldCarries 2 (sumWords 0 data) >>> 16 = 0

def wordSum : List (BitVec 8) → Nat
  | first :: second :: data => (wordOf first second).toNat + wordSum data
  | [last] => last.toNat
  | [] => 0

section Sums

variable {before data : List (BitVec 8)} {sum : BitVec 32}

theorem wordSum_le : wordSum data ≤ 65535 * ((data.length + 1) / 2) := by
  induction data using wordSum.induct with
  | case1 first second data ih =>
      have hword := (wordOf first second).isLt
      rw [wordSum, List.length_cons, List.length_cons]
      omega
  | case2 last =>
      have hlast := last.isLt
      rw [wordSum, List.length_singleton]
      omega
  | case3 => exact Nat.zero_le _

theorem wordSum_append (heven : before.length % 2 = 0) :
    wordSum (before ++ data) = wordSum before + wordSum data := by
  induction before using wordSum.induct with
  | case1 first second before ih =>
      rw [List.length_cons, List.length_cons] at heven
      rw [List.cons_append, List.cons_append, wordSum, wordSum, ih (by omega), Nat.add_assoc]
  | case2 last => contradiction
  | case3 => exact (Nat.zero_add _).symm

theorem wordOf_bytesOf (w : BitVec 16) (after : List (BitVec 8)) :
    wordSum (bytesOf w ++ after) = w.toNat + wordSum after := by
  have hword : wordOf (w.extractLsb' 0 8) (w.extractLsb' 8 8) = w := by
    rw [wordOf, BitVec.extractLsb'_append_extractLsb'_eq_extractLsb' (by rfl)]
    simp
  rw [bytesOf, List.cons_append, List.cons_append, List.nil_append, wordSum, hword]

/-- Where the sum fits the accumulator, no addition wraps. -/
theorem sumWords_exact (hfits : sum.toNat + wordSum data < 2 ^ 32) :
    NoWrap sum data ∧ (sumWords sum data).toNat = sum.toNat + wordSum data := by
  induction data using wordSum.induct generalizing sum with
  | case1 first second data ih =>
      rw [wordSum] at hfits
      have hadd : (sum + (wordOf first second).setWidth 32).toNat =
          sum.toNat + (wordOf first second).toNat := by
        have hword := (wordOf first second).isLt
        rw [BitVec.toNat_add, BitVec.toNat_setWidth]
        omega
      obtain ⟨hwrap, hsum⟩ := @ih (sum + (wordOf first second).setWidth 32) (by omega)
      refine ⟨⟨by omega, hwrap⟩, ?_⟩
      rw [sumWords, hsum, hadd, wordSum, Nat.add_assoc]
  | case2 last =>
      rw [wordSum] at hfits
      refine ⟨hfits, ?_⟩
      have hlast := last.isLt
      rw [sumWords, BitVec.toNat_add, BitVec.toNat_setWidth, wordSum]
      omega
  | case3 => exact ⟨trivial, rfl⟩

theorem toNat_carry :
    ((sum &&& 0xffff#32) + (sum >>> 16)).toNat = sum.toNat % 65536 + sum.toNat / 65536 := by
  have hlow : (sum &&& 0xffff#32).toNat = sum.toNat % 65536 := by
    rw [BitVec.toNat_and]
    exact Nat.and_two_pow_sub_one_eq_mod sum.toNat 16
  have hsum := sum.isLt
  rw [BitVec.toNat_add, hlow, BitVec.toNat_ushiftRight, Nat.shiftRight_eq_div_pow]
  omega

theorem ushiftRight_eq_zero_iff : sum >>> 16 = 0 ↔ sum.toNat < 65536 := by
  rw [← BitVec.toNat_inj, BitVec.toNat_ushiftRight, Nat.shiftRight_eq_div_pow]
  change _ = 0 ↔ _
  omega

/-- The loop ends, with the value of the sum in ones' complement. -/
theorem foldCarries_two (sum : BitVec 32) : foldCarries 2 sum >>> 16 = 0 ∧
    (foldCarries 2 sum).toNat = OnesComplement.residue 65535 sum.toNat := by
  have hcarry := @toNat_carry sum
  have hcarry₂ := @toNat_carry ((sum &&& 0xffff#32) + (sum >>> 16))
  have hbound := sum.isLt
  rw [foldCarries]
  split
  · rename_i hdone
    refine ⟨hdone, (OnesComplement.residue_of_le ?_).symm⟩
    have hlt := ushiftRight_eq_zero_iff.1 hdone
    omega
  rw [foldCarries, ← OnesComplement.residue_carry, ← hcarry]
  split
  · rename_i hdone
    refine ⟨hdone, (OnesComplement.residue_of_le ?_).symm⟩
    have hlt := ushiftRight_eq_zero_iff.1 hdone
    omega
  · rename_i hmore
    have hge := mt ushiftRight_eq_zero_iff.2 hmore
    rw [foldCarries, ← OnesComplement.residue_carry, ← hcarry₂]
    refine ⟨ushiftRight_eq_zero_iff.2 (by omega), (OnesComplement.residue_of_le (by omega)).symm⟩

theorem sumsUp (hsize : data.length ≤ 131072) : SumsUp data ∧
    (internetChecksum data).toNat = 65535 - OnesComplement.residue 65535 (wordSum data) := by
  have hle := @wordSum_le data
  obtain ⟨hwrap, hsum⟩ := @sumWords_exact data 0 (by
    change 0 + wordSum data < 2 ^ 32
    omega)
  obtain ⟨hends, hfold⟩ := foldCarries_two (sumWords 0 data)
  refine ⟨⟨hwrap, hends⟩, ?_⟩
  have hresidue := OnesComplement.residue_le (m := 65535) (n := (sumWords 0 data).toNat) (by decide)
  have hzero : (0 : BitVec 32).toNat = 0 := rfl
  rw [internetChecksum, BitVec.toNat_not, BitVec.toNat_setWidth, hfold]
  rw [hsum, hzero, Nat.zero_add] at hresidue ⊢
  omega

end Sums

/-- **Checksum.** Storing the checksum of a buffer in a field of it that was zero makes the checksum of
the buffer zero; no accumulator wraps, and both folding loops end. -/
theorem internetChecksum_verifies (before after : List (BitVec 8)) (heven : before.length % 2 = 0)
    (hsize : before.length + 2 + after.length ≤ 131072) :
    internetChecksum (before ++ bytesOf (internetChecksum (before ++ bytesOf 0 ++ after)) ++ after) = 0 ∧
      SumsUp (before ++ bytesOf 0 ++ after) ∧
      SumsUp (before ++ bytesOf (internetChecksum (before ++ bytesOf 0 ++ after)) ++ after) := by
  have hlength : ∀ w : BitVec 16, (before ++ bytesOf w ++ after).length ≤ 131072 := by
    intro w
    rw [List.length_append, List.length_append, bytesOf]
    exact hsize
  have hsum : ∀ w : BitVec 16, wordSum (before ++ bytesOf w ++ after) =
      wordSum before + wordSum after + w.toNat := by
    intro w
    rw [List.append_assoc, wordSum_append heven, wordOf_bytesOf]
    omega
  obtain ⟨hzeroed, hchecksum⟩ := sumsUp (hlength 0)
  obtain ⟨hstored, hverify⟩ := sumsUp (hlength (internetChecksum (before ++ bytesOf 0 ++ after)))
  refine ⟨?_, hzeroed, hstored⟩
  have hzero : (0 : BitVec 16).toNat = 0 := rfl
  rw [hsum, hzero, Nat.add_zero] at hchecksum
  rw [hsum, hchecksum, OnesComplement.residue_add_complement (by decide), Nat.sub_self] at hverify
  exact BitVec.eq_of_toNat_eq hverify

/-- A buffer of an odd size. -/
theorem odd_verifies : internetChecksum ([0x08, 0x00] ++ bytesOf 0 ++ [0x12, 0x34, 0x56]) = 0xcb8f ∧
    internetChecksum ([0x08, 0x00] ++ bytesOf (internetChecksum
      ([0x08, 0x00] ++ bytesOf 0 ++ [0x12, 0x34, 0x56])) ++ [0x12, 0x34, 0x56]) = 0 :=
  ⟨by decide, (internetChecksum_verifies [0x08, 0x00] [0x12, 0x34, 0x56] (by decide) (by decide)).1⟩

end Mpitofino
