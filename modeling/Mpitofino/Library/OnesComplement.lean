import Mathlib.Data.Nat.Basic
import Mathlib.Tactic.Common

/-!
# Sums in ones' complement

In ones' complement the carry out of the top is added at the bottom, so sums are taken modulo `m`, the
largest value. Zero has two values there: a sum of zeros is 0, and any other multiple of `m` is `m`.
-/

namespace OnesComplement

variable {m n k : Nat}

def residue (m n : Nat) : Nat := if n = 0 then 0 else (n - 1) % m + 1

theorem residue_of_le (h : n ≤ m) : residue m n = n := by
  rw [residue]
  split
  · rename_i hzero
    exact hzero.symm
  · rw [Nat.mod_eq_of_lt (by omega)]
    omega

theorem residue_le (hm : 0 < m) : residue m n ≤ m := by
  rw [residue]
  split
  · exact Nat.zero_le _
  · exact Nat.mod_lt _ hm

theorem residue_add_mul (hk : 0 < k) (q : Nat) : residue m (k + m * q) = residue m k := by
  rw [residue, residue, if_neg (by omega), if_neg (by omega),
    show k + m * q - 1 = k - 1 + m * q by omega, Nat.add_mul_mod_self_left]

/-- Adding the carry at the bottom does not change the value. -/
theorem residue_carry : residue m (n % (m + 1) + n / (m + 1)) = residue m n := by
  rcases Nat.eq_zero_or_pos (n % (m + 1) + n / (m + 1)) with hzero | hpos
  · have hn : n = 0 := by
      have hsplit := Nat.div_add_mod n (m + 1)
      rw [(Nat.add_eq_zero_iff.1 hzero).1, (Nat.add_eq_zero_iff.1 hzero).2] at hsplit
      simpa using hsplit.symm
    rw [hn, Nat.zero_mod, Nat.zero_div]
  · have hsplit : n = n % (m + 1) + n / (m + 1) + m * (n / (m + 1)) := by
      have hdiv := Nat.div_add_mod n (m + 1)
      rw [Nat.add_mul, Nat.one_mul] at hdiv
      omega
    exact (residue_add_mul hpos _).symm.trans (congrArg _ hsplit.symm)

/-- A sum with the complement of its value is the largest value. -/
theorem residue_add_complement (hm : 0 < m) : residue m (n + (m - residue m n)) = m := by
  have hle := residue_le (n := n) hm
  rcases Nat.eq_zero_or_pos n with rfl | hpos
  · rw [residue_of_le (Nat.zero_le m), Nat.zero_add, Nat.sub_zero, residue_of_le (Nat.le_refl _)]
  · have hsplit : n + (m - residue m n) = m + m * ((n - 1) / m) := by
      have hdiv := Nat.div_add_mod (n - 1) m
      rw [residue, if_neg (by omega)] at hle ⊢
      omega
    rw [hsplit, residue_add_mul hm, residue_of_le (Nat.le_refl _)]

end OnesComplement
