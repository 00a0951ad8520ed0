import Mpitofino.Client.Endianness

/-!
# Words with their bytes reversed

What the conversion leaves in its destination, and in a third buffer when it is converted once more. The
third loop reads sources again that the block before it may have overwritten.
-/

namespace Mpitofino

namespace ClientLib

theorem swapBytes_swapBytes (v : BitVec 32) : swapBytes (swapBytes v) = v := by
  apply BitVec.eq_of_getLsbD_eq
  intro i hi
  rw [← shuffle_eq_swapBytes]
  change @BitVec.getLsbD (8 + 8 + 8 + 8) ((swapBytes v).extractLsb' 0 8 ++
    (swapBytes v).extractLsb' 8 8 ++ (swapBytes v).extractLsb' 16 8 ++
    (swapBytes v).extractLsb' 24 8) i = _
  rw [BitVec.getLsbD_append, BitVec.getLsbD_append, BitVec.getLsbD_append]
  simp only [BitVec.getLsbD_extractLsb', swapBytes, BitVec.getLsbD_or, BitVec.getLsbD_shiftLeft,
    BitVec.getLsbD_ushiftRight, BitVec.getLsbD_and]
  interval_cases i <;> simp

/-- The buffers have no word in common. -/
def Separate (src dst count : Nat) : Prop :=
  src + 4 * count ≤ dst ∨ dst + 4 * count ≤ src

/-- What is written up to the `i`-th word of the destination, of the `count` words that are asked for. -/
structure Written (src dst count : Nat) (mem : Memory) (i : Nat) (mem' : Memory) : Prop where
  done : ∀ j < i, j < count → mem' (wordAt dst j) = swapBytes (mem (wordAt src j))
  kept : ∀ a, a < dst / 4 ∨ dst / 4 + i ≤ a → mem' a = mem a

section Values

variable {src dst count : Nat} {mem m : Memory} {i : Nat}

theorem Written.start : Written src dst count mem 0 mem :=
  ⟨fun _ hj => absurd hj (Nat.not_lt_zero _), fun _ _ => rfl⟩

/-- A source that is not yet overwritten gives its word, whether the word is new or written again. -/
theorem Written.writeWord {k : Nat} (h : Written src dst count mem i m) (hk : k < i)
    (hsource : m (wordAt src k) = mem (wordAt src k)) :
    Written src dst count mem i (writeWord src dst k m) where
  done := by
    intro j hj hcount
    by_cases heq : j = k
    · subst heq
      rw [ClientLib.writeWord, Function.update_self, hsource]
    · rw [ClientLib.writeWord, Function.update_of_ne (by rw [wordAt, wordAt]; omega)]
      exact h.done j hj hcount
  kept := by
    intro a ha
    rw [ClientLib.writeWord, Function.update_of_ne (by rw [wordAt]; omega)]
    exact h.kept a ha

theorem Written.next (h : Written src dst count mem i m)
    (hsource : m (wordAt src i) = mem (wordAt src i)) :
    Written src dst count mem (i + 1) (ClientLib.writeWord src dst i m) where
  done := by
    intro j hj hcount
    by_cases heq : j = i
    · subst heq
      rw [ClientLib.writeWord, Function.update_self, hsource]
    · rw [ClientLib.writeWord, Function.update_of_ne (by rw [wordAt, wordAt]; omega)]
      exact h.done j (by omega) hcount
  kept := by
    intro a ha
    rw [ClientLib.writeWord, Function.update_of_ne (by rw [wordAt]; omega)]
    exact h.kept a (by omega)

theorem Written.block (h : Written src dst count mem i m)
    (hsource : ∀ j, i ≤ j → j < count → m (wordAt src j) = mem (wordAt src j)) :
    Written src dst count mem (i + 8) (writeBlock src dst i m) where
  done := by
    intro j hj hcount
    rw [writeBlock_apply]
    split
    · rename_i hin
      rw [wordAt, wordAt] at hin
      have hindex : wordAt dst j - dst / 4 = j := Nat.add_sub_cancel_left ..
      rw [hindex, hsource j (by omega) hcount]
    · rename_i hout
      rw [wordAt, wordAt] at hout
      exact h.done j (by omega) hcount
  kept := by
    intro a ha
    rw [writeBlock_apply, if_neg (by rw [wordAt]; omega)]
    exact h.kept a (by omega)

theorem Written.source (h : Written src dst count mem i m) (hseparate : Separate src dst count)
    (hi : i ≤ count) {j : Nat} (hj : j < count) : m (wordAt src j) = mem (wordAt src j) := by
  apply h.kept
  rw [wordAt]
  rcases hseparate with hbefore | hafter <;> omega

theorem wordLoop_written (hseparate : Separate src dst count)
    {fuel : Nat} (hfuel : count ≤ fuel + i) (hi : i ≤ count) (h : Written src dst count mem i m) :
    Written src dst count mem count (wordLoop src dst count fuel i m) := by
  induction fuel generalizing i m with
  | zero =>
      obtain rfl : i = count := by omega
      exact h
  | succ fuel ih =>
      rw [wordLoop]
      split
      · rename_i hlt
        exact ih (by omega) hlt (h.next (h.source hseparate hi hlt))
      · obtain rfl : i = count := by omega
        exact h

theorem wordLoop_first {fuel : Nat} (hfuel : 0 < fuel) (hi : i < count) :
    wordLoop src dst count fuel i m (wordAt dst i) = swapBytes (m (wordAt src i)) := by
  obtain ⟨fuel, rfl⟩ := Nat.exists_eq_add_of_lt hfuel
  rw [Nat.zero_add, wordLoop, if_pos hi]
  refine wordLoop_invariant (Q := fun m' => m' (wordAt dst i) = swapBytes (m (wordAt src i)))
    (fun j m' hj _ hm' => ?_) (Function.update_self ..)
  rw [ClientLib.writeWord, Function.update_of_ne (by rw [wordAt, wordAt]; omega)]
  exact hm'

end Values

/-! ### The sources that are read again -/

/-- The block with the last word leaves the sources alone that are read again after it. -/
def Clear (src dst count : Nat) : Prop :=
  Fits dst count ∨ src < dst ∨ dst + 32 ≤ src

instance (src dst count : Nat) : Decidable (Clear src dst count) := inferInstanceAs (Decidable (_ ∨ _))

/-- The words of the destination are those of the source with their bytes reversed, as the scalar loop
alone writes them. -/
def Reverses (src dst count : Nat) : Prop :=
  ∀ mem mem', convertEndianess32 src dst count mem = .ok mem' → ∀ i < count,
    mem' (wordAt dst i) = swapBytes (mem (wordAt src i)) ∧
      mem' (wordAt dst i) = wordLoop src dst count count 0 mem (wordAt dst i)

/-- Converted once more, the words are those of the source. -/
def Restores (src dst back count : Nat) : Prop :=
  ∀ mem mem' mem'', convertEndianess32 src dst count mem = .ok mem' →
    convertEndianess32 dst back count mem' = .ok mem'' →
      ∀ i < count, mem'' (wordAt back i) = mem (wordAt src i)

section Reversal

variable {src dst count : Nat}

theorem convertEndianess32_written {mem mem' : Memory} (hsrc : src % 4 = 0) (hdst : dst % 4 = 0)
    (hseparate : Separate src dst count) (hclear : Clear src dst count)
    (h : convertEndianess32 src dst count mem = .ok mem') :
    Written src dst count mem (reach dst count) mem' := by
  have hcount : count ≤ reach dst count := count_le_reach
  refine convertEndianess32_invariant (Q := Written src dst count mem) h ?_ ?_ ?_ Written.start
  · intro i m hi _ hm
    exact hm.next (hm.source hseparate hi.le hi)
  · intro i m _ hi hm
    exact hm.block fun j _ hj => hm.source hseparate hi.le hj
  · intro i m hagain hi hm
    refine hm.writeWord (hi.trans_le hcount) ?_
    rcases hclear with hfits | hclear
    · exact hm.source hseparate ((reach_eq_iff hdst).2 hfits).le hi
    · apply hm.kept
      rw [wordAt]
      rcases hseparate with hbefore | hafter
      · exact Or.inl (by omega)
      · exact Or.inr (by omega)

theorem reverses_of_clear (hsrc : src % 4 = 0) (hdst : dst % 4 = 0)
    (hseparate : Separate src dst count) (hclear : Clear src dst count) :
    Reverses src dst count := by
  intro mem mem' h i hi
  have hcount : count ≤ reach dst count := count_le_reach
  have hvalue := (convertEndianess32_written hsrc hdst hseparate hclear h).done i (by omega) hi
  have hscalar : Written src dst count mem count (wordLoop src dst count count 0 mem) :=
    wordLoop_written hseparate (Nat.le_refl (count + 0)) (Nat.zero_le _) Written.start
  exact ⟨hvalue, hvalue.trans (hscalar.done i hi hi).symm⟩

theorem Reverses.restores {back : Nat} (h : Reverses src dst count) (hback : Reverses dst back count) :
    Restores src dst back count := by
  intro mem mem' mem'' hfirst hsecond i hi
  rw [(hback mem' mem'' hsecond i hi).1, (h mem mem' hfirst i hi).1, swapBytes_swapBytes]

/-- Where the last block is written over sources, its first word is read again after that. -/
theorem clear_of_reverses (hsrc : src % 4 = 0) (hdst : dst % 4 = 0)
    (hseparate : Separate src dst count) (h : Reverses src dst count) : Clear src dst count := by
  by_contra hclear
  rw [Clear, not_or, not_or, ← reach_eq_iff hdst] at hclear
  obtain ⟨hbeyond, hafter, hnear⟩ := hclear
  have hle : dst + 4 * count ≤ src := by
    rcases hseparate with hbefore | hle
    · rw [reach] at hbeyond
      split at hbeyond <;> omega
    · exact hle
  have hhead : head dst < count := by
    rw [reach] at hbeyond
    split at hbeyond <;> omega
  have hreach : reach dst count = head dst + 8 := by
    rw [reach, if_neg (by omega)]
    omega
  -- all words are zero but the one that the block writes over the first source of the third loop
  let place : Nat := wordAt src (wordAt src (head dst) - dst / 4)
  let mem : Memory := Function.update (fun _ => 0) place 1
  have hplace : mem place = 1 := Function.update_self ..
  have hzero : mem (wordAt src (head dst)) = 0 := by
    apply Function.update_of_ne
    change src / 4 + head dst ≠ src / 4 + (src / 4 + head dst - dst / 4)
    omega
  obtain ⟨mem', hmem'⟩ : ∃ mem', convertEndianess32 src dst count mem = .ok mem' :=
    convertEndianess32_isOk hsrc hdst mem
  obtain ⟨m, hm, heq⟩ := convertEndianess32_phases (Q := fun i m =>
    (i ≤ head dst ∧ Written src dst count mem i m) ∨
      (i = head dst + 8 ∧ m (wordAt src (head dst)) = swapBytes 1)) hmem'
    (by
      rintro i m hi hlt (⟨-, hm⟩ | ⟨rfl, -⟩)
      · exact Or.inl ⟨hlt, hm.next (hm.source (Or.inr hle) hi.le hi)⟩
      · omega)
    (by
      rintro i m hge hi (⟨hi', hm⟩ | ⟨rfl, -⟩)
      · obtain rfl : i = head dst := Nat.le_antisymm hi' hge
        refine Or.inr ⟨rfl, ?_⟩
        rw [writeBlock_apply, if_pos (by rw [wordAt, wordAt]; omega)]
        change swapBytes (m place) = _
        rw [hm.kept place, hplace]
        change _ ∨ dst / 4 + head dst ≤ src / 4 + (src / 4 + head dst - dst / 4)
        omega
      · omega)
    (Or.inl ⟨Nat.zero_le _, Written.start⟩)
  have hoverwritten : m (wordAt src (head dst)) = swapBytes 1 := by
    rcases hm with ⟨hle, -⟩ | ⟨-, hm⟩
    · omega
    · exact hm
  rw [if_pos hbeyond, hreach, Nat.add_sub_cancel] at heq
  have hagain : mem' (wordAt dst (head dst)) = swapBytes (m (wordAt src (head dst))) := by
    rw [heq]
    exact wordLoop_first (by omega) hhead
  have hwrong := (h mem mem' hmem' (head dst) hhead).1
  rw [hagain, hoverwritten, hzero, swapBytes_swapBytes] at hwrong
  exact absurd hwrong (by decide)

/-- The destination has the source's words with their bytes reversed if and only if no source lies under
the last block. -/
theorem reverses_iff_clear (hsrc : src % 4 = 0) (hdst : dst % 4 = 0) (hseparate : Separate src dst count) :
    Reverses src dst count ↔ Clear src dst count :=
  ⟨clear_of_reverses hsrc hdst hseparate, reverses_of_clear hsrc hdst hseparate⟩

/-- **Reversal.** A conversion reverses the bytes of the source's words, and the next one those of its
results, each if and only if no source of its own lies under its last block. Where both do, the source's
words are back. -/
theorem reverses_iff (hsrc : src % 4 = 0) (hdst : dst % 4 = 0) (hseparate : Separate src dst count) :
    (Reverses src dst count ↔ Clear src dst count) ∧
      ∀ back, back % 4 = 0 → Separate dst back count →
        (Reverses dst back count ↔ Clear dst back count) ∧
          (Clear src dst count → Clear dst back count → Restores src dst back count) := by
  have hfirst := reverses_iff_clear hsrc hdst hseparate
  refine ⟨hfirst, fun back hback hsep => ?_⟩
  have hsecond := reverses_iff_clear hdst hback hsep
  exact ⟨hsecond, fun hclear hc => (hfirst.2 hclear).restores (hsecond.2 hc)⟩

end Reversal

namespace ShortBuffer

/-- A word into the place before it. -/
theorem one_not_reverses : ¬ Reverses 0x1004 0x1000 1 := by
  intro h
  have hclear := clear_of_reverses (by decide) (by decide) (Or.inr (by decide)) h
  exact absurd hclear (by decide)

/-- The eight words of a block, and back. -/
theorem eight_reverses : Reverses 0x1020 0x1000 8 ∧ Restores 0x1020 0x1000 0x1020 8 := by
  obtain ⟨hfirst, hsecond⟩ := @reverses_iff 0x1020 0x1000 8 (by decide) (by decide) (Or.inr (by decide))
  exact ⟨hfirst.2 (by decide),
    (hsecond 0x1020 (by decide) (Or.inl (by decide))).2 (by decide) (by decide)⟩

end ShortBuffer

end ClientLib

end Mpitofino
