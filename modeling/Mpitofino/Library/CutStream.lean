import Mathlib.Data.List.Basic
import Mathlib.Data.List.TakeDrop

/-!
# Streams that cut

A stream takes and gives elements in order, as many at a time as it likes, but at least one of those
that are asked for. What a loop writes or reads does not depend on where the stream cuts.
-/

/-- What is in a stream, and how much the next transfers take. -/
structure CutStream (α : Type*) where
  pending : List α
  cuts : Nat → Nat

namespace CutStream

variable {α : Type*}

/-- How much of `n` elements the next transfer takes. -/
def amount (s : CutStream α) (n : Nat) : Nat := max 1 (min (s.cuts 0) n)

def write (data : List α) (s : CutStream α) : Nat × CutStream α :=
  (s.amount data.length, ⟨s.pending ++ data.take (s.amount data.length), fun i => s.cuts (i + 1)⟩)

/-- At most `n` elements are read. At the end of the stream there are none. -/
def read (n : Nat) (s : CutStream α) : List α × CutStream α :=
  (s.pending.take (s.amount n), ⟨s.pending.drop (s.amount n), fun i => s.cuts (i + 1)⟩)

/-- The loop that writes from a position on. -/
def writeLoop (data : List α) : Nat → Nat → CutStream α → CutStream α
  | 0, _, s => s
  | fuel + 1, pos, s =>
      if pos < data.length then
        writeLoop data fuel (pos + (s.write (data.drop pos)).1) (s.write (data.drop pos)).2
      else s

def readLoop (n : Nat) : Nat → List α → CutStream α → Option (List α) × CutStream α
  | 0, got, s => (some got, s)
  | fuel + 1, got, s =>
      if got.length < n then
        if (s.read (n - got.length)).1 = [] then (none, (s.read (n - got.length)).2)
        else readLoop n fuel (got ++ (s.read (n - got.length)).1) (s.read (n - got.length)).2
      else (some got, s)

section Transfers

variable {s : CutStream α} {n : Nat}

theorem amount_pos : 0 < s.amount n := Nat.lt_of_lt_of_le Nat.zero_lt_one (Nat.le_max_left ..)

theorem amount_le (hn : 0 < n) : s.amount n ≤ n := Nat.max_le.2 ⟨hn, Nat.min_le_right ..⟩

end Transfers

/-- All that is left is written, however it is cut. -/
theorem writeLoop_pending {data : List α} {fuel pos : Nat} {s : CutStream α}
    (hfuel : data.length ≤ fuel + pos) :
    (writeLoop data fuel pos s).pending = s.pending ++ data.drop pos := by
  induction fuel generalizing pos s with
  | zero => rw [writeLoop, List.drop_eq_nil_of_le (by omega), List.append_nil]
  | succ fuel ih =>
      rw [writeLoop]
      split
      · have hpos := s.amount_pos (n := (data.drop pos).length)
        have hamount : (s.write (data.drop pos)).1 = s.amount (data.drop pos).length := rfl
        rw [ih (by omega), hamount, write, List.append_assoc, ← List.drop_drop, List.take_append_drop]
      · rw [List.drop_eq_nil_of_le (by omega), List.append_nil]

theorem take_read {s : CutStream α} {n k : Nat} (hle : s.amount n ≤ k) :
    (s.read n).1 ++ (s.read n).2.pending.take (k - (s.read n).1.length) = s.pending.take k ∧
      (s.read n).2.pending.drop (k - (s.read n).1.length) = s.pending.drop k := by
  have hsplit : (s.read n).1 ++ (s.read n).2.pending = s.pending := List.take_append_drop ..
  have hlength : (s.read n).1.length ≤ k := Nat.le_trans (List.length_take_le ..) hle
  constructor
  · rw [← hsplit, List.take_append, List.take_of_length_le hlength]
  · rw [← hsplit, List.drop_append, List.drop_eq_nil_of_le hlength, List.nil_append]

/-- As many elements are read as asked for, however they are cut, unless the stream ends before. -/
theorem readLoop_eq {n fuel : Nat} {got : List α} {s : CutStream α} (hgot : got.length ≤ n)
    (hfuel : n ≤ fuel + got.length) :
    (readLoop n fuel got s).1 = (if n ≤ got.length + s.pending.length then
      some (got ++ s.pending.take (n - got.length)) else none) ∧
    (readLoop n fuel got s).2.pending = s.pending.drop (n - got.length) := by
  induction fuel generalizing got s with
  | zero =>
      have hn : n - got.length = 0 := by omega
      rw [readLoop, hn, if_pos (by omega), List.take_zero, List.append_nil, List.drop_zero]
      exact ⟨rfl, rfl⟩
  | succ fuel ih =>
      rw [readLoop]
      split
      · rename_i hlt
        have hle := s.amount_le (n := n - got.length) (by omega)
        split
        · rename_i hend
          have hnil : s.pending = [] := by
            rcases List.take_eq_nil_iff.1 hend with hzero | hnil
            · exact absurd hzero (Nat.ne_of_gt amount_pos)
            · exact hnil
          rw [read, hnil, if_neg (by rw [List.length_nil]; omega), List.drop_nil, List.drop_nil]
          exact ⟨rfl, rfl⟩
        · rename_i hsome
          have hpos := List.length_pos_iff.2 hsome
          have hlength : (s.read (n - got.length)).1.length ≤ n - got.length :=
            Nat.le_trans (List.length_take_le ..) hle
          have hsplit : (s.read (n - got.length)).1.length + (s.read (n - got.length)).2.pending.length
              = s.pending.length := by
            rw [← List.length_append]
            exact congrArg List.length (List.take_append_drop ..)
          obtain ⟨hresult, hpending⟩ := @ih (got ++ (s.read (n - got.length)).1)
            (s.read (n - got.length)).2 (by rw [List.length_append]; omega)
            (by rw [List.length_append]; omega)
          obtain ⟨htake, hdrop⟩ := take_read hle
          rw [List.length_append, ← Nat.sub_sub] at hresult hpending
          rw [hresult, hpending, hdrop, List.append_assoc, htake, Nat.add_assoc, hsplit]
          exact ⟨rfl, rfl⟩
      · have hn : n - got.length = 0 := by omega
        rw [hn, if_pos (by omega), List.take_zero, List.append_nil, List.drop_zero]
        exact ⟨rfl, rfl⟩

/-- A buffer is read from the start of the stream. -/
theorem readLoop_start (n : Nat) (s : CutStream α) :
    (readLoop n n [] s).1 = (if n ≤ s.pending.length then some (s.pending.take n) else none) ∧
      (readLoop n n [] s).2.pending = s.pending.drop n := by
  have heq := @readLoop_eq α n n [] s (Nat.zero_le _) (Nat.le_refl _)
  rwa [List.length_nil, Nat.zero_add, Nat.sub_zero, List.nil_append] at heq

end CutStream
