import Mathlib.Algebra.BigOperators.Group.List.Basic
import Mathlib.Logic.Function.Basic

/-!
# Combining in rounds

Parties give one value each in every round, in any order. When all the values of a round are there,
their sum is released, and the next round begins.
-/

/-- What was given by each party in each round, and the sums that were released. -/
structure Combiner (P V : Type*) where
  given : P → Nat → Option V
  released : List V

namespace Combiner

variable {P V : Type*} [AddCommMonoid V]

/-- The round that is not over yet. -/
def round (c : Combiner P V) : Nat := c.released.length

def start : Combiner P V := ⟨fun _ _ => none, []⟩

variable (parties : List P)

def sumOf (c : Combiner P V) (n : Nat) : V := (parties.map fun i => (c.given i n).getD 0).sum

variable [DecidableEq P]

/-- A party gives its value of the round. -/
def give (c : Combiner P V) (i : P) (v : V) : Combiner P V :=
  { c with given := Function.update c.given i (Function.update (c.given i) c.round (some v)) }

def release (c : Combiner P V) : Combiner P V :=
  { c with released := c.released ++ [c.sumOf parties c.round] }

inductive Step : Combiner P V → Combiner P V → Prop where
  | give {c : Combiner P V} {i : P} (v : V) (hi : i ∈ parties) (hnew : c.given i c.round = none) :
      Step c (c.give i v)
  | release {c : Combiner P V} (hall : ∀ i ∈ parties, (c.given i c.round).isSome) :
      Step c (c.release parties)

/-- Nothing is given for a later round, nothing is missing of an earlier one, and what was released is
the sum of what was given. -/
structure Sound (c : Combiner P V) : Prop where
  future : ∀ i n, c.round < n → c.given i n = none
  past : ∀ n < c.round, ∀ i ∈ parties, (c.given i n).isSome
  sums : ∀ n v, c.released[n]? = some v → v = c.sumOf parties n

variable {parties}

omit [DecidableEq P] in
theorem sound_start : (start : Combiner P V).Sound parties :=
  ⟨fun _ _ _ => rfl, fun _ hn => absurd hn (Nat.not_lt_zero _), fun _ _ hv => by contradiction⟩

omit [AddCommMonoid V] in
theorem given_give (c : Combiner P V) (i : P) (v : V) (i' : P) {n : Nat} (hn : n ≠ c.round) :
    (c.give i v).given i' n = c.given i' n := by
  change Function.update c.given i (Function.update (c.given i) c.round (some v)) i' n = _
  by_cases hi : i' = i
  · rw [hi, Function.update_self, Function.update_of_ne hn]
  · rw [Function.update_of_ne hi]

omit [DecidableEq P] in
theorem round_release (c : Combiner P V) : (c.release parties).round = c.round + 1 :=
  List.length_append ..

theorem Sound.give {c : Combiner P V} (h : c.Sound parties) (i : P) (v : V) :
    (c.give i v).Sound parties := by
  refine ⟨fun i' n hn => ?_, fun n hn i' hi' => ?_, fun n v' hv' => ?_⟩
  · rw [given_give c i v i' (Nat.ne_of_gt hn)]
    exact h.future i' n hn
  · rw [given_give c i v i' (Nat.ne_of_lt hn)]
    exact h.past n hn i' hi'
  · have hn : n < c.round := (List.getElem?_eq_some_iff.1 hv').1
    rw [h.sums n v' hv', sumOf, sumOf]
    exact congrArg List.sum (List.map_congr_left fun i' _ => by
      rw [given_give c i v i' (Nat.ne_of_lt hn)])

omit [DecidableEq P] in
theorem Sound.release {c : Combiner P V} (h : c.Sound parties)
    (hall : ∀ i ∈ parties, (c.given i c.round).isSome) : (c.release parties).Sound parties := by
  refine ⟨fun i n hn => h.future i n ?_, fun n hn i hi => ?_, fun n v hv => ?_⟩
  · rw [round_release] at hn
    omega
  · rw [round_release] at hn
    rcases Nat.lt_succ_iff_lt_or_eq.1 hn with hn | rfl
    · exact h.past n hn i hi
    · exact hall i hi
  · change (c.released ++ [c.sumOf parties c.round])[n]? = some v at hv
    rcases Nat.lt_trichotomy n c.released.length with hn | rfl | hn
    · rw [List.getElem?_append_left hn] at hv
      exact h.sums n v hv
    · rw [List.getElem?_append_right (Nat.le_refl _), Nat.sub_self] at hv
      exact (Option.some.inj hv).symm
    · rw [List.getElem?_eq_none (by rw [List.length_append]; exact hn)] at hv
      contradiction

end Combiner
