import Mpitofino.Library.FinTable
import Mathlib.Data.BitVec

/-!
# Ternary matching

A ternary key matches a word when they agree under the key's mask. When several entries of a table
match and no priority is given, the hardware may answer with any of them: a `Tcam` is a choice of an
answer that is only known to come from a matching entry, and to exist when one matches. A result
about every `Tcam` does not depend on how ties are broken.
-/

/-- A value with a mask. -/
structure Ternary (w : Nat) where
  value : BitVec w
  mask : BitVec w
  deriving DecidableEq

namespace Ternary

variable {w : Nat}

def Matches (t : Ternary w) (x : BitVec w) : Prop := x &&& t.mask = t.value &&& t.mask

instance (t : Ternary w) (x : BitVec w) : Decidable (t.Matches x) :=
  inferInstanceAs (Decidable (x &&& t.mask = t.value &&& t.mask))

def exact (v : BitVec w) : Ternary w := ⟨v, BitVec.allOnes w⟩

def any : Ternary w := ⟨0, 0⟩

@[simp] theorem matches_exact {v x : BitVec w} : (exact v).Matches x ↔ x = v := by
  simp [Matches, exact]

@[simp] theorem matches_any (x : BitVec w) : (any : Ternary w).Matches x := by
  simp [Matches, any]

end Ternary

/-- A lookup in a table of which several entries may match. -/
structure Tcam {K Q : Type} (hits : K → Q → Prop) (V : Type) where
  pick : FinTable K V → Q → Option V
  hit_of_pick : ∀ {t q v}, pick t q = some v → ∃ k, (k, v) ∈ t.entries ∧ hits k q
  miss_of_pick : ∀ {t q}, pick t q = none → ∀ e ∈ t.entries, ¬ hits e.1 q

namespace Tcam

variable {K Q V : Type} {hits : K → Q → Prop}

/-- When every matching entry holds one value and one matches, that value is the answer. -/
theorem pick_eq_some (m : Tcam hits V) {t : FinTable K V} {q : Q} {k : K} {v : V}
    (hmem : (k, v) ∈ t.entries) (hhit : hits k q)
    (huniq : ∀ k' v', (k', v') ∈ t.entries → hits k' q → v' = v) : m.pick t q = some v := by
  cases hpick : m.pick t q with
  | none => exact absurd hhit (m.miss_of_pick hpick _ hmem)
  | some v' =>
      obtain ⟨k', hmem', hhit'⟩ := m.hit_of_pick hpick
      rw [huniq k' v' hmem' hhit']

theorem pick_eq_none (m : Tcam hits V) {t : FinTable K V} {q : Q}
    (hmiss : ∀ e ∈ t.entries, ¬ hits e.1 q) : m.pick t q = none := by
  cases hpick : m.pick t q with
  | none => rfl
  | some v =>
      obtain ⟨k, hmem, hhit⟩ := m.hit_of_pick hpick
      exact absurd hhit (hmiss _ hmem)

/-- The lookup that answers with the first matching entry. -/
def first (hits : K → Q → Prop) [∀ k q, Decidable (hits k q)] (V : Type) : Tcam hits V where
  pick t q := (t.entries.find? fun e => decide (hits e.1 q)).map Prod.snd
  hit_of_pick {t q v} h := by
    obtain ⟨e, he, rfl⟩ := Option.map_eq_some_iff.1 h
    exact ⟨e.1, List.mem_of_find?_eq_some he, by simpa using List.find?_some he⟩
  miss_of_pick {t q} h e he := by
    simpa using List.find?_eq_none.1 (Option.map_eq_none_iff.1 h) e he

end Tcam
