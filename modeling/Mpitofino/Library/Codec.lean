import Mathlib.Data.BitVec
import Mathlib.Data.Fin.Tuple.Basic
import Mathlib.Logic.Equiv.Fin.Basic

/-!
# Codecs of fixed width

A codec writes the values of a type as bits and reads them again, and no two bit strings of its width are
the same value. So cutting a value off the front of a packet and putting it back are inverse to each other.
-/

/-- A bijection between the values of a type and the bit strings of a width. -/
structure Codec (A : Type*) where
  width : Nat
  emit : A → List Bool
  read : List Bool → A
  length_emit : ∀ a, (emit a).length = width
  read_emit : ∀ a, read (emit a) = a
  emit_read : ∀ bits, bits.length = width → emit (read bits) = bits

namespace Codec

attribute [simp] length_emit read_emit

section Extract

variable {A : Type*} (c : Codec A) {a : A} {bits rest : List Bool}

/-- Cut a value off the front, if there are enough bits. -/
def extract (bits : List Bool) : Option (A × List Bool) :=
  if c.width ≤ bits.length then some (c.read (bits.take c.width), bits.drop c.width) else none

@[simp] theorem extract_emit_append (a : A) (rest : List Bool) :
    c.extract (c.emit a ++ rest) = some (a, rest) := by
  have hlength := c.length_emit a
  rw [extract, if_pos (by rw [List.length_append]; omega), List.take_left' hlength,
    List.drop_left' hlength, c.read_emit]

/-- What is cut off is what was put there. -/
theorem extract_eq_some : c.extract bits = some (a, rest) ↔ bits = c.emit a ++ rest := by
  constructor
  · intro h
    rw [extract] at h
    split at h
    · rename_i hle
      obtain ⟨rfl, rfl⟩ := Prod.mk.inj (Option.some.inj h)
      rw [c.emit_read _ (by rw [List.length_take]; omega), List.take_append_drop]
    · contradiction
  · rintro rfl
    exact c.extract_emit_append a rest

/-- What is in front of two equal packets is equal, and so is the rest. -/
theorem emit_append_inj {b : A} {rest' : List Bool} (h : c.emit a ++ rest = c.emit b ++ rest') :
    a = b ∧ rest = rest' := by
  have hextract := c.extract_emit_append a rest
  rw [h, c.extract_emit_append] at hextract
  obtain ⟨hvalue, hrest⟩ := Prod.mk.inj (Option.some.inj hextract)
  exact ⟨hvalue.symm, hrest.symm⟩

end Extract

/-! ### Bit fields -/

def bits (n : Nat) : Codec (BitVec n) where
  width := n
  emit v := (List.range n).map v.getMsbD
  read bits := (BitVec.ofBoolListBE bits).setWidth n
  length_emit v := by rw [List.length_map, List.length_range]
  read_emit v := by
    refine BitVec.eq_of_getMsbD_eq fun i hi => ?_
    simp [BitVec.getMsbD_setWidth, List.getD_eq_getElem?_getD, hi]
  emit_read bits hbits := by
    subst hbits
    refine List.ext_getElem (by simp) fun i h h' => ?_
    simp [List.getD_eq_getElem?_getD, h']

def bool : Codec Bool where
  width := 1
  emit b := [b]
  read bits := bits.headD false
  length_emit _ := rfl
  read_emit _ := rfl
  emit_read bits hbits := by
    obtain ⟨b, rfl⟩ := List.length_eq_one_iff.1 hbits
    rfl

/-! ### Headers -/

section Headers

variable {A B : Type*} (c : Codec A) (d : Codec B)

def unit : Codec Unit where
  width := 0
  emit _ := []
  read _ := ()
  length_emit _ := rfl
  read_emit _ := rfl
  emit_read _ hbits := (List.eq_nil_of_length_eq_zero hbits).symm

def prod : Codec (A × B) where
  width := c.width + d.width
  emit x := c.emit x.1 ++ d.emit x.2
  read bits := (c.read (bits.take c.width), d.read (bits.drop c.width))
  length_emit x := by rw [List.length_append, c.length_emit, d.length_emit]
  read_emit x := by
    rw [List.take_left' (c.length_emit _), List.drop_left' (c.length_emit _), c.read_emit, d.read_emit]
  emit_read bits hbits := by
    rw [c.emit_read _ (by rw [List.length_take]; omega), d.emit_read _ (by rw [List.length_drop]; omega),
      List.take_append_drop]

/-- The values of a type as those of another one. -/
def map (e : A ≃ B) : Codec B where
  width := c.width
  emit b := c.emit (e.symm b)
  read bits := e (c.read bits)
  length_emit b := c.length_emit _
  read_emit b := by rw [c.read_emit, e.apply_symm_apply]
  emit_read bits hbits := by rw [e.symm_apply_apply, c.emit_read _ hbits]

/-- So many values, one behind the other. -/
def vec : (n : Nat) → Codec (Fin n → A)
  | 0 => unit.map (Equiv.ofUnique Unit (Fin 0 → A))
  | n + 1 => (c.prod (vec n)).map (Fin.consEquiv fun _ => A)

end Headers

end Codec
