import Mathlib.Data.List.Nodup
import Mathlib.Order.Lattice

/-!
# Ordered maps

A finite map kept as a list of entries with strictly increasing keys, so that iterating over it visits
the keys in order. Inserting under a key that is there changes nothing.
-/

/-- A finite map as a list of entries in the order of their keys. -/
structure OrderedMap (K V : Type*) [LT K] where
  entries : List (K × V)
  sorted : entries.Pairwise fun a b => a.1 < b.1

namespace OrderedMap

variable {K V : Type*}

section Order

variable [LinearOrder K]

def empty : OrderedMap K V := ⟨[], List.Pairwise.nil⟩

def values (m : OrderedMap K V) : List V := m.entries.map Prod.snd

def find? (m : OrderedMap K V) (k : K) : Option V :=
  (m.entries.find? fun e => decide (e.1 = k)).map Prod.snd

/-- The entries after `k` was inserted at its place. -/
def insertEntries (k : K) (v : V) : List (K × V) → List (K × V)
  | [] => [(k, v)]
  | e :: es =>
      if k < e.1 then (k, v) :: e :: es
      else if k = e.1 then e :: es
      else e :: insertEntries k v es

theorem mem_insertEntries {k : K} {v : V} {es : List (K × V)} (hnew : k ∉ es.map Prod.fst)
    {e : K × V} : e ∈ insertEntries k v es ↔ e = (k, v) ∨ e ∈ es := by
  induction es with
  | nil => simp [insertEntries]
  | cons e' es ih =>
      rw [List.map_cons, List.mem_cons, not_or] at hnew
      rw [insertEntries]
      split
      · exact List.mem_cons
      · rw [if_neg hnew.1, List.mem_cons, ih hnew.2, List.mem_cons]
        exact or_left_comm

theorem insertEntries_of_mem {k : K} {v : V} {es : List (K × V)}
    (hsorted : es.Pairwise fun a b => a.1 < b.1) (hold : k ∈ es.map Prod.fst) :
    insertEntries k v es = es := by
  induction es with
  | nil => simp at hold
  | cons e es ih =>
      rw [List.pairwise_cons] at hsorted
      rw [insertEntries]
      by_cases heq : k = e.1
      · rw [if_neg (by rw [heq]; exact lt_irrefl _), if_pos heq]
      · rw [List.map_cons, List.mem_cons] at hold
        have hrest := hold.resolve_left heq
        obtain ⟨e', he', rfl⟩ := List.mem_map.1 hrest
        rw [if_neg (hsorted.1 e' he').asymm, if_neg heq, ih hsorted.2 hrest]

private theorem sorted_insertEntries (k : K) (v : V) {es : List (K × V)}
    (hsorted : es.Pairwise fun a b => a.1 < b.1) :
    (insertEntries k v es).Pairwise fun a b => a.1 < b.1 := by
  by_cases hold : k ∈ es.map Prod.fst
  · rwa [insertEntries_of_mem hsorted hold]
  induction es with
  | nil => exact List.pairwise_singleton _ _
  | cons e es ih =>
      have hcons := List.pairwise_cons.1 hsorted
      rw [List.map_cons, List.mem_cons, not_or] at hold
      rw [insertEntries]
      split
      · rename_i hlt
        refine List.pairwise_cons.2 ⟨fun e' he' => ?_, hsorted⟩
        rcases List.mem_cons.1 he' with rfl | he'
        · exact hlt
        · exact hlt.trans (hcons.1 e' he')
      · rename_i hle
        rw [if_neg hold.1]
        refine List.pairwise_cons.2 ⟨fun e' he' => ?_, ih hcons.2 hold.2⟩
        rcases (mem_insertEntries hold.2).1 he' with rfl | he'
        · exact lt_of_le_of_ne (not_lt.1 hle) (Ne.symm hold.1)
        · exact hcons.1 e' he'

def insert (m : OrderedMap K V) (k : K) (v : V) : OrderedMap K V :=
  ⟨insertEntries k v m.entries, sorted_insertEntries k v m.sorted⟩

def modify (m : OrderedMap K V) (k : K) (f : V → V) : OrderedMap K V :=
  ⟨m.entries.map fun e => if e.1 = k then (e.1, f e.2) else e, by
    rw [List.pairwise_map]
    refine m.sorted.imp fun {a b} h => ?_
    have hfst : ∀ e : K × V, (if e.1 = k then (e.1, f e.2) else e).1 = e.1 := by
      intro e
      split <;> rfl
    rw [hfst, hfst]
    exact h⟩

def erase (m : OrderedMap K V) (k : K) : OrderedMap K V :=
  ⟨m.entries.filter fun e => decide (e.1 ≠ k), m.sorted.sublist List.filter_sublist⟩

theorem nodup_keys (m : OrderedMap K V) : (m.entries.map Prod.fst).Nodup := by
  rw [List.Nodup, List.pairwise_map]
  exact m.sorted.imp fun h => ne_of_lt h

theorem find?_eq_some_iff {m : OrderedMap K V} {k : K} {v : V} :
    m.find? k = some v ↔ (k, v) ∈ m.entries := by
  have hkeys := m.nodup_keys
  constructor
  · intro h
    obtain ⟨e, he, rfl⟩ := Option.map_eq_some_iff.1 h
    have hk : e.1 = k := by simpa using List.find?_some he
    rw [← hk]
    exact List.mem_of_find?_eq_some he
  · intro h
    cases hfind : m.entries.find? fun e => decide (e.1 = k) with
    | none => simpa using List.find?_eq_none.1 hfind (k, v) h
    | some e =>
        have hk : e.1 = k := by simpa using List.find?_some hfind
        have he := List.inj_on_of_nodup_map hkeys (List.mem_of_find?_eq_some hfind) h hk
        rw [find?, hfind, he]
        rfl

theorem find?_eq_none_iff {m : OrderedMap K V} {k : K} :
    m.find? k = none ↔ k ∉ m.entries.map Prod.fst := by
  constructor
  · intro h hmem
    obtain ⟨⟨k', v⟩, he, rfl⟩ := List.mem_map.1 hmem
    rw [find?_eq_some_iff.2 he] at h
    contradiction
  · intro h
    cases hfind : m.find? k with
    | none => rfl
    | some v =>
        exact absurd (List.mem_map_of_mem (f := Prod.fst) (find?_eq_some_iff.1 hfind)) h

theorem mem_values {m : OrderedMap K V} {v : V} : v ∈ m.values ↔ ∃ k, (k, v) ∈ m.entries := by
  simp [values]

theorem mem_insert {m : OrderedMap K V} {k : K} {v : V} (hnew : m.find? k = none) {e : K × V} :
    e ∈ (m.insert k v).entries ↔ e = (k, v) ∨ e ∈ m.entries :=
  mem_insertEntries (find?_eq_none_iff.1 hnew)

theorem length_insert {m : OrderedMap K V} {k : K} {v : V} (hnew : m.find? k = none) :
    (m.insert k v).values.length = m.values.length + 1 := by
  have hentries : ∀ es : List (K × V), k ∉ es.map Prod.fst →
      (insertEntries k v es).length = es.length + 1 := by
    intro es
    induction es with
    | nil => intro _; rfl
    | cons e es ih =>
        intro hnot
        rw [List.map_cons, List.mem_cons, not_or] at hnot
        rw [insertEntries]
        split
        · rfl
        · rw [if_neg hnot.1, List.length_cons, ih hnot.2, List.length_cons]
  rw [values, values, List.length_map, List.length_map]
  exact hentries m.entries (find?_eq_none_iff.1 hnew)

theorem insert_of_find? {m : OrderedMap K V} {k : K} {v v' : V} (hold : m.find? k = some v') :
    m.insert k v = m := by
  have hentries : (m.insert k v).entries = m.entries :=
    insertEntries_of_mem m.sorted
      (List.mem_map_of_mem (f := Prod.fst) (find?_eq_some_iff.1 hold))
  cases m
  simpa [insert] using hentries

theorem mem_erase {m : OrderedMap K V} {k : K} {e : K × V} :
    e ∈ (m.erase k).entries ↔ e ∈ m.entries ∧ e.1 ≠ k := by
  simp [erase]

theorem find?_insert {m : OrderedMap K V} {k : K} {v : V} (hnew : m.find? k = none) (k' : K) :
    (m.insert k v).find? k' = if k' = k then some v else m.find? k' := by
  refine Option.ext fun v' => ?_
  rw [find?_eq_some_iff, mem_insert hnew, Prod.mk.injEq, ← find?_eq_some_iff]
  by_cases hk : k' = k
  · rw [if_pos hk, hk, hnew]
    simp [eq_comm]
  · simp [hk]

theorem find?_erase (m : OrderedMap K V) (k k' : K) :
    (m.erase k).find? k' = if k' = k then none else m.find? k' := by
  refine Option.ext fun v' => ?_
  rw [find?_eq_some_iff, mem_erase, ← find?_eq_some_iff]
  by_cases hk : k' = k
  · simp [hk]
  · simp [hk]

theorem values_modify (m : OrderedMap K V) (k : K) (f : V → V) :
    (m.modify k f).values = m.entries.map fun e => if e.1 = k then f e.2 else e.2 := by
  rw [values, modify, List.map_map]
  refine List.map_congr_left fun e _ => ?_
  change (if e.1 = k then (e.1, f e.2) else e).2 = _
  split <;> rfl

theorem keys_modify (m : OrderedMap K V) (k : K) (f : V → V) :
    (m.modify k f).entries.map Prod.fst = m.entries.map Prod.fst := by
  rw [modify, List.map_map]
  refine List.map_congr_left fun e _ => ?_
  change (if e.1 = k then (e.1, f e.2) else e).1 = _
  split <;> rfl

theorem mem_modify {m : OrderedMap K V} {k : K} {f : V → V} {k' : K} {v' : V} :
    (k', v') ∈ (m.modify k f).entries ↔
      ∃ v, (k', v) ∈ m.entries ∧ v' = if k' = k then f v else v := by
  rw [modify, List.mem_map]
  constructor
  · rintro ⟨⟨k'', v⟩, he, heq⟩
    by_cases h : k'' = k
    · rw [if_pos h, Prod.mk.injEq] at heq
      obtain ⟨rfl, rfl⟩ := heq
      exact ⟨v, he, (if_pos h).symm⟩
    · rw [if_neg h, Prod.mk.injEq] at heq
      obtain ⟨rfl, rfl⟩ := heq
      exact ⟨v, he, (if_neg h).symm⟩
  · rintro ⟨v, he, rfl⟩
    refine ⟨(k', v), he, ?_⟩
    by_cases h : k' = k
    · rw [if_pos h, if_pos h]
    · rw [if_neg h, if_neg h]

theorem find?_modify (m : OrderedMap K V) (k : K) (f : V → V) (k' : K) :
    (m.modify k f).find? k' = if k' = k then (m.find? k').map f else m.find? k' := by
  refine Option.ext fun v' => ?_
  rw [find?_eq_some_iff, mem_modify]
  by_cases hk : k' = k
  · rw [if_pos hk, Option.map_eq_some_iff]
    refine exists_congr fun v => ?_
    rw [find?_eq_some_iff, if_pos hk, eq_comm (a := v')]
  · simp [if_neg hk, find?_eq_some_iff]

theorem modify_eq_self {m : OrderedMap K V} {k : K} {f : V → V}
    (h : ∀ v, (k, v) ∈ m.entries → f v = v) : m.modify k f = m := by
  have hentries : (m.modify k f).entries = m.entries := by
    refine (List.map_congr_left fun e he => ?_).trans (List.map_id _)
    split
    · rename_i hk
      rw [h e.2 (hk ▸ he)]
      rfl
    · rfl
  cases m
  simpa [modify] using hentries

end Order

end OrderedMap
