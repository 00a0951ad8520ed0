import Mathlib.Data.List.Nodup

/-!
# Finite tables

A finite map kept as a list of entries with distinct keys, the way a match-action table is
programmed: an entry is added, modified in place, or deleted, and a deletion loop visits every
entry. `put` is "modify, and add when the key is not there"; `putAll` replays a list of such writes.
What a table holds after any number of writes is read off `lookup_putAll`.
-/

/-- A finite map as a list of entries with distinct keys. -/
structure FinTable (K V : Type*) where
  entries : List (K × V)
  nodup : (entries.map Prod.fst).Nodup

namespace FinTable

variable {K V : Type*}

def empty : FinTable K V := ⟨[], List.nodup_nil⟩

section Writes

variable [DecidableEq K]

def lookup (t : FinTable K V) (k : K) : Option V :=
  (t.entries.find? fun e => decide (e.1 = k)).map Prod.snd

/-- Overwrite the value of a key that is there. -/
def modify? (t : FinTable K V) (k : K) (v : V) : Option (FinTable K V) :=
  if k ∈ t.entries.map Prod.fst then
    some ⟨t.entries.map fun e => if e.1 = k then (k, v) else e, by
      have hkeys : (t.entries.map fun e => if e.1 = k then (k, v) else e).map Prod.fst
          = t.entries.map Prod.fst := by
        rw [List.map_map]
        refine List.map_congr_left fun e _ => ?_
        by_cases h : e.1 = k <;> simp [h]
      rw [hkeys]
      exact t.nodup⟩
  else none

def add? (t : FinTable K V) (k : K) (v : V) : Option (FinTable K V) :=
  if h : k ∈ t.entries.map Prod.fst then none
  else some ⟨t.entries ++ [(k, v)], by
    rw [List.map_append, List.nodup_append]
    refine ⟨t.nodup, List.nodup_singleton _, fun a ha b hb => ?_⟩
    rw [List.map_singleton, List.mem_singleton] at hb
    rintro rfl
    rw [hb] at ha
    exact h ha⟩

/-- Store a value under a key, whether or not the key is there. -/
def put (t : FinTable K V) (k : K) (v : V) : FinTable K V :=
  ((t.modify? k v).or (t.add? k v)).getD t

/-- Replay a list of writes. -/
def putAll (t : FinTable K V) (ws : List (K × V)) : FinTable K V :=
  ws.foldl (fun t w => t.put w.1 w.2) t

/-- The value the last write to a key leaves. -/
def lastWrite (k : K) : List (K × V) → Option V
  | [] => none
  | w :: ws => (lastWrite k ws).or (if w.1 = k then some w.2 else none)

end Writes

/-- Delete every entry that is not kept. -/
def filter (t : FinTable K V) (keep : K → V → Bool) : FinTable K V :=
  ⟨t.entries.filter fun e => keep e.1 e.2, t.nodup.sublist (List.filter_sublist.map Prod.fst)⟩

variable [DecidableEq K]

/-- Delete the entry of a key that is there. -/
def erase? (t : FinTable K V) (k : K) : Option (FinTable K V) :=
  if k ∈ t.entries.map Prod.fst then some (t.filter fun k' _ => k' ≠ k) else none

@[simp] theorem lookup_empty (k : K) : (empty : FinTable K V).lookup k = none := rfl

private theorem find?_eq_some_iff_mem {es : List (K × V)} (hnodup : (es.map Prod.fst).Nodup)
    (k : K) (v : V) :
    (es.find? fun e => decide (e.1 = k)).map Prod.snd = some v ↔ (k, v) ∈ es := by
  induction es with
  | nil => simp
  | cons e es ih =>
      rw [List.map_cons, List.nodup_cons] at hnodup
      obtain ⟨hnot, hrest⟩ := hnodup
      by_cases he : e.1 = k
      · have hout : (k, v) ∉ es := fun hmem =>
          hnot (he ▸ List.mem_map_of_mem (f := Prod.fst) hmem)
        rw [List.find?_cons_of_pos (by simpa using he)]
        simp only [Option.map_some, Option.some.injEq, List.mem_cons, hout, or_false]
        constructor
        · rintro rfl
          exact Prod.ext he.symm rfl
        · intro h
          rw [← h]
      · rw [List.find?_cons_of_neg (by simpa using he), ih hrest, List.mem_cons]
        constructor
        · exact Or.inr
        · rintro (rfl | hmem)
          · exact absurd rfl he
          · exact hmem

theorem mem_entries_iff (t : FinTable K V) {k : K} {v : V} :
    (k, v) ∈ t.entries ↔ t.lookup k = some v :=
  (find?_eq_some_iff_mem t.nodup k v).symm

theorem mem_keys_iff (t : FinTable K V) {k : K} :
    k ∈ t.entries.map Prod.fst ↔ ∃ v, t.lookup k = some v := by
  simp only [List.mem_map, Prod.exists, exists_and_right, exists_eq_right, mem_entries_iff]

/-- After a write the key holds the value written, and every other key what it held. -/
theorem lookup_put (t : FinTable K V) (k : K) (v : V) (k' : K) :
    (t.put k v).lookup k' = if k' = k then some v else t.lookup k' := by
  have hmem : ∀ k'' v'', (k'', v'') ∈ (t.put k v).entries ↔
      if k'' = k then v'' = v else (k'', v'') ∈ t.entries := by
    intro k'' v''
    by_cases hk : k ∈ t.entries.map Prod.fst
    · have hput : (t.put k v).entries = t.entries.map fun e => if e.1 = k then (k, v) else e := by
        simp [put, modify?, hk]
      obtain ⟨⟨k₀, w⟩, hw, rfl⟩ := List.mem_map.1 hk
      rw [hput, List.mem_map]
      by_cases heq : k'' = k₀
      · subst heq
        rw [if_pos rfl]
        constructor
        · rintro ⟨e, -, he⟩
          split at he
          · exact (congrArg Prod.snd he).symm
          · rename_i hne
            exact absurd (congrArg Prod.fst he) hne
        · rintro rfl
          exact ⟨_, hw, if_pos rfl⟩
      · rw [if_neg heq]
        constructor
        · rintro ⟨e, hmem, he⟩
          split at he
          · exact absurd (congrArg Prod.fst he).symm heq
          · rwa [← he]
        · exact fun hmem => ⟨_, hmem, if_neg heq⟩
    · have hput : (t.put k v).entries = t.entries ++ [(k, v)] := by
        simp [put, modify?, add?, hk]
      rw [hput, List.mem_append, List.mem_singleton, Prod.mk.injEq]
      by_cases heq : k'' = k
      · subst heq
        have hout : (k'', v'') ∉ t.entries := fun hin =>
          hk (List.mem_map_of_mem (f := Prod.fst) hin)
        simp [hout]
      · simp [heq]
  by_cases heq : k' = k
  · rw [if_pos heq, ← mem_entries_iff, hmem, if_pos heq]
  · rw [if_neg heq]
    apply Option.ext
    intro v'
    rw [← mem_entries_iff, ← mem_entries_iff, hmem, if_neg heq]

theorem put_eq_modify?_or_add? (t : FinTable K V) (k : K) (v : V) :
    some (t.put k v) = (t.modify? k v).or (t.add? k v) := by
  by_cases hk : k ∈ t.entries.map Prod.fst <;> simp [put, modify?, add?, hk]

@[simp] theorem putAll_nil (t : FinTable K V) : t.putAll [] = t := rfl

@[simp] theorem putAll_cons (t : FinTable K V) (w : K × V) (ws : List (K × V)) :
    t.putAll (w :: ws) = (t.put w.1 w.2).putAll ws := rfl

theorem putAll_append (t : FinTable K V) (ws ws' : List (K × V)) :
    t.putAll (ws ++ ws') = (t.putAll ws).putAll ws' :=
  List.foldl_append

/-- The last write to a key decides what it holds; a key not written keeps its value. -/
theorem lookup_putAll (t : FinTable K V) (ws : List (K × V)) (k : K) :
    (t.putAll ws).lookup k = (lastWrite k ws).or (t.lookup k) := by
  induction ws generalizing t with
  | nil => rfl
  | cons w ws ih =>
      rw [putAll_cons, ih, lookup_put, lastWrite, Option.or_assoc]
      congr 1
      by_cases h : k = w.1
      · simp [h]
      · simp [h, Ne.symm h]

theorem lastWrite_append (k : K) (ws ws' : List (K × V)) :
    lastWrite k (ws ++ ws') = (lastWrite k ws').or (lastWrite k ws) := by
  induction ws with
  | nil => simp [lastWrite]
  | cons w ws ih => rw [List.cons_append, lastWrite, ih, lastWrite, Option.or_assoc]

theorem mem_of_lastWrite {k : K} {v : V} {ws : List (K × V)} (h : lastWrite k ws = some v) :
    (k, v) ∈ ws := by
  induction ws with
  | nil => simp [lastWrite] at h
  | cons w ws ih =>
      rw [lastWrite, Option.or_eq_some_iff] at h
      rcases h with h | ⟨-, h⟩
      · exact List.mem_cons_of_mem _ (ih h)
      · split at h
        · rename_i hw
          obtain rfl := Option.some.inj h
          exact List.mem_cons.2 (Or.inl (Prod.ext hw.symm rfl))
        · contradiction

theorem lastWrite_eq_none_iff {k : K} {ws : List (K × V)} :
    lastWrite k ws = none ↔ k ∉ ws.map Prod.fst := by
  induction ws with
  | nil => simp [lastWrite]
  | cons w ws ih =>
      rw [lastWrite, Option.or_eq_none_iff, ih, List.map_cons, List.mem_cons, not_or]
      by_cases h : w.1 = k
      · simp [h]
      · simp [h, Ne.symm h]

theorem lastWrite_eq_some {k : K} {v : V} {ws : List (K × V)} (hmem : (k, v) ∈ ws)
    (huniq : ∀ v', (k, v') ∈ ws → v' = v) : lastWrite k ws = some v := by
  obtain ⟨v', hv'⟩ := Option.ne_none_iff_exists'.1
    (fun h => lastWrite_eq_none_iff.1 h (List.mem_map_of_mem (f := Prod.fst) hmem))
  rw [hv', huniq v' (mem_of_lastWrite hv')]

theorem lastWrite_of_nodup {k : K} {v : V} {ws : List (K × V)}
    (hnodup : (ws.map Prod.fst).Nodup) (hmem : (k, v) ∈ ws) : lastWrite k ws = some v := by
  refine lastWrite_eq_some hmem fun v' hmem' => ?_
  have h1 := (find?_eq_some_iff_mem hnodup k v).2 hmem
  have h2 := (find?_eq_some_iff_mem hnodup k v').2 hmem'
  exact Option.some.inj (h2.symm.trans h1)

/-- A deletion loop leaves a key its value exactly when the entry is kept. -/
theorem lookup_filter (t : FinTable K V) (keep : K → V → Bool) (k : K) :
    (t.filter keep).lookup k = (t.lookup k).filter (keep k) := by
  apply Option.ext
  intro v
  rw [← mem_entries_iff, Option.filter_eq_some_iff, ← mem_entries_iff]
  exact List.mem_filter

theorem lookup_erase? {t u : FinTable K V} {k : K} (h : t.erase? k = some u) (k' : K) :
    u.lookup k' = if k' = k then none else t.lookup k' := by
  rw [erase?] at h
  split at h
  · obtain rfl := Option.some.inj h
    rw [lookup_filter]
    by_cases hk : k' = k
    · rw [if_pos hk]
      cases t.lookup k' with
      | none => rfl
      | some v => exact Option.filter_some_neg (by simp [hk])
    · rw [if_neg hk]
      cases t.lookup k' with
      | none => rfl
      | some v => exact Option.filter_some_pos (by simp [hk])
  · contradiction

theorem exists_erase? {t : FinTable K V} {k : K} {v : V} (h : t.lookup k = some v) :
    ∃ u, t.erase? k = some u := by
  rw [erase?, if_pos (t.mem_keys_iff.2 ⟨v, h⟩)]
  exact ⟨_, rfl⟩

/-- The keys that a deletion loop deletes. -/
def swept (t : FinTable K V) (keep : K → V → Bool) : List K :=
  (t.entries.filter fun e => !keep e.1 e.2).map Prod.fst

theorem foldlM_erase? {t : FinTable K V} {ks : List K} (hnodup : ks.Nodup)
    (hks : ∀ k ∈ ks, k ∈ t.entries.map Prod.fst) :
    ks.foldlM erase? t = some (t.filter fun k _ => k ∉ ks) := by
  induction ks generalizing t with
  | nil => simp [filter]
  | cons k ks ih =>
      rw [List.nodup_cons] at hnodup
      obtain ⟨hnot, hnodup⟩ := hnodup
      have hfirst : t.erase? k = some (t.filter fun k' _ => k' ≠ k) :=
        if_pos (hks k List.mem_cons_self)
      have hrest : ∀ k' ∈ ks, k' ∈ (t.filter fun k' _ => k' ≠ k).entries.map Prod.fst := by
        intro k' hk'
        obtain ⟨e, he, rfl⟩ := List.mem_map.1 (hks k' (List.mem_cons_of_mem _ hk'))
        refine List.mem_map_of_mem (List.mem_filter.2 ⟨he, decide_eq_true ?_⟩)
        rintro rfl
        exact hnot hk'
      rw [List.foldlM_cons, hfirst]
      refine (ih hnodup hrest).trans (congrArg some ?_)
      simp only [filter, mk.injEq, List.filter_filter]
      refine List.filter_congr fun e _ => ?_
      simp [not_or, Bool.and_comm]

theorem foldlM_swept (t : FinTable K V) (keep : K → V → Bool) :
    (t.swept keep).foldlM erase? t = some (t.filter keep) := by
  have hswept : ∀ e ∈ t.entries, e.1 ∈ t.swept keep ↔ keep e.1 e.2 = false := by
    rintro ⟨k, v⟩ he
    have hkey : ∀ v', (k, v') ∈ t.entries → v' = v := fun v' he' =>
      Option.some.inj ((t.mem_entries_iff.1 he').symm.trans (t.mem_entries_iff.1 he))
    constructor
    · intro hmem
      obtain ⟨⟨k', v'⟩, he', rfl⟩ := List.mem_map.1 hmem
      obtain ⟨hentry, hdrop⟩ := List.mem_filter.1 he'
      rw [← hkey v' hentry]
      simpa using hdrop
    · intro hdrop
      exact List.mem_map.2 ⟨(k, v), List.mem_filter.2 ⟨he, by simpa using hdrop⟩, rfl⟩
  have hnodup : (t.swept keep).Nodup := t.nodup.sublist (List.filter_sublist.map Prod.fst)
  rw [foldlM_erase? hnodup fun k hk => ?_]
  · refine congrArg some ?_
    simp only [filter, mk.injEq]
    refine List.filter_congr fun e he => ?_
    rw [decide_not, Bool.not_eq_eq_eq_not, Bool.eq_iff_iff, decide_eq_true_eq, hswept e he,
      Bool.not_eq_true']
  · obtain ⟨e, he, rfl⟩ := List.mem_map.1 hk
    exact List.mem_map_of_mem (List.mem_filter.1 he).1

/-- Reconciling a table: it held the writes `old` over some permanent entries, the writes `new` are
replayed, and what is not kept is deleted. When everything new and everything permanent is kept, and
an old key that is kept is written again, then the table holds `new` over the permanent entries. -/
theorem filter_lastWrite_eq (keep : V → Bool) {k : K} {old new : List (K × V)} {base : Option V}
    (hnew : ∀ v, (k, v) ∈ new → keep v = true) (hbase : ∀ v, base = some v → keep v = true)
    (hold : ∀ v, (k, v) ∈ old → keep v = true → k ∈ new.map Prod.fst)
    (hdisjoint : k ∈ old.map Prod.fst → base = none) :
    ((lastWrite k new).or ((lastWrite k old).or base)).filter keep =
      (lastWrite k new).or base := by
  cases hn : lastWrite k new with
  | some v => rw [Option.some_or, Option.some_or, Option.filter_some_pos (hnew v (mem_of_lastWrite hn))]
  | none =>
      rw [Option.none_or, Option.none_or]
      cases ho : lastWrite k old with
      | none =>
          rw [Option.none_or]
          cases base with
          | none => rfl
          | some v => exact Option.filter_some_pos (hbase v rfl)
      | some v =>
          have hmem := mem_of_lastWrite ho
          have hdrop : keep v = false := by
            by_contra hkeep
            exact lastWrite_eq_none_iff.1 hn (hold v hmem (Bool.not_eq_false _ ▸ hkeep))
          rw [Option.some_or, Option.filter_some_neg (by simp [hdrop]),
            hdisjoint (List.mem_map_of_mem (f := Prod.fst) hmem)]

end FinTable
