import Mathlib.Data.List.Forall2
import Mathlib.Data.List.TakeDrop

/-!
# Sequences of repeated classes

A regular expression that is a sequence of pieces, each a class of characters repeated a bounded number
of times, matched as a whole by backtracking: every piece takes as many characters as it can, and fewer
only if the rest does not match. The match that is found is the one with the longest parts, the first
part first.
-/

/-- A class of characters that is repeated. -/
structure Piece (α : Type*) where
  accepts : α → Bool
  atLeast : Nat
  atMost : Nat

namespace Piece

variable {α : Type*}

structure Matches (p : Piece α) (part : List α) : Prop where
  atLeast_le : p.atLeast ≤ part.length
  le_atMost : part.length ≤ p.atMost
  accepts : ∀ x ∈ part, p.accepts x = true

instance (p : Piece α) (part : List α) : Decidable (p.Matches part) :=
  decidable_of_iff (p.atLeast ≤ part.length ∧ part.length ≤ p.atMost ∧ ∀ x ∈ part, p.accepts x = true)
    ⟨fun ⟨h₁, h₂, h₃⟩ => ⟨h₁, h₂, h₃⟩, fun h => ⟨h.atLeast_le, h.le_atMost, h.accepts⟩⟩

/-- How many characters of a string a piece takes, the most first. -/
def lengths (p : Piece α) (s : List α) : List Nat :=
  (List.range (min p.atMost s.length + 1)).reverse.filter fun n => p.Matches (s.take n)

/-- The parts that the pieces take. -/
def search : List (Piece α) → List α → Option (List (List α))
  | [], s => if s.isEmpty then some [] else none
  | p :: ps, s => (p.lengths s).findSome? fun n => (search ps (s.drop n)).map (s.take n :: ·)

structure Split (ps : List (Piece α)) (s : List α) (parts : List (List α)) : Prop where
  flatten : parts.flatten = s
  forall₂ : List.Forall₂ Matches ps parts

/-- The first parts of different lengths are longer than the others. -/
def Longer : List (List α) → List (List α) → Prop
  | part :: parts, part' :: parts' =>
      part'.length < part.length ∨ part'.length = part.length ∧ Longer parts parts'
  | _, _ => False

/-- The parts are longer than any others. -/
structure Preferred (ps : List (Piece α)) (s : List α) (parts : List (List α)) : Prop where
  split : Split ps s parts
  longest : ∀ parts', Split ps s parts' → parts' = parts ∨ Longer parts parts'

section Search

variable {p : Piece α} {ps : List (Piece α)} {s : List α} {parts : List (List α)} {n : Nat}

theorem mem_lengths : n ∈ p.lengths s ↔ n ≤ s.length ∧ p.Matches (s.take n) := by
  rw [lengths, List.mem_filter, List.mem_reverse, List.mem_range, decide_eq_true_eq]
  constructor
  · rintro ⟨hlt, hmatches⟩
    exact ⟨by omega, hmatches⟩
  · rintro ⟨hle, hmatches⟩
    have hmost := hmatches.le_atMost
    rw [List.length_take_of_le hle] at hmost
    exact ⟨by omega, hmatches⟩

theorem lengths_pairwise : (p.lengths s).Pairwise (· > ·) := by
  refine List.Pairwise.filter _ (List.pairwise_reverse.2 ?_)
  exact List.pairwise_lt_range

theorem split_nil : Split [] s parts ↔ s = [] ∧ parts = [] := by
  constructor
  · rintro ⟨rfl, hparts⟩
    obtain rfl := List.forall₂_nil_left_iff.1 hparts
    exact ⟨rfl, rfl⟩
  · rintro ⟨rfl, rfl⟩
    exact ⟨rfl, .nil⟩

theorem split_cons {part : List α} : Split (p :: ps) s (part :: parts) ↔
    p.Matches part ∧ ∃ rest, s = part ++ rest ∧ Split ps rest parts := by
  constructor
  · rintro ⟨rfl, hparts⟩
    obtain ⟨hpart, hparts⟩ := List.forall₂_cons.1 hparts
    exact ⟨hpart, _, List.flatten_cons, rfl, hparts⟩
  · rintro ⟨hpart, rest, rfl, rfl, hparts⟩
    exact ⟨List.flatten_cons, .cons hpart hparts⟩

theorem Split.exists_cons (h : Split (p :: ps) s parts) : ∃ part parts', parts = part :: parts' := by
  obtain ⟨part, parts', -, -, rfl⟩ := List.forall₂_cons_left_iff.1 h.forall₂
  exact ⟨part, parts', rfl⟩

theorem Longer.asymm {parts parts' : List (List α)} (h : Longer parts parts') :
    ¬ Longer parts' parts := by
  induction parts generalizing parts' with
  | nil => exact absurd h not_false
  | cons part parts ih =>
      cases parts' with
      | nil => exact absurd h not_false
      | cons part' parts' =>
          rw [Longer] at h ⊢
          rintro (hlt | ⟨heq, h'⟩)
          · omega
          · exact ih (h.resolve_left (by omega)).2 h'

theorem Preferred.eq {parts' : List (List α)} (h : Preferred ps s parts) (h' : Preferred ps s parts') :
    parts = parts' := by
  rcases h'.longest _ h.split with heq | hlonger
  · exact heq
  · rcases h.longest _ h'.split with heq | hlonger'
    · exact heq.symm
    · exact absurd hlonger' hlonger.asymm

/-- The search gives the preferred parts, and none where there are none. -/
theorem search_spec (ps : List (Piece α)) (s : List α) :
    (∀ parts, search ps s = some parts → Preferred ps s parts) ∧
      (search ps s = none → ∀ parts, ¬ Split ps s parts) := by
  induction ps generalizing s with
  | nil =>
      rw [search]
      split
      · rename_i hempty
        have hs := List.isEmpty_iff.1 hempty
        refine ⟨fun parts hparts => ?_, nofun⟩
        obtain rfl := Option.some.inj hparts
        exact ⟨split_nil.2 ⟨hs, rfl⟩, fun parts' hparts' => Or.inl (split_nil.1 hparts').2⟩
      · rename_i hempty
        refine ⟨nofun, fun _ parts hparts => hempty ?_⟩
        exact List.isEmpty_iff.2 (split_nil.1 hparts).1
  | cons p ps ih =>
      rw [search]
      constructor
      · intro parts hparts
        obtain ⟨longer, n, shorter, hlengths, hfound, hlonger⟩ := List.findSome?_eq_some_iff.1 hparts
        obtain ⟨rest, hrest, rfl⟩ := Option.map_eq_some_iff.1 hfound
        obtain ⟨hn, hmatches⟩ := mem_lengths.1 (hlengths ▸ List.mem_append_right longer List.mem_cons_self)
        have hpreferred := (ih (s.drop n)).1 rest hrest
        refine ⟨split_cons.2 ⟨hmatches, _, (List.take_append_drop n s).symm, hpreferred.split⟩, ?_⟩
        intro parts' hparts'
        obtain ⟨part', rest', rfl⟩ := hparts'.exists_cons
        obtain ⟨hmatches', s', hs, hrest'⟩ := split_cons.1 hparts'
        have htake : s.take part'.length = part' := by
          rw [hs]
          exact List.take_left
        have hdrop : s.drop part'.length = s' := by
          rw [hs]
          exact List.drop_left
        rcases Nat.lt_trichotomy part'.length n with hlt | heq | hgt
        · exact Or.inr (Or.inl (by rwa [List.length_take_of_le hn]))
        · rw [← heq, hdrop] at hpreferred
          rw [← heq, htake]
          rcases hpreferred.longest rest' hrest' with rfl | hlonger
          · exact Or.inl rfl
          · exact Or.inr (Or.inr ⟨rfl, hlonger⟩)
        · -- the longer part was tried before
          have hmem : part'.length ∈ p.lengths s := by
            refine mem_lengths.2 ⟨?_, htake.symm ▸ hmatches'⟩
            rw [hs, List.length_append]
            exact Nat.le_add_right ..
          have hbefore : part'.length ∈ longer := by
            have hpairwise := lengths_pairwise (p := p) (s := s)
            rw [hlengths, List.pairwise_append] at hpairwise
            rw [hlengths, List.mem_append, List.mem_cons] at hmem
            rcases hmem with hmem | heq | hmem
            · exact hmem
            · omega
            · have hlt := (List.pairwise_cons.1 hpairwise.2.1).1 _ hmem
              omega
          have hnone := Option.map_eq_none_iff.1 (hlonger _ hbefore)
          exact absurd (hdrop.symm ▸ hrest') ((ih _).2 hnone rest')
      · intro hnone parts hparts
        obtain ⟨part, rest, rfl⟩ := hparts.exists_cons
        obtain ⟨hmatches, s', rfl, hrest⟩ := split_cons.1 hparts
        have hmem : part.length ∈ p.lengths (part ++ s') := by
          refine mem_lengths.2 ⟨?_, ?_⟩
          · rw [List.length_append]
            exact Nat.le_add_right ..
          · rwa [List.take_left]
        have hfail := List.findSome?_eq_none_iff.1 hnone _ hmem
        rw [List.drop_left] at hfail
        exact (ih s').2 (Option.map_eq_none_iff.1 hfail) rest hrest

theorem search_eq_some_iff : search ps s = some parts ↔ Preferred ps s parts := by
  obtain ⟨hsome, hnone⟩ := search_spec ps s
  refine ⟨hsome parts, fun h => ?_⟩
  cases hsearch : search ps s with
  | none => exact absurd h.split (hnone hsearch parts)
  | some parts' => rw [(hsome parts' hsearch).eq h]

theorem Preferred.cons {part rest : List α} (hrest : Preferred ps rest parts) (hpart : p.Matches part)
    (hend : part.length = p.atMost ∨ ∀ x, rest.head? = some x → p.accepts x = false) :
    Preferred (p :: ps) (part ++ rest) (part :: parts) := by
  refine ⟨split_cons.2 ⟨hpart, rest, rfl, hrest.split⟩, fun parts' hparts' => ?_⟩
  obtain ⟨part', parts', rfl⟩ := hparts'.exists_cons
  obtain ⟨hpart', rest', heq, hrest'⟩ := split_cons.1 hparts'
  rcases List.append_eq_append_iff.1 heq with ⟨more, rfl, rfl⟩ | ⟨more, rfl, rfl⟩
  · have hmore : more = [] := by
      rcases hend with hmost | hstop
      · have hle := hpart'.le_atMost
        rw [List.length_append, hmost] at hle
        exact List.length_eq_zero_iff.1 (by omega)
      · cases more with
        | nil => rfl
        | cons x more =>
            have haccepts := hpart'.accepts x (List.mem_append_right _ List.mem_cons_self)
            rw [hstop x rfl] at haccepts
            contradiction
    subst hmore
    rw [List.append_nil]
    rw [List.nil_append] at hrest
    exact (hrest.longest parts' hrest').imp (congrArg _) fun hlonger => Or.inr ⟨rfl, hlonger⟩
  · rcases more.eq_nil_or_concat with rfl | ⟨init, x, rfl⟩
    · rw [List.nil_append] at hrest'
      rw [List.append_nil]
      exact (hrest.longest parts' hrest').imp (congrArg _) fun hlonger => Or.inr ⟨rfl, hlonger⟩
    · refine Or.inr (Or.inl ?_)
      rw [List.length_append, List.concat_eq_append, List.length_append, List.length_singleton]
      omega

end Search

end Piece
