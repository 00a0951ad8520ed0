import Mathlib.Data.List.Forall2
import Mathlib.Logic.Function.Basic

/-!
# Streams that share links

What goes to several receivers over one link is one list there, in which each receiver finds its own items
in order. Items on a link may be coded: `R a d x` says that `x` is the code of an item `d` for `a`.
-/

theorem exists_left_of_forall₂ {S T : Type*} {P : S → T → Prop} {l : List S} {l' : List T}
    (h : List.Forall₂ P l l') {y : T} (hy : y ∈ l') : ∃ x ∈ l, P x y := by
  obtain ⟨k, hk, rfl⟩ := List.getElem_of_mem hy
  exact ⟨_, List.getElem_mem (h.length_eq ▸ hk), h.get (h.length_eq ▸ hk) hk⟩

theorem exists_right_of_forall₂ {S T : Type*} {P : S → T → Prop} {l : List S} {l' : List T}
    (h : List.Forall₂ P l l') {x : S} (hx : x ∈ l) : ∃ y ∈ l', P x y :=
  have hflip : List.Forall₂ (flip P) l' l := List.Forall₂.flip h
  exists_left_of_forall₂ hflip hx

/-- The links carry the items of the streams, each on the link at which its receiver is at home. -/
def Shares {A B D X : Type*} [DecidableEq A] (home : A → B) (R : A → D → X → Prop) (streams : A → List D)
    (links : B → List X) : Prop :=
  ∃ tagged : B → List (A × D),
    (∀ b, List.Forall₂ (fun t x => home t.1 = b ∧ R t.1 t.2 x) (tagged b) (links b)) ∧
      ∀ a, streams a = ((tagged (home a)).filter fun t => t.1 = a).map Prod.snd

namespace Shares

variable {A B D X : Type*} [DecidableEq A] {home : A → B} {R : A → D → X → Prop} {streams : A → List D}
  {links : B → List X}

theorem empty : Shares home R (fun _ => []) (fun _ => []) := ⟨fun _ => [], fun _ => .nil, fun _ => rfl⟩

theorem exists_of_mem (h : Shares home R streams links) {b : B} {x : X} (hx : x ∈ links b) :
    ∃ a d, home a = b ∧ R a d x := by
  obtain ⟨tagged, hlinks, -⟩ := h
  obtain ⟨t, -, ht⟩ := exists_left_of_forall₂ (hlinks b) hx
  exact ⟨t.1, t.2, ht⟩

theorem exists_of_stream (h : Shares home R streams links) {a : A} {d : D} (hd : d ∈ streams a) :
    ∃ x ∈ links (home a), R a d x := by
  obtain ⟨tagged, hlinks, hstreams⟩ := h
  rw [hstreams] at hd
  obtain ⟨t, ht, rfl⟩ := List.mem_map.1 hd
  obtain ⟨hmem, htag⟩ := List.mem_filter.1 ht
  obtain ⟨x, hx, hcode⟩ := exists_right_of_forall₂ (hlinks (home a)) hmem
  exact ⟨x, hx, of_decide_eq_true htag ▸ hcode.2⟩

section Ends

variable [DecidableEq B]

theorem push (h : Shares home R streams links) {a : A} {d : D} {x : X} (hx : R a d x) :
    Shares home R (Function.update streams a (streams a ++ [d]))
      (Function.update links (home a) (links (home a) ++ [x])) := by
  obtain ⟨tagged, hlinks, hstreams⟩ := h
  refine ⟨Function.update tagged (home a) (tagged (home a) ++ [(a, d)]), fun b => ?_, fun a' => ?_⟩
  · by_cases hb : b = home a
    · subst hb
      rw [Function.update_self, Function.update_self]
      exact List.rel_append (hlinks _) (.cons ⟨rfl, hx⟩ .nil)
    · rw [Function.update_of_ne hb, Function.update_of_ne hb]
      exact hlinks b
  · by_cases ha : a' = a
    · subst ha
      rw [Function.update_self, Function.update_self, hstreams]
      simp
    · rw [Function.update_of_ne ha, hstreams]
      by_cases hhome : home a' = home a
      · rw [hhome, Function.update_self]
        simp [Ne.symm ha]
      · rw [Function.update_of_ne hhome]

theorem pop (h : Shares home R streams links) {b : B} {x : X} {rest : List X} (hb : links b = x :: rest) :
    ∃ a d ds, home a = b ∧ R a d x ∧ streams a = d :: ds ∧
      Shares home R (Function.update streams a ds) (Function.update links b rest) := by
  obtain ⟨tagged, hlinks, hstreams⟩ := h
  obtain ⟨t, ts, ⟨rfl, hx⟩, hrest, htagged⟩ := List.forall₂_cons_right_iff.1 (hb ▸ hlinks b)
  refine ⟨t.1, t.2, (ts.filter fun t' => t'.1 = t.1).map Prod.snd, rfl, hx, ?_,
    Function.update tagged (home t.1) ts, fun b => ?_, fun a => ?_⟩
  · rw [hstreams, htagged]
    simp
  · by_cases hb : b = home t.1
    · subst hb
      rw [Function.update_self, Function.update_self]
      exact hrest
    · rw [Function.update_of_ne hb, Function.update_of_ne hb]
      exact hlinks b
  · by_cases ha : a = t.1
    · subst ha
      rw [Function.update_self, Function.update_self]
    · rw [Function.update_of_ne ha, hstreams]
      by_cases hhome : home a = home t.1
      · rw [hhome, Function.update_self, htagged]
        simp [Ne.symm ha]
      · rw [Function.update_of_ne hhome]

end Ends

/-- Where the codes tell the receivers of a link apart, each of them finds its stream. -/
theorem filter {K : Type*} [DecidableEq K] (h : Shares home R streams links) {key : X → K} {name : A → K}
    (hkey : ∀ a d x, R a d x → key x = name a) {a : A}
    (hname : ∀ a' d x, R a' d x → name a' = name a → a' = a) :
    List.Forall₂ (R a) (streams a) ((links (home a)).filter fun x => key x = name a) := by
  obtain ⟨tagged, hlinks, hstreams⟩ := h
  rw [hstreams, List.forall₂_map_left_iff]
  have hlink := hlinks (home a)
  generalize tagged (home a) = ts at hlink ⊢
  generalize links (home a) = xs at hlink ⊢
  induction hlink with
  | nil => exact .nil
  | @cons t x ts xs hhead _ ih =>
      by_cases ht : t.1 = a
      · rw [List.filter_cons_of_pos (by simpa using ht),
          List.filter_cons_of_pos (by simp [hkey _ _ _ hhead.2, ht])]
        exact .cons (ht ▸ hhead.2) ih
      · have hne : key x ≠ name a := by
          rw [hkey _ _ _ hhead.2]
          exact fun heq => ht (hname _ _ _ hhead.2 heq)
        rw [List.filter_cons_of_neg (by simpa using ht), List.filter_cons_of_neg (by simpa using hne)]
        exact ih

end Shares
