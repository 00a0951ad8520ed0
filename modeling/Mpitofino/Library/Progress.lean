import Mathlib.Algebra.BigOperators.Group.List.Lemmas
import Mathlib.Algebra.GroupWithZero.Nat
import Mpitofino.Library.Run

/-!
# Progress

Each step of a run does some work, for which it pays from a measure; what comes from outside is paid in.
So the work of a run is bounded, and where some work can be done in every state that is not the end, every
run can be continued to the end.
-/

def finalState {S E : Type*} (s : S) (run : List (E × S)) : S := (run.getLast?.map Prod.snd).getD s

@[simp] theorem finalState_nil {S E : Type*} (s : S) : finalState s ([] : List (E × S)) = s := rfl

@[simp] theorem finalState_cons {S E : Type*} (s : S) (x : E × S) (run : List (E × S)) :
    finalState s (x :: run) = finalState x.2 run := by
  cases run with
  | nil => rfl
  | cons y run => simp [finalState, List.getLast?_eq_some_getLast]

theorem finalState_append {S E : Type*} (s : S) (run run' : List (E × S)) :
    finalState s (run ++ run') = finalState (finalState s run) run' := by
  induction run generalizing s with
  | nil => rfl
  | cons x run ih => rw [List.cons_append, finalState_cons, ih, finalState_cons]

def workOf {S E : Type*} (weight : S → E → S → Nat) : S → List (E × S) → Nat
  | _, [] => 0
  | s, x :: run => weight s x.1 x.2 + workOf weight x.2 run

theorem sum_map_of_ne {A : Type*} {l : List A} (hnodup : l.Nodup) {a : A} (ha : a ∈ l) {f g : A → Nat}
    (hne : ∀ b ∈ l, b ≠ a → g b = f b) : (l.map g).sum + f a = (l.map f).sum + g a := by
  induction l with
  | nil => contradiction
  | cons b l ih =>
      obtain ⟨hb, hl⟩ := List.nodup_cons.1 hnodup
      rw [List.map_cons, List.map_cons, List.sum_cons, List.sum_cons]
      rcases List.mem_cons.1 ha with rfl | ha
      · have hrest : l.map g = l.map f := List.map_congr_left fun c hc =>
          hne c (List.mem_cons_of_mem _ hc) fun heq => hb (heq ▸ hc)
        rw [hrest]
        omega
      · have hrest := ih hl ha fun c hc => hne c (List.mem_cons_of_mem _ hc)
        have hfirst := hne b List.mem_cons_self fun heq => hb (heq ▸ ha)
        omega

namespace Along

variable {S E : Type*} {step : S → E → S → Prop} {I D : S → Prop} {weight : S → E → S → Nat}
  {μ ν : S → Nat} {s : S} {run : List (E × S)}

theorem final (hstep : ∀ s e s', I s → step s e s' → I s') (hrun : Along step s run) (hs : I s) :
    I (finalState s run) := by
  induction run generalizing s with
  | nil => exact hs
  | cons x run ih =>
      rw [finalState_cons]
      exact ih hrun.2 (hstep s x.1 x.2 hs hrun.1)

/-- The work of a run is paid from the measure and from what was paid in. -/
theorem workOf_add_le (hstep : ∀ s e s', I s → step s e s' → I s')
    (hwork : ∀ s e s', I s → step s e s' → weight s e s' + μ s' + ν s ≤ μ s + ν s')
    (hrun : Along step s run) (hs : I s) :
    workOf weight s run + μ (finalState s run) + ν s ≤ μ s + ν (finalState s run) := by
  induction run generalizing s with
  | nil => rw [workOf, finalState_nil, Nat.zero_add]
  | cons x run ih =>
      have hfirst := hwork s x.1 x.2 hs hrun.1
      have hrest := ih hrun.2 (hstep s x.1 x.2 hs hrun.1)
      rw [workOf, finalState_cons]
      omega

/-- Where work can be done until the end, a run comes to it. -/
theorem exists_done (hstep : ∀ s e s', I s → step s e s' → I s')
    (hwork : ∀ s e s', I s → step s e s' → weight s e s' + μ s' ≤ μ s)
    (hprogress : ∀ s, I s → ¬ D s → ∃ run, Along step s run ∧ 0 < workOf weight s run) (hs : I s) :
    ∃ run, Along step s run ∧ D (finalState s run) := by
  induction hμ : μ s using Nat.strong_induction_on generalizing s with
  | _ n ih =>
      by_cases hdone : D s
      · exact ⟨[], trivial, hdone⟩
      obtain ⟨run, hrun, hpositive⟩ := hprogress s hs hdone
      have hpaid := hrun.workOf_add_le (ν := fun _ => 0) hstep hwork hs
      obtain ⟨rest, hrest, hend⟩ := ih (μ (finalState s run)) (by omega) (hrun.final hstep hs) rfl
      exact ⟨run ++ rest, hrun.append hrest, by rwa [finalState_append]⟩

end Along
