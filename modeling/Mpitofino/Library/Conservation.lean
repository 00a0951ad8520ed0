import Mpitofino.Library.Progress

/-!
# Conservation

The events of a run put things into a system and take things out of it, each kind in an order. If no step
loses, adds or reorders anything, then neither does a run: what came out, and behind it what is held at its
end, is what was held at its start, and behind it what was put in.
-/

/-- What the events of a run contribute, in order. -/
def contributionsOf {S E A : Type*} (f : S → E → List A) : S → List (E × S) → List A
  | _, [] => []
  | s, x :: run => f s x.1 ++ contributionsOf f x.2 run

/-- What holds of everything that each event contributes. -/
theorem forall_mem_contributionsOf {S E A : Type*} {f : S → E → List A} {P : A → Prop} {s : S}
    {run : List (E × S)} (h : Along (fun s e _ => ∀ x ∈ f s e, P x) s run) :
    ∀ x ∈ contributionsOf f s run, P x := by
  induction run generalizing s with
  | nil => exact fun _ hx => absurd hx List.not_mem_nil
  | cons step run ih => exact fun x hx => (List.mem_append.1 hx).elim (h.1 x) (ih h.2 x)

namespace Along

variable {S E A : Type*} {step : S → E → S → Prop} {I : S → Prop} {held : S → List A}
  {put taken : S → E → List A}

/-- A conservation law of the steps is one of the run. -/
theorem conserves (hI : ∀ s e s', I s → step s e s' → I s')
    (hstep : ∀ s e s', I s → step s e s' → taken s e ++ held s' = held s ++ put s e) {s : S}
    {run : List (E × S)} (hrun : Along step s run) (hs : I s) :
    contributionsOf taken s run ++ held (finalState s run) = held s ++ contributionsOf put s run := by
  induction run generalizing s with
  | nil => simp [contributionsOf]
  | cons x run ih =>
      rw [contributionsOf, contributionsOf, finalState_cons, List.append_assoc,
        ih hrun.2 (hI s x.1 x.2 hs hrun.1), ← List.append_assoc, hstep s x.1 x.2 hs hrun.1, List.append_assoc]

end Along
