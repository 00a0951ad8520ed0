import Mathlib.Data.List.Forall2

/-!
# Runs

A run of a labelled transition relation from a state is a list of events, each with the state it leads
to. `Along step s run` says that every step of the run is one of `step`; the same predicate restricts
a run to steps that meet a condition. An invariant of the steps is an invariant of the run.
-/

/-- Every step of a run from `s` is in the relation. -/
def Along {S E : Type*} (step : S → E → S → Prop) : S → List (E × S) → Prop
  | _, [] => True
  | s, x :: run => step s x.1 x.2 ∧ Along step x.2 run

def runOf {S E : Type*} (next : S → E → S) : S → List E → List (E × S)
  | _, [] => []
  | s, e :: es => (e, next s e) :: runOf next (next s e) es

/-- The run of some acts, each of which is an event that depends on the state. -/
def runOfActs {S A E : Type*} (event : S → A → E) (next : S → A → S) : S → List A → List (E × S)
  | _, [] => []
  | s, a :: as => (event s a, next s a) :: runOfActs event next (next s a) as

instance Along.decidable {S E : Type*} {step : S → E → S → Prop}
    [∀ s e s', Decidable (step s e s')] : ∀ s run, Decidable (Along step s run)
  | _, [] => isTrue trivial
  | _, x :: run =>
      have := @Along.decidable _ _ step _ x.2 run
      inferInstanceAs (Decidable (_ ∧ _))

namespace Along

variable {S E : Type*} {step : S → E → S → Prop}

@[simp] theorem nil (s : S) : Along step s [] := trivial

@[simp] theorem cons {s : S} {x : E × S} {run : List (E × S)} :
    Along step s (x :: run) ↔ step s x.1 x.2 ∧ Along step x.2 run := Iff.rfl

/-- A property that the steps preserve holds in every state of a run. -/
theorem invariant {I : S → Prop} (hstep : ∀ s e s', I s → step s e s' → I s') {s : S}
    {run : List (E × S)} (hrun : Along step s run) (hs : I s) : ∀ x ∈ run, I x.2 := by
  induction run generalizing s with
  | nil => simp
  | cons x run ih =>
      have hx := hstep s x.1 x.2 hs hrun.1
      intro y hy
      rcases List.mem_cons.1 hy with rfl | hy
      · exact hx
      · exact ih hrun.2 hx y hy

/-- What follows from the steps and an invariant holds along the run. -/
theorem imp {I : S → Prop} {step' : S → E → S → Prop}
    (hstep : ∀ s e s', I s → step s e s' → I s')
    (himp : ∀ s e s', I s → step s e s' → step' s e s') {s : S} {run : List (E × S)}
    (hrun : Along step s run) (hs : I s) : Along step' s run := by
  induction run generalizing s with
  | nil => trivial
  | cons x run ih =>
      exact ⟨himp s x.1 x.2 hs hrun.1, ih hrun.2 (hstep s x.1 x.2 hs hrun.1)⟩

theorem mono {step' : S → E → S → Prop} {s : S} {run : List (E × S)} (hrun : Along step s run)
    (himp : ∀ s e s', step s e s' → step' s e s') : Along step' s run :=
  hrun.imp (I := fun _ => True) (fun _ _ _ _ _ => trivial) (fun s e s' _ => himp s e s') trivial

/-- Where every step of a system is one of another, every run of it is, and the states stay related. -/
theorem simulates {S' E' : Type*} {step' : S' → E' → S' → Prop} {R : S → S' → Prop}
    (hstep : ∀ s e s' t, R s t → step s e s' → ∃ e' t', step' t e' t' ∧ R s' t') {s : S} {t : S'}
    {run : List (E × S)} (hrun : Along step s run) (hR : R s t) :
    ∃ run', Along step' t run' ∧ List.Forall₂ (fun x y => R x.2 y.2) run run' := by
  induction run generalizing s t with
  | nil => exact ⟨[], trivial, .nil⟩
  | cons x run ih =>
      obtain ⟨e', t', hx, hR'⟩ := hstep s x.1 x.2 t hR hrun.1
      obtain ⟨run', hrun', hrel⟩ := ih hrun.2 hR'
      exact ⟨(e', t') :: run', ⟨hx, hrun'⟩, .cons hR' hrel⟩

theorem of_runOf {step' : S → E → S → Prop} {next : S → E → S} {s : S} {es : List E}
    (h : Along step s (runOf next s es))
    (himp : ∀ s e, step s e (next s e) → step' s e (next s e)) :
    Along step' s (runOf next s es) := by
  induction es generalizing s with
  | nil => trivial
  | cons e es ih => exact ⟨himp s e h.1, ih h.2⟩

theorem of_acts {A : Type*} {P : S → A → Prop} {event : S → A → E} {next : S → A → S} {s : S}
    {as : List A} (h : Along (fun s a _ => P s a) s (runOf next s as))
    (himp : ∀ s a, P s a → step s (event s a) (next s a)) :
    Along step s (runOfActs event next s as) := by
  induction as generalizing s with
  | nil => trivial
  | cons a as ih => exact ⟨himp s a h.1, ih h.2⟩

theorem invariant_foldl {I : S → Prop} (hstep : ∀ s e s', I s → step s e s' → I s')
    {next : S → E → S} {s : S} {es : List E} (hrun : Along step s (runOf next s es)) (hs : I s) :
    I (es.foldl next s) := by
  induction es generalizing s with
  | nil => exact hs
  | cons e es ih => exact ih hrun.2 (hstep s e (next s e) hs hrun.1)

theorem runOf_append {next : S → E → S} {s : S} {es es' : List E} :
    Along step s (runOf next s (es ++ es')) ↔ Along step s (runOf next s es) ∧
      Along step (es.foldl next s) (runOf next (es.foldl next s) es') := by
  induction es generalizing s with
  | nil => exact (and_iff_right trivial).symm
  | cons e es ih => exact (and_congr_right fun _ => ih).trans and_assoc.symm

theorem append {s : S} {run run' : List (E × S)} (h : Along step s run)
    (h' : Along step ((run.getLast?.map Prod.snd).getD s) run') : Along step s (run ++ run') := by
  induction run generalizing s with
  | nil => exact h'
  | cons x run ih =>
      refine ⟨h.1, ih h.2 ?_⟩
      cases run with
      | nil => exact h'
      | cons y run => simpa [List.getLast?_eq_some_getLast] using h'

end Along

theorem foldl_mem_runOfActs {S A E : Type*} (event : S → A → E) (next : S → A → S) (s : S) {as : List A}
    (h : as ≠ []) : ∃ x ∈ runOfActs event next s as, x.2 = as.foldl next s := by
  induction as generalizing s with
  | nil => contradiction
  | cons a as ih =>
      by_cases has : as = []
      · subst has
        exact ⟨_, List.mem_cons_self, rfl⟩
      · obtain ⟨x, hx, hlast⟩ := ih (next s a) has
        exact ⟨x, List.mem_cons_of_mem _ hx, hlast⟩
