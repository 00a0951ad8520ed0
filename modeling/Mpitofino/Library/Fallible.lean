import Mathlib.Data.List.Basic

/-!
# Loops that may fail

A loop that can stop with an error is a monadic fold. When it ends normally, each of its steps did, so
the loop is taken apart from the front.
-/

namespace Fallible

variable {S A ε : Type*}

@[simp] theorem ok_bind {T : Type*} (s : S) (f : S → Except ε T) : (Except.ok s).bind f = f s := rfl

@[simp] theorem error_bind {T : Type*} (e : ε) (f : S → Except ε T) :
    (Except.error e).bind f = .error e := rfl

/-- A sequence of two computations ends normally exactly when both do. -/
theorem bind_eq_ok {T : Type*} {x : Except ε S} {f : S → Except ε T} {t : T} :
    x.bind f = .ok t ↔ ∃ s, x = .ok s ∧ f s = .ok t := by
  cases x with
  | error e => simp [Except.bind]
  | ok s => simp [Except.bind]

theorem bind_eq_error {T : Type*} {x : Except ε S} {f : S → Except ε T} {e : ε} :
    x.bind f = .error e ↔ x = .error e ∨ ∃ s, x = .ok s ∧ f s = .error e := by
  cases x with
  | error e' => simp [Except.bind]
  | ok s => simp [Except.bind]

theorem exists_bind {T : Type*} {x : Except ε S} {f : S → Except ε T} (hx : ∃ s, x = .ok s)
    (hf : ∀ s, ∃ t, f s = .ok t) : ∃ t, x.bind f = .ok t := by
  obtain ⟨s, rfl⟩ := hx
  exact hf s

theorem toBool_eq_true {x : Except ε S} : x.toBool = true ↔ ∃ s, x = .ok s := by
  cases x with
  | error e => simp [Except.toBool]
  | ok s => simp [Except.toBool]

theorem toBool_eq_false {x : Except ε S} : x.toBool = false ↔ ∃ e, x = .error e := by
  cases x with
  | error e => simp [Except.toBool]
  | ok s => simp [Except.toBool]

variable {f : S → A → Except ε S}

theorem foldlM_nil_eq_ok {s s' : S} : [].foldlM f s = .ok s' ↔ s' = s := by
  rw [List.foldlM_nil]
  exact Except.ok.injEq s s' ▸ eq_comm

theorem foldlM_cons_eq_ok {s s' : S} {a : A} {as : List A} :
    (a :: as).foldlM f s = .ok s' ↔ ∃ s₁, f s a = .ok s₁ ∧ as.foldlM f s₁ = .ok s' := by
  rw [List.foldlM_cons]
  exact bind_eq_ok

theorem foldlM_congr {g : S → A → Except ε S} {s : S} {as : List A}
    (h : ∀ s, ∀ a ∈ as, f s a = g s a) : as.foldlM f s = as.foldlM g s := by
  induction as generalizing s with
  | nil => rfl
  | cons a as ih =>
      rw [List.foldlM_cons, List.foldlM_cons, h s a List.mem_cons_self]
      exact congrArg _ (funext fun s' => ih fun s b hb => h s b (List.mem_cons_of_mem _ hb))

theorem foldlM_invariant {I : S → Prop} {s s' : S} {as : List A}
    (h : as.foldlM f s = .ok s') (hs : I s)
    (hstep : ∀ s₁ a s₂, a ∈ as → I s₁ → f s₁ a = .ok s₂ → I s₂) : I s' := by
  induction as generalizing s with
  | nil =>
      rw [foldlM_nil_eq_ok] at h
      rwa [h]
  | cons a as ih =>
      obtain ⟨s₁, h₁, h₂⟩ := foldlM_cons_eq_ok.1 h
      exact ih h₂ (hstep s a s₁ List.mem_cons_self hs h₁) fun s₂ b s₃ hb =>
        hstep s₂ b s₃ (List.mem_cons_of_mem _ hb)

theorem exists_step_of_mem {s s' : S} {as : List A} (h : as.foldlM f s = .ok s') {a : A}
    (ha : a ∈ as) : ∃ s₁ s₂, f s₁ a = .ok s₂ := by
  induction as generalizing s with
  | nil => contradiction
  | cons b as ih =>
      obtain ⟨s₁, h₁, h₂⟩ := foldlM_cons_eq_ok.1 h
      rcases List.mem_cons.1 ha with rfl | ha
      · exact ⟨s, s₁, h₁⟩
      · exact ih h₂ ha

/-- A loop none of whose steps fails ends normally. -/
theorem exists_foldlM {as : List A} (hstep : ∀ s, ∀ a ∈ as, ∃ s', f s a = .ok s') (s : S) :
    ∃ s', as.foldlM f s = .ok s' := by
  induction as generalizing s with
  | nil => exact ⟨s, rfl⟩
  | cons a as ih =>
      obtain ⟨s₁, h₁⟩ := hstep s a List.mem_cons_self
      obtain ⟨s', h'⟩ := ih (fun s b hb => hstep s b (List.mem_cons_of_mem _ hb)) s₁
      exact ⟨s', foldlM_cons_eq_ok.2 ⟨s₁, h₁, h'⟩⟩

theorem foldlM_frame {T : Type*} {g : S → T} {s s' : S} {as : List A}
    (h : as.foldlM f s = .ok s')
    (hstep : ∀ s₁ a s₂, f s₁ a = .ok s₂ → g s₂ = g s₁) : g s' = g s :=
  foldlM_invariant (I := fun s₁ => g s₁ = g s) h rfl fun s₁ a s₂ _ hs₁ hok =>
    (hstep s₁ a s₂ hok).trans hs₁

theorem foldlM_flatMap {W T : Type*} {g : S → T} {put : T → List W → T}
    (hnil : ∀ t, put t [] = t) (happend : ∀ t v w, put t (v ++ w) = put (put t v) w) {w : A → List W}
    {s s' : S} {as : List A} (h : as.foldlM f s = .ok s')
    (hstep : ∀ s₁ a s₂, f s₁ a = .ok s₂ → g s₂ = put (g s₁) (w a)) :
    g s' = put (g s) (as.flatMap w) := by
  induction as generalizing s with
  | nil =>
      rw [foldlM_nil_eq_ok] at h
      rw [h, List.flatMap_nil, hnil]
  | cons a as ih =>
      obtain ⟨s₁, h₁, h₂⟩ := foldlM_cons_eq_ok.1 h
      rw [ih h₂, hstep s a s₁ h₁, List.flatMap_cons, happend]

end Fallible
