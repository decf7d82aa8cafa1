import Mathlib.Data.List.Basic

/-!
Runs of a deterministic transition system and the invariant rule for them.
`Along ok` says that every step of a run meets a condition on the state before
the step and on the action taken there, `Always P` that every state has a property.
-/

universe u v

namespace TransitionSystem

variable {σ : Type u} {α : Type v}

/-- State reached by taking the actions one after another. -/
def run (step : σ → α → σ) (s : σ) (as : List α) : σ := as.foldl step s

/-- Every step of the run meets `ok`. -/
def Along (step : σ → α → σ) (ok : σ → α → Prop) : σ → List α → Prop
  | _, [] => True
  | s, a :: as => ok s a ∧ Along step ok (step s a) as

instance Along.decidable (step : σ → α → σ) (ok : σ → α → Prop) [∀ s a, Decidable (ok s a)] :
    ∀ s as, Decidable (Along step ok s as)
  | _, [] => isTrue trivial
  | s, a :: as =>
    have := Along.decidable step ok (step s a) as
    inferInstanceAs (Decidable (_ ∧ _))

variable {step : σ → α → σ} {ok ok' : σ → α → Prop} {I : σ → Prop}

@[simp] theorem run_nil (s : σ) : run step s [] = s := rfl

@[simp] theorem run_cons (s : σ) (a : α) (as : List α) :
    run step s (a :: as) = run step (step s a) as := rfl

theorem run_append (s : σ) (as bs : List α) : run step s (as ++ bs) = run step (run step s as) bs :=
  List.foldl_append ..

@[simp] theorem along_append (s : σ) (as bs : List α) :
    Along step ok s (as ++ bs) ↔ Along step ok s as ∧ Along step ok (run step s as) bs := by
  induction as generalizing s with
  | nil => simp [Along]
  | cons a as ih => simp [Along, ih, and_assoc]

variable {s : σ} {as : List α}

theorem Along.mono (h : Along step ok s as) (weaker : ∀ s a, ok s a → ok' s a) :
    Along step ok' s as := by
  induction as generalizing s with
  | nil => trivial
  | cons a as ih => exact ⟨weaker s a h.1, ih h.2⟩

/-- A condition that nothing violates. -/
theorem along_true (s : σ) (as : List α) : Along step (fun _ _ => True) s as := by
  induction as generalizing s with
  | nil => trivial
  | cons a as ih => exact ⟨trivial, ih _⟩

/-- What holds initially and is kept by every step that meets the condition holds
at the end of every run whose steps all meet it. -/
theorem invariant_run (kept : ∀ s a, I s → ok s a → I (step s a)) (init : I s)
    (h : Along step ok s as) : I (run step s as) := by
  induction as generalizing s with
  | nil => exact init
  | cons a as ih => exact ih (kept s a init h.1) h.2

/-- The same for what every step keeps. -/
theorem invariant_run_of_step (kept : ∀ s a, I s → I (step s a)) (init : I s) :
    I (run step s as) := by
  induction as generalizing s with
  | nil => exact init
  | cons a as ih => exact ih (kept s a init)

/-- Every state of the run, the first one and the last one included, has a property. -/
def Always (step : σ → α → σ) (P : σ → Prop) : σ → List α → Prop
  | s, [] => P s
  | s, a :: as => P s ∧ Always step P (step s a) as

/-- Where a condition on steps is exactly what keeps an invariant, and the property of
states tells when it is lost, the states have the property as long as the steps meet the
condition. Both may rest on what else the steps of the run meet. -/
theorem always_iff_along {P : σ → Prop} {S : σ → α → Prop}
    (kept : ∀ s a, I s → S s a → ok s a → I (step s a)) (gives : ∀ s, I s → P s)
    (lost : ∀ s a, I s → S s a → ¬ ok s a → ¬ P (step s a)) (init : I s)
    (side : Along step S s as) : Always step P s as ↔ Along step ok s as := by
  induction as generalizing s with
  | nil => exact ⟨fun _ => trivial, fun _ => gives s init⟩
  | cons a as ih =>
    constructor
    · rintro ⟨-, later⟩
      have first : P (step s a) := by
        cases as with
        | nil => exact later
        | cons _ _ => exact later.1
      have meets : ok s a := by_contra fun fails => lost s a init side.1 fails first
      exact ⟨meets, (ih (kept s a init side.1 meets) side.2).1 later⟩
    · rintro ⟨meets, rest⟩
      exact ⟨gives s init, (ih (kept s a init side.1 meets) side.2).2 rest⟩

end TransitionSystem
