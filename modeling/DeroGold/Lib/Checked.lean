import Mathlib.Data.List.Forall2

/-!
Checks that either pass or stop with the first failure, as computations in
`Except`. Each rule below says what a successful computation has gone through, so
that a proof takes a long sequence of checks apart without unfolding it.
-/

universe u v

namespace Checked

open List

variable {ε : Type u} {α β : Type v}

/-- Pass exactly when the condition holds. -/
def require (condition : Prop) [Decidable condition] (failure : ε) : Except ε PUnit.{v + 1} :=
  if condition then .ok ⟨⟩ else .error failure

variable {condition : Prop} {failure : ε} {x : Except ε α} {f : α → Except ε β} {xs : List α}
  {ys : List β}

theorem require_eq_ok [Decidable condition] {u : PUnit.{v + 1}} :
    require condition failure = .ok u ↔ condition := by
  unfold require
  split <;> simp [*]

variable {b : β} {γ : Type*} {e : ε} {P : ε → Prop}

theorem of_bind : x >>= f = .ok b ↔ ∃ a, x = .ok a ∧ f a = .ok b := by
  cases x <;> simp [bind, Except.bind]

theorem of_require_bind [Decidable condition] {f : PUnit.{v + 1} → Except ε α} {a : α} :
    require condition failure >>= f = .ok a ↔ condition ∧ f ⟨⟩ = .ok a := by
  rw [of_bind]
  constructor
  · rintro ⟨u, holds, rest⟩
    exact ⟨require_eq_ok.1 holds, rest⟩
  · rintro ⟨holds, rest⟩
    exact ⟨⟨⟩, require_eq_ok.2 holds, rest⟩

theorem exists_ok (isOk : x.isOk = true) : ∃ a, x = .ok a := by
  cases x with
  | error _ => cases isOk
  | ok a => exact ⟨a, rfl⟩

/-- A computation whose result is known in part has passed. -/
theorem exists_of_toOption_map {f : α → γ} {c : γ} (known : x.toOption.map f = some c) :
    ∃ a, x = .ok a ∧ f a = c := by
  cases x with
  | error failure => cases known
  | ok a => exact ⟨a, rfl, Option.some.inj known⟩

/-- In a fold that passes every element has passed in some state. -/
theorem exists_of_foldlM_ok {f : β → α → Except ε β} {xs : List α} {b b' : β}
    (passed : xs.foldlM f b = .ok b') (x : α) (mem : x ∈ xs) : ∃ c c', f c x = .ok c' := by
  induction xs generalizing b with
  | nil => cases mem
  | cons y ys ih =>
    rw [foldlM_cons, of_bind] at passed
    obtain ⟨c, first, rest⟩ := passed
    rcases mem_cons.1 mem with rfl | mem
    · exact ⟨b, c, first⟩
    · exact ih rest mem

theorem forM_ok {f : α → Except ε PUnit.{v + 1}} {u : PUnit.{v + 1}} :
    xs.forM f = .ok u ↔ ∀ x ∈ xs, f x = .ok ⟨⟩ := by
  induction xs with
  | nil => simp [List.forM, pure, Except.pure]
  | cons x xs ih =>
    change (f x >>= fun _ => xs.forM f) = .ok u ↔ _
    rw [of_bind, forall_mem_cons]
    constructor
    · rintro ⟨_, first, rest⟩
      exact ⟨first, ih.1 rest⟩
    · rintro ⟨first, rest⟩
      exact ⟨⟨⟩, first, ih.2 rest⟩

theorem mapM_ok : xs.mapM f = .ok ys ↔ List.Forall₂ (fun x y => f x = .ok y) xs ys := by
  induction xs generalizing ys with
  | nil =>
    rw [mapM_nil, forall₂_nil_left_iff]
    simp [pure, Except.pure, eq_comm]
  | cons x xs ih =>
    rw [mapM_cons, of_bind]
    constructor
    · rintro ⟨y, first, rest⟩
      rw [of_bind] at rest
      obtain ⟨zs, others, last⟩ := rest
      cases last
      exact .cons first (ih.1 others)
    · intro pairs
      cases pairs with
      | cons first others =>
        refine ⟨_, first, ?_⟩
        rw [of_bind]
        exact ⟨_, ih.2 others, rfl⟩

theorem map_eq_of_forall₂ {r : α → β → Prop} {f : α → γ} {g : β → γ}
    (related : List.Forall₂ r xs ys) (same : ∀ {x y}, r x y → f x = g y) : xs.map f = ys.map g := by
  induction related with
  | nil => rfl
  | cons head _ ih => rw [map_cons, map_cons, same head, ih]

/-- Every result comes from the element at its place. -/
theorem exists_of_getElem?_mapM {y : β} {i : Nat} (ok : xs.mapM f = .ok ys)
    (at_i : ys[i]? = some y) : ∃ x, xs[i]? = some x ∧ f x = .ok y := by
  obtain ⟨length, each⟩ := forall₂_iff_get.1 (mapM_ok.1 ok)
  obtain ⟨inside, rfl⟩ := List.getElem?_eq_some_iff.1 at_i
  exact ⟨_, getElem?_eq_getElem (length ▸ inside), each i _ inside⟩

theorem exists_of_mem_mapM_ok {y : β} (ok : xs.mapM f = .ok ys) (mem : y ∈ ys) :
    ∃ x ∈ xs, f x = .ok y := by
  obtain ⟨i, at_i⟩ := getElem?_of_mem mem
  obtain ⟨x, at_x, result⟩ := exists_of_getElem?_mapM ok at_i
  exact ⟨x, mem_of_getElem? at_x, result⟩

/-- A run over a list succeeds if every step does. -/
theorem exists_mapM_ok (each : ∀ x ∈ xs, ∃ y, f x = .ok y) : ∃ ys, xs.mapM f = .ok ys := by
  simp only [mapM_ok]
  induction xs with
  | nil => exact ⟨[], .nil⟩
  | cons x xs ih =>
    obtain ⟨⟨y, first⟩, rest⟩ := forall_mem_cons.1 each
    obtain ⟨ys, others⟩ := ih rest
    exact ⟨y :: ys, .cons first others⟩

/-! ### Failures -/

theorem bind_eq_error : x >>= f = .error e ↔ x = .error e ∨ ∃ a, x = .ok a ∧ f a = .error e := by
  cases x <;> simp [bind, Except.bind]

/-- A fold fails at one element, after the elements before it have passed. -/
theorem foldlM_eq_error {f : β → α → Except ε β} : xs.foldlM f b = .error e ↔
      ∃ before x after b', xs = before ++ x :: after ∧ before.foldlM f b = .ok b' ∧
        f b' x = .error e := by
  induction xs generalizing b with
  | nil => simp [pure, Except.pure]
  | cons y ys ih =>
    rw [foldlM_cons, bind_eq_error]
    constructor
    · rintro (failed | ⟨c, first, rest⟩)
      · exact ⟨[], y, ys, b, rfl, rfl, failed⟩
      · obtain ⟨before, x, after, b', rfl, passed, failed⟩ := ih.1 rest
        refine ⟨y :: before, x, after, b', rfl, ?_, failed⟩
        rw [foldlM_cons, of_bind]
        exact ⟨c, first, passed⟩
    · rintro ⟨before, x, after, b', split, passed, failed⟩
      cases before with
      | nil =>
        cases split
        cases passed
        exact .inl failed
      | cons z before =>
        cases split
        rw [foldlM_cons, of_bind] at passed
        obtain ⟨c, first, passed⟩ := passed
        exact .inr ⟨c, first, ih.2 ⟨before, x, after, b', rfl, passed, failed⟩⟩

/-- No failure of the computation satisfies `P`. -/
def NeverFails (P : ε → Prop) (x : Except ε α) : Prop := ∀ e, x = .error e → ¬ P e

theorem NeverFails.require [Decidable condition] (other : ¬ P failure) :
    NeverFails P (require.{u, v} condition failure) := by
  intro e failed
  unfold Checked.require at failed
  split at failed
  · cases failed
  · cases failed
    exact other

theorem NeverFails.bind (first : NeverFails P x) (rest : ∀ a, NeverFails P (f a)) :
    NeverFails P (x >>= f) := by
  intro e failed
  rcases bind_eq_error.1 failed with failed | ⟨a, -, failed⟩
  · exact first e failed
  · exact rest a e failed

/-- What fails that way behind a step that does not. -/
theorem NeverFails.bind_error_iff (first : NeverFails P x) {e : ε} (kind : P e) :
    (x >>= f) = .error e ↔ ∃ a, x = .ok a ∧ f a = .error e :=
  bind_eq_error.trans (or_iff_right fun failed => first e failed kind)

theorem NeverFails.ok (a : α) : NeverFails P (.ok a : Except ε α) := by
  intro e failed
  cases failed

theorem NeverFails.mapM {f : α → Except ε β} (each : ∀ a, NeverFails P (f a)) :
    ∀ xs : List α, NeverFails P (xs.mapM f)
  | [] => by
    rw [mapM_nil]
    exact .ok _
  | x :: xs => by
    rw [mapM_cons]
    exact NeverFails.bind (each x) fun y =>
      NeverFails.bind (NeverFails.mapM each xs) fun ys => .ok _

end Checked
