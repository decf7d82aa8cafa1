import Mathlib.Algebra.Order.BigOperators.Group.List
import Mathlib.Algebra.Order.Ring.Int
import Mathlib.Algebra.Order.Group.Nat

/-!
Taking elements off a list, in order, until their weights reach a bound: the shortest beginning
of the list that is heavy enough.
-/

namespace Reaching

open List

variable {α : Type*} (weight : α → Nat)

/-- Sum of the weights. -/
def total (xs : List α) : Nat := (xs.map weight).sum

/-- The shortest beginning that reaches the bound together with what is had already. -/
def reach (bound : Nat) : Nat → List α → Option (List α)
  | _, [] => none
  | had, x :: xs =>
    if bound ≤ had + weight x then some [x] else (reach bound (had + weight x) xs).map (x :: ·)

variable {weight}

@[simp] theorem total_nil : total weight [] = 0 := rfl

@[simp] theorem total_cons (x : α) (xs : List α) :
    total weight (x :: xs) = weight x + total weight xs := by
  simp [total]

@[simp] theorem total_append (xs ys : List α) :
    total weight (xs ++ ys) = total weight xs + total weight ys := by
  simp [total]

theorem le_total {x : α} {xs : List α} (mem : x ∈ xs) : weight x ≤ total weight xs :=
  single_le_sum (fun _ _ => Nat.zero_le _) _ (mem_map_of_mem mem)

theorem total_mono {xs ys : List α} (before : xs <+: ys) : total weight xs ≤ total weight ys := by
  obtain ⟨rest, rfl⟩ := before
  rw [total_append]
  exact Nat.le_add_right _ _

variable {bound had : Nat} {xs taken : List α}

/-- What is taken is a beginning of the list, and only its last element reaches the bound. -/
theorem exists_of_reach (below : had < bound) (found : reach weight bound had xs = some taken) :
    ∃ init last rest, xs = init ++ last :: rest ∧ taken = init ++ [last] ∧
      had + total weight init < bound ∧ bound ≤ had + total weight taken := by
  induction xs generalizing had taken with
  | nil => cases found
  | cons x xs ih =>
    rw [reach] at found
    split_ifs at found with enough
    · cases found
      exact ⟨[], x, xs, rfl, rfl, below, by simpa using enough⟩
    · obtain ⟨taken', found', rfl⟩ := Option.map_eq_some_iff.1 found
      obtain ⟨init, last, rest, rfl, rfl, init_below, reached⟩ := ih (Nat.lt_of_not_le enough) found'
      refine ⟨x :: init, last, rest, rfl, rfl, ?_, ?_⟩
      · rwa [total_cons, ← add_assoc]
      · rw [total_cons, ← add_assoc]
        exact reached

/-- A beginning that is heavy enough begins with what is taken. -/
theorem reach_of_begins (below : had < bound) (before : taken <+: xs)
    (reached : bound ≤ had + total weight taken) :
    ∃ shortest, reach weight bound had xs = some shortest ∧ shortest <+: taken := by
  induction xs generalizing had taken with
  | nil =>
    obtain rfl := prefix_nil.1 before
    simp only [total_nil] at reached
    omega
  | cons x xs ih =>
    cases taken with
    | nil =>
      simp only [total_nil] at reached
      omega
    | cons y taken =>
      obtain ⟨rfl, tail_before⟩ := cons_prefix_cons.1 before
      rw [reach]
      split_ifs with enough
      · exact ⟨[y], rfl, by simp⟩
      · rw [total_cons, ← add_assoc] at reached
        obtain ⟨shortest, found, begins⟩ := ih (Nat.lt_of_not_le enough) tail_before reached
        exact ⟨y :: shortest, by rw [found]; rfl, cons_prefix_cons.2 ⟨rfl, begins⟩⟩

/-- Elements that must not be taken together are not, if each is heavy enough alone. -/
theorem pairwise_of_reach {r : α → α → Prop} (below : had < bound)
    (found : reach weight bound had xs = some taken)
    (apart : xs.Pairwise fun x y => ¬r x y → bound ≤ weight x) : taken.Pairwise r := by
  obtain ⟨init, last, rest, rfl, rfl, init_below, -⟩ := exists_of_reach below found
  have begins : init ++ [last] <+: init ++ last :: rest := ⟨rest, by simp⟩
  have taken_apart := apart.sublist begins.sublist
  rw [pairwise_append] at taken_apart ⊢
  have light : ∀ x ∈ init, ¬bound ≤ weight x := by
    intro x mem heavy
    have : weight x ≤ total weight init := le_total mem
    omega
  obtain ⟨inside, -, across⟩ := taken_apart
  refine ⟨?_, pairwise_singleton .., ?_⟩
  · apply (List.Pairwise.and_mem.1 inside).imp
    rintro x y ⟨mem, -, heavy⟩
    by_contra related
    exact light x mem (heavy related)
  · intro x mem y mem'
    by_contra related
    exact light x mem (across x mem y mem' related)

end Reaching
