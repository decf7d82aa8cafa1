import Mathlib.Data.List.Basic

/-!
Binary search for the partition point of a sequence, as `std::lower_bound`
performs it. On a sequence whose elements below the bound come first the search
cuts the list exactly where `List.filter` would; on any other sequence it still
returns some position, the one the halving happens to reach.
-/

universe u

namespace Search

open List

variable {α : Type u}

/-- The halving loop on `count` positions from `first` on. The remaining count at
least halves, so any fuel not below it is enough. -/
def lowerBoundFrom (below : Nat → Bool) : Nat → Nat → Nat → Nat
  | 0, _, first => first
  | fuel + 1, count, first =>
    if count = 0 then first
    else if below (first + count / 2) then
      lowerBoundFrom below fuel (count - count / 2 - 1) (first + count / 2 + 1)
    else lowerBoundFrom below fuel (count / 2) first

/-- Position returned by the search. -/
def lowerBound (below : α → Bool) (xs : List α) : Nat :=
  lowerBoundFrom (fun i => (xs[i]?).any below) xs.length xs.length 0

theorem lowerBoundFrom_eq {below : Nat → Bool} {m fuel count first : Nat} (enough : count ≤ fuel)
    (low : first ≤ m) (high : m ≤ first + count)
    (split : ∀ k, first ≤ k → k < first + count → (below k = true ↔ k < m)) :
    lowerBoundFrom below fuel count first = m := by
  induction fuel generalizing count first with
  | zero =>
    simp only [lowerBoundFrom]
    omega
  | succ fuel ih =>
    unfold lowerBoundFrom
    by_cases empty : count = 0
    · rw [if_pos empty]
      omega
    · rw [if_neg empty]
      have middle := split (first + count / 2) (by omega) (by omega)
      by_cases left : below (first + count / 2) = true
      · rw [if_pos left]
        have lt := middle.1 left
        refine ih (by omega) (by omega) (by omega) fun k from_k to_k => ?_
        exact split k (by omega) (by omega)
      · rw [if_neg left]
        have ge : ¬ first + count / 2 < m := fun lt => left (middle.2 lt)
        refine ih (by omega) low (by omega) fun k from_k to_k => ?_
        exact split k from_k (by omega)

/-- Elements below the bound come before the others. -/
def Partitioned (below : α → Bool) (xs : List α) : Prop :=
  xs.Pairwise fun a b => below b = true → below a = true

theorem Partitioned.exists_cut {below : α → Bool} {xs : List α} (h : Partitioned below xs) :
    ∃ ys zs, xs = ys ++ zs ∧ (∀ y ∈ ys, below y = true) ∧ ∀ z ∈ zs, ¬ below z = true := by
  induction xs with
  | nil => exact ⟨[], [], rfl, by simp, by simp⟩
  | cons x xs ih =>
    obtain ⟨first, rest⟩ := pairwise_cons.1 h
    by_cases left : below x = true
    · obtain ⟨ys, zs, rfl, lows, highs⟩ := ih rest
      exact ⟨x :: ys, zs, rfl, forall_mem_cons.2 ⟨left, lows⟩, highs⟩
    · exact ⟨[], x :: xs, rfl, by simp,
        forall_mem_cons.2 ⟨left, fun z mem hz => left (first z mem hz)⟩⟩

theorem lowerBound_append {below : α → Bool} {ys zs : List α} (lows : ∀ y ∈ ys, below y = true)
    (highs : ∀ z ∈ zs, ¬ below z = true) : lowerBound below (ys ++ zs) = ys.length := by
  refine lowerBoundFrom_eq (Nat.le_refl _) (Nat.zero_le _) (by simp) fun k _ _ => ?_
  by_cases left : k < ys.length
  · simp [getElem?_append_left left, left, lows]
  · rw [getElem?_append_right (by omega)]
    refine iff_of_false ?_ left
    intro found
    rw [Option.any_eq_true] at found
    obtain ⟨z, found, hz⟩ := found
    exact highs z (mem_of_getElem? found) hz

section Partitioned

variable {below : α → Bool} {xs : List α} (sorted : Partitioned below xs)

include sorted

theorem take_lowerBound : xs.take (lowerBound below xs) = xs.filter below := by
  obtain ⟨ys, zs, rfl, lows, highs⟩ := sorted.exists_cut
  rw [lowerBound_append lows highs, take_left, filter_append,
    filter_eq_self.2 lows, filter_eq_nil_iff.2 highs, append_nil]

theorem drop_lowerBound : xs.drop (lowerBound below xs) = xs.filter fun x => !below x := by
  obtain ⟨ys, zs, rfl, lows, highs⟩ := sorted.exists_cut
  rw [lowerBound_append lows highs, drop_left, filter_append]
  have keep : zs.filter (fun x => !below x) = zs := by
    refine filter_eq_self.2 fun z mem => ?_
    simpa using highs z mem
  have lose : ys.filter (fun x => !below x) = [] := by
    refine filter_eq_nil_iff.2 fun y mem => ?_
    simpa using lows y mem
  rw [keep, lose, nil_append]

end Partitioned

example : lowerBound (fun x => decide (x < 3)) [1, 2, 2, 3, 5] = 3 := by decide

end Search
