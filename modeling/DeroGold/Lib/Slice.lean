import Mathlib.Data.List.Basic

/-!
Contiguous parts of a list, given by the indexes where they begin and end, and how they
behave when the list is put together from two parts.
-/

universe u v

namespace Slice

open List

variable {α : Type u} {β : Type v}

/-- The elements from index `a` on, before index `e`. -/
def slice (xs : List α) (a e : Nat) : List α := (xs.take e).drop a

theorem slice_eq_take_drop (xs : List α) (a e : Nat) : slice xs a e = (xs.drop a).take (e - a) :=
  drop_take

theorem length_slice (xs : List α) (a e : Nat) : (slice xs a e).length = min e xs.length - a := by
  rw [slice, length_drop, length_take]

theorem map_slice (f : α → β) (xs : List α) (a e : Nat) :
    (slice xs a e).map f = slice (xs.map f) a e := by
  rw [slice, slice, map_drop, map_take]

theorem getElem?_concat (xs : List α) (x : α) (j : Nat) :
    (xs ++ [x])[j]? = if j = xs.length then some x else xs[j]? := by
  grind

/-- A run over numbered elements that does not look at the numbers. -/
theorem map_zipIdx_fst (f : α → β) (xs : List α) (start : Nat) :
    (xs.zipIdx start).map (fun x => f x.1) = xs.map f := by
  conv_rhs => rw [← zipIdx_map_fst start xs, map_map]
  rfl

theorem flatMap_zipIdx_fst (f : α → List β) (xs : List α) (start : Nat) :
    (xs.zipIdx start).flatMap (fun x => f x.1) = xs.flatMap f := by
  conv_rhs => rw [← zipIdx_map_fst start xs, flatMap_map]

variable {xs : List α} {a e : Nat}
  {x : α} {i : Nat}

theorem getElem?_concat_eq_some {y : α} {j : Nat} :
    (xs ++ [x])[j]? = some y ↔ xs[j]? = some y ∨ j = xs.length ∧ x = y := by
  grind

theorem getElem?_take_eq_some : (xs.take e)[i]? = some x ↔ xs[i]? = some x ∧ i < e := by
  grind

theorem slice_zero (xs : List α) (e : Nat) : slice xs 0 e = xs.take e := rfl

theorem slice_of_le (h : e ≤ a) : slice xs a e = [] := by
  rw [slice_eq_take_drop, Nat.sub_eq_zero_of_le h, take_zero]

/-- A slice that reaches the end. -/
theorem slice_of_length_le (h : xs.length ≤ e) : slice xs a e = xs.drop a := by
  rw [slice, take_of_length_le h]

/-- The last element alone. -/
theorem drop_of_getLast? {last : α} (h : xs.getLast? = some last) :
    xs.drop (xs.length - 1) = [last] := by
  obtain ⟨earlier, rfl⟩ := getLast?_eq_some_iff.1 h
  simp

/-- Ending past the end of the list is ending there. -/
theorem slice_min (xs : List α) (a e : Nat) : slice xs a (min e xs.length) = slice xs a e := by
  rw [slice, slice, ← take_eq_take_min]

/-- A slice cut down to what is left of the list. -/
theorem slice_add_min (xs : List α) (a n : Nat) :
    slice xs a (a + min (xs.length - a) n) = slice xs a (a + n) := by
  rw [slice_eq_take_drop, slice_eq_take_drop, Nat.add_sub_cancel_left, Nat.add_sub_cancel_left,
    Nat.min_comm, ← length_drop, ← take_eq_take_min]

theorem slice_succ (le : a ≤ i) (inside : i < xs.length) :
    slice xs a (i + 1) = slice xs a i ++ [xs[i]] := by
  rw [slice, slice, take_succ_eq_append_getElem inside, drop_append_of_le_length]
  rw [length_take]
  omega

/-- Two slices side by side. -/
theorem slice_append_slice (xs : List α) {m : Nat} (left : a ≤ m) (right : m ≤ e) :
    slice xs a m ++ slice xs m e = slice xs a e := by
  rw [slice_eq_take_drop, slice_eq_take_drop, slice_eq_take_drop,
    show e - a = (m - a) + (e - m) by omega, take_add, drop_drop,
    show a + (m - a) = m by omega]

/-- What follows a slice. -/
theorem slice_append_drop (xs : List α) (a e : Nat) :
    slice xs a e ++ xs.drop (a + (slice xs a e).length) = xs.drop a := by
  rw [slice_eq_take_drop, ← drop_drop, take_eq_take_min, length_take,
    Nat.min_eq_left (Nat.min_le_right _ _), take_append_drop]

theorem slice_append_left (ys : List α) (h : e ≤ xs.length) :
    slice (xs ++ ys) a e = slice xs a e := by
  rw [slice, take_append_of_le_length h, slice]

theorem slice_append_right (ys : List α) (h : xs.length ≤ a) :
    slice (xs ++ ys) a e = slice ys (a - xs.length) (e - xs.length) := by
  rw [slice_eq_take_drop, slice_eq_take_drop, drop_append, drop_eq_nil_of_le h,
    nil_append, show e - a = e - xs.length - (a - xs.length) by omega]

/-- A slice that begins in the first part and ends in the second. -/
theorem slice_append {ys : List α} (left : a ≤ xs.length) (right : xs.length ≤ e) :
    slice (xs ++ ys) a e = xs.drop a ++ ys.take (e - xs.length) := by
  rw [slice, take_append, take_of_length_le right, drop_append_of_le_length left]

/-- Reading consecutive positions. -/
theorem filterMap_getElem?_range' (xs : List α) (start count : Nat) :
    (List.range' start count).filterMap (fun i => xs[i]?) = (xs.drop start).take count := by
  induction count generalizing start with
  | zero => rfl
  | succ count ih =>
    rw [range'_succ, filterMap_cons, ih]
    cases found : xs[start]? with
    | none =>
      have short := getElem?_eq_none_iff.1 found
      rw [drop_eq_nil_of_le short, drop_eq_nil_of_le (Nat.le_succ_of_le short), take_nil, take_nil]
    | some x =>
      obtain ⟨inside, at_start⟩ := List.getElem?_eq_some_iff.1 found
      rw [drop_eq_getElem_cons inside, take_succ_cons, at_start]

end Slice
