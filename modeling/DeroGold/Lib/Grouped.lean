import Mathlib.Data.List.Count
import Mathlib.Data.List.Range
import Mathlib.Logic.Function.Basic

/-!
Rows that arrive in one sequence and are kept separately for each key.

* `group k rows`: the rows of a key, in order of arrival.
* `number`: the position each row gets within its group. The numbers of a key are
  consecutive (`group_number`), also in a part of the sequence (`number_append`).
-/

universe u v

namespace Grouped

open List Function

variable {κ : Type u} {ρ σ : Type v} [DecidableEq κ]

/-- Rows of a key. -/
def group (k : κ) (rows : List (κ × ρ)) : List ρ :=
  rows.filterMap fun row => if row.1 = k then some row.2 else none

@[simp] theorem group_nil (k : κ) : group k ([] : List (κ × ρ)) = [] := rfl

@[simp] theorem group_append (k : κ) (xs ys : List (κ × ρ)) :
    group k (xs ++ ys) = group k xs ++ group k ys :=
  filterMap_append

theorem group_cons_self (k : κ) (r : ρ) (rows : List (κ × ρ)) :
    group k ((k, r) :: rows) = r :: group k rows := by
  simp [group]

variable {k : κ} {rows : List (κ × ρ)}

theorem group_cons_of_ne {row : κ × ρ} (ne : row.1 ≠ k) (rows : List (κ × ρ)) :
    group k (row :: rows) = group k rows := by
  simp [group, ne]

theorem mem_group {r : ρ} : r ∈ group k rows ↔ (k, r) ∈ rows := by
  rw [group, mem_filterMap]
  constructor
  · rintro ⟨⟨k', r'⟩, mem, found⟩
    split at found
    · rename_i same
      cases same
      cases found
      exact mem
    · cases found
  · intro mem
    exact ⟨(k, r), mem, if_pos rfl⟩

theorem group_map (f : ρ → σ) (k : κ) (rows : List (κ × ρ)) :
    group k (rows.map fun row => (row.1, f row.2)) = (group k rows).map f := by
  rw [group, group, filterMap_map, map_filterMap]
  refine filterMap_congr fun row _ => ?_
  by_cases same : row.1 = k <;> simp [same]

/-! ### Numbering -/

/-- Each key with its position within its group, counted from `count`. -/
def number (count : κ → Nat) : List κ → List (κ × Nat)
  | [] => []
  | k :: ks => (k, count k) :: number (update count k (count k + 1)) ks

theorem number_append (count : κ → Nat) (xs ys : List κ) : number count (xs ++ ys) =
      number count xs ++ number (fun k => count k + xs.count k) ys := by
  induction xs generalizing count with
  | nil => simp [number]
  | cons x xs ih =>
    rw [cons_append, number, number, ih, cons_append]
    congr 3
    funext k
    by_cases same : k = x
    · subst same
      rw [update_self, count_cons_self]
      omega
    · rw [update_of_ne same, count_cons_of_ne (fun h => same h.symm)]

@[simp] theorem length_number (count : κ → Nat) (ks : List κ) :
    (number count ks).length = ks.length := by
  induction ks generalizing count with
  | nil => rfl
  | cons k ks ih => rw [number, length_cons, ih, length_cons]

/-- A key's number is the count of those before it. -/
theorem getElem?_number (count : κ → Nat) (before : List κ) (k : κ) (after : List κ) :
    (number count (before ++ k :: after))[before.length]? = some (k, count k + before.count k) := by
  rw [number_append, getElem?_append_right (by simp), length_number, Nat.sub_self]
  rfl

/-- The numbers of a key are consecutive. -/
theorem group_number (count : κ → Nat) (ks : List κ) (k : κ) :
    group k (number count ks) = List.range' (count k) (ks.count k) := by
  induction ks generalizing count with
  | nil => rfl
  | cons x xs ih =>
    rw [number]
    by_cases same : x = k
    · subst same
      rw [group_cons_self, ih, update_self, count_cons_self, range'_succ]
    · rw [group_cons_of_ne same, ih, update_of_ne (fun h => same h.symm), count_cons_of_ne same]

theorem length_group (k : κ) (rows : List (κ × ρ)) :
    (group k rows).length = (rows.map Prod.fst).count k := by
  rw [group, length_filterMap_eq_countP, count, countP_map]
  refine countP_congr fun row _ => ?_
  by_cases same : row.1 = k <;> simp [same]

/-- Place of a row within its group. -/
theorem getElem?_group (before : List (κ × ρ)) (k : κ) (r : ρ) (after : List (κ × ρ)) :
    (group k (before ++ (k, r) :: after))[(before.map Prod.fst).count k]? = some r := by
  rw [group_append, ← length_group, getElem?_append_right (Nat.le_refl _), Nat.sub_self,
    group_cons_self]
  rfl

theorem group_eq_nil (absent : k ∉ rows.map Prod.fst) : group k rows = [] := by
  rw [← length_eq_zero_iff, length_group, count_eq_zero]
  exact absent

/-- Where every key has at most one row. -/
theorem group_of_nodup {row : κ × ρ} (distinct : (rows.map Prod.fst).Nodup) (mem : row ∈ rows) :
    group row.1 rows = [row.2] := by
  have single : (group row.1 rows).length = 1 := by
    rw [length_group]
    rw [distinct.count, if_pos (mem_map_of_mem mem)]
  obtain ⟨r, only⟩ := length_eq_one_iff.1 single
  have held : row.2 ∈ group row.1 rows := mem_group.2 mem
  rw [only, mem_singleton] at held
  rw [only, held]

end Grouped
