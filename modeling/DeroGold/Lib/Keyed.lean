import Mathlib.Data.List.Flatten
import Mathlib.Data.List.Nodup
import Mathlib.Data.List.Perm.Subperm

/-!
Containers of records that carry their own key, no two of them the same one.

A change to the record under one key is a change in one place (`exists_split`), so what
the records hold together changes by what that record gains or loses
(`perm_flatMap_modify`).
-/

universe u v w

namespace Keyed

open List

variable {α : Type u} {κ : Type v} {β : Type w} [DecidableEq κ]

/-- The record under a key. -/
def lookup (key : α → κ) (k : κ) (xs : List α) : Option α := xs.find? fun x => decide (key x = k)

/-- Change the record under a key. -/
def modify (key : α → κ) (k : κ) (f : α → α) (xs : List α) : List α :=
  xs.map fun x => if key x = k then f x else x

/-- Put a record under its key, in place of the one that is there. -/
def assign (key : α → κ) (x : α) (xs : List α) : List α :=
  if key x ∈ xs.map key then modify key (key x) (fun _ => x) xs else xs ++ [x]

/-- Take the record under a key out. -/
def remove (key : α → κ) (k : κ) (xs : List α) : List α := xs.filter fun x => decide (key x ≠ k)

variable {key : α → κ} {k : κ} {f : α → α} {xs : List α} {x : α}

theorem key_of_lookup (found : lookup key k xs = some x) : key x = k := by
  simpa using find?_some found

theorem mem_of_lookup (found : lookup key k xs = some x) : x ∈ xs := mem_of_find?_eq_some found

theorem lookup_isSome : (lookup key k xs).isSome ↔ k ∈ xs.map key := by
  simp only [lookup, find?_isSome, decide_eq_true_eq, mem_map]

variable {g : α → List β}

theorem lookup_map (kept : ∀ x ∈ xs, key (f x) = key x) :
    lookup key k (xs.map f) = (lookup key k xs).map f := by
  unfold lookup
  induction xs with
  | nil => rfl
  | cons x xs ih =>
    rw [map_cons, find?_cons, find?_cons, kept x mem_cons_self,
      ih (forall_mem_cons.1 kept).2]
    split <;> rfl

/-! ### Keys -/

omit [DecidableEq κ] in
theorem map_key_map (kept : ∀ x ∈ xs, key (f x) = key x) : (xs.map f).map key = xs.map key := by
  rw [map_map]
  exact map_congr_left kept

theorem map_key_modify (kept : ∀ x ∈ xs, key x = k → key (f x) = k) :
    (modify key k f xs).map key = xs.map key := by
  apply map_key_map
  intro x mem
  split
  · rename_i same
    rw [kept x mem same, same]
  · rfl

theorem map_key_assign (x : α) (xs : List α) :
    (assign key x xs).map key = if key x ∈ xs.map key then xs.map key else xs.map key ++ [key x] := by
  unfold assign
  split
  · exact map_key_modify fun _ _ _ => rfl
  · rw [map_append, map_singleton]

theorem nodup_map_key_assign (distinct : (xs.map key).Nodup) (x : α) :
    ((assign key x xs).map key).Nodup := by
  rw [map_key_assign]
  split
  · exact distinct
  · rename_i absent
    exact nodup_append.2 ⟨distinct, nodup_singleton _, by
      rintro a mem b (mem_b : b ∈ [key x]) rfl
      exact absent (mem_singleton.1 mem_b ▸ mem)⟩

theorem mem_of_mem_assign {y : α} (mem : y ∈ assign key x xs) : y = x ∨ y ∈ xs := by
  unfold assign at mem
  split at mem
  · obtain ⟨z, mem_z, rfl⟩ := mem_map.1 mem
    split
    · exact .inl rfl
    · exact .inr mem_z
  · exact (mem_append.1 mem).symm.imp mem_singleton.1 id

theorem map_key_remove (k : κ) (xs : List α) :
    (remove key k xs).map key = (xs.map key).filter fun k' => decide (k' ≠ k) := by
  rw [filter_map]
  rfl

theorem nodup_map_key_remove (distinct : (xs.map key).Nodup) (k : κ) :
    ((remove key k xs).map key).Nodup := by
  rw [map_key_remove]
  exact distinct.filter _

/-! ### A change in one place -/

/-- Without a record under the key nothing changes. -/
theorem modify_of_not_mem (absent : k ∉ xs.map key) : modify key k f xs = xs := by
  have kept : ∀ x ∈ xs, (if key x = k then f x else x) = id x := fun x mem =>
    if_neg fun same => absent (mem_map.2 ⟨x, mem, same⟩)
  rw [modify, map_congr_left kept, map_id]

/-- The other records keep their place and their content. -/
theorem exists_split (distinct : (xs.map key).Nodup) (found : lookup key k xs = some x) :
    ∃ before after, xs = before ++ x :: after ∧
      ∀ f, modify key k f xs = before ++ f x :: after := by
  obtain ⟨before, after, rfl⟩ := append_of_mem (mem_of_lookup found)
  have same : key x = k := key_of_lookup found
  rw [map_append, map_cons, nodup_append, nodup_cons] at distinct
  obtain ⟨-, ⟨after_fresh, -⟩, apart⟩ := distinct
  refine ⟨before, after, rfl, fun f => ?_⟩
  have before_fresh : k ∉ before.map key := fun mem =>
    apart k mem k (same ▸ mem_cons_self) rfl
  have after_fresh : k ∉ after.map key := same ▸ after_fresh
  have splits : modify key k f (before ++ x :: after) =
      modify key k f before ++ (if key x = k then f x else x) :: modify key k f after := by
    rw [modify, map_append, map_cons]
    rfl
  rw [splits, modify_of_not_mem before_fresh, modify_of_not_mem after_fresh, if_pos same]

/-- A record is found and taken out where it stands. -/
theorem lookup_and_remove {before after : List α}
    (distinct : ((before ++ x :: after).map key).Nodup) :
    lookup key (key x) (before ++ x :: after) = some x ∧
      remove key (key x) (before ++ x :: after) = before ++ after ∧
      key x ∉ (before ++ after).map key := by
  rw [map_append, map_cons, nodup_middle, nodup_cons, ← map_append] at distinct
  obtain ⟨absent, -⟩ := distinct
  have others : ∀ y ∈ before ++ after, key y ≠ key x := fun y mem same =>
    absent (mem_map.2 ⟨y, mem, same⟩)
  refine ⟨?_, ?_, absent⟩
  · refine find?_eq_some_iff_append.2 ⟨decide_eq_true rfl, before, after, rfl, fun y mem => ?_⟩
    simpa using others y (mem_append_left _ mem)
  · rw [remove, filter_append, filter_cons_of_neg (by simp), ← filter_append]
    exact filter_eq_self.2 fun y mem => decide_eq_true (others y mem)

theorem perm_flatMap_modify {extra : List β} (distinct : (xs.map key).Nodup)
    (found : lookup key k xs = some x) (gains : (g (f x)).Perm (extra ++ g x)) :
    ((modify key k f xs).flatMap g).Perm (extra ++ xs.flatMap g) := by
  obtain ⟨before, after, rfl, changed⟩ := exists_split distinct found
  rw [changed, flatMap_append, flatMap_append, flatMap_cons, flatMap_cons]
  apply ((gains.append_right _).append_left _).trans
  rw [append_assoc]
  exact perm_append_comm_assoc ..

omit [DecidableEq κ] in
theorem perm_flatMap_map (moves : ∀ x ∈ xs, (g (f x)).Perm (g x)) :
    ((xs.map f).flatMap g).Perm (xs.flatMap g) := by
  rw [flatMap_map]
  exact List.Perm.flatMap_left _ moves

theorem subperm_flatMap_map (loses : ∀ x ∈ xs, (g (f x)).Subperm (g x)) :
    ((xs.map f).flatMap g).Subperm (xs.flatMap g) := by
  induction xs with
  | nil => exact List.Subperm.refl _
  | cons x xs ih =>
    rw [map_cons, flatMap_cons, flatMap_cons]
    exact (loses x mem_cons_self).append
      (ih (forall_mem_cons.1 loses).2)

theorem subperm_flatMap_assign (x : α) (xs : List α) (empty : g x = []) :
    ((assign key x xs).flatMap g).Subperm (xs.flatMap g) := by
  unfold assign
  split
  · refine subperm_flatMap_map fun y _ => ?_
    split
    · rw [empty]
      exact nil_subperm
    · exact List.Subperm.refl _
  · rw [flatMap_append, flatMap_singleton, empty, append_nil]

/-! ### Taking one element out -/

theorem perm_cons_eraseP {p : β → Bool} {ys : List β} {y : β} (found : ys.find? p = some y) :
    ys.Perm (y :: ys.eraseP p) := by
  obtain ⟨holds, before, after, rfl, fails⟩ := find?_eq_some_iff_append.1 found
  have earlier : ∀ b ∈ before, ¬ p b = true := fun b mem => by simpa using fails b mem
  rw [eraseP_append_right _ earlier, eraseP_cons_of_pos holds]
  exact perm_middle

end Keyed
