import Mathlib.Data.List.Basic
import Mathlib.Data.List.Forall2
import Mathlib.Logic.Function.Basic

/-!
Tables of a key-value store and batches of changes to them.

A batch puts its entries one after another and then deletes keys, so that a key both put
and deleted is gone, and of several entries for one key the last one stays. `write_apply`
says what a table holds afterwards, key by key.
-/

universe u v

namespace KeyValue

open List Option Function

variable {κ : Type u} {ν : Type v}

abbrev Table (κ : Type u) (ν : Type v) := κ → Option ν

/-- Changes collected for one table. -/
structure Changes (κ : Type u) (ν : Type v) where
  inserts : List (κ × ν)
  removes : List κ

namespace Changes

variable (changes : Changes κ ν)

def none : Changes κ ν := ⟨[], []⟩

def insert (k : κ) (value : ν) : Changes κ ν :=
  { changes with inserts := changes.inserts ++ [(k, value)] }

def insertAll (entries : List (κ × ν)) : Changes κ ν :=
  { changes with inserts := changes.inserts ++ entries }

def remove (k : κ) : Changes κ ν :=
  { changes with removes := changes.removes ++ [k] }

def removeAll (keys : List κ) : Changes κ ν :=
  { changes with removes := changes.removes ++ keys }

/-- Changes collected after others. -/
def append (changes later : Changes κ ν) : Changes κ ν :=
  ⟨changes.inserts ++ later.inserts, changes.removes ++ later.removes⟩

section Append

variable (later : Changes κ ν)

@[simp] theorem append_none : changes.append .none = changes := by
  simp [append, none]

@[simp] theorem append_insert (k : κ) (value : ν) :
    changes.append (later.insert k value) = (changes.append later).insert k value := by
  simp [append, insert]

@[simp] theorem append_remove (k : κ) :
    changes.append (later.remove k) = (changes.append later).remove k := by
  simp [append, remove]

@[simp] theorem append_removeAll (keys : List κ) :
    changes.append (later.removeAll keys) = (changes.append later).removeAll keys := by
  simp [append, removeAll]

end Append

section Loops

variable {σ α : Type*} {g : σ → Changes κ ν} {f : σ → α → σ}

/-- A loop each round of which puts some entries. -/
theorem foldl_insertAll {added : α → List (κ × ν)}
    (each : ∀ s a, g (f s a) = (g s).insertAll (added a)) (xs : List α) (s : σ) :
    g (xs.foldl f s) = (g s).insertAll (xs.flatMap added) := by
  induction xs generalizing s with
  | nil => exact congrArg (Changes.mk · _) (append_nil _).symm
  | cons x xs ih =>
    rw [foldl_cons, ih, each, insertAll, insertAll, insertAll, flatMap_cons, append_assoc]

/-- A loop each round of which deletes a key. -/
theorem foldl_removeAll {k : α → κ} (each : ∀ s a, g (f s a) = (g s).remove (k a))
    (xs : List α) (s : σ) : g (xs.foldl f s) = (g s).removeAll (xs.map k) := by
  induction xs generalizing s with
  | nil => exact congrArg (Changes.mk _) (append_nil _).symm
  | cons x xs ih =>
    rw [foldl_cons, ih, each, remove, removeAll, removeAll, map_cons, append_assoc, singleton_append]

end Loops

end Changes

variable [DecidableEq κ]

def put (table : Table κ ν) (entry : κ × ν) : Table κ ν := update table entry.1 (some entry.2)

def delete (table : Table κ ν) (k : κ) : Table κ ν := update table k none

/-- Perform the changes. -/
def write (table : Table κ ν) (changes : Changes κ ν) : Table κ ν :=
  changes.removes.foldl delete (changes.inserts.foldl put table)

/-- The last value that a list of entries has for a key. -/
def latest (k : κ) : List (κ × ν) → Option ν
  | [] => none
  | entry :: rest => (latest k rest).or (if entry.1 = k then some entry.2 else none)

variable {table : Table κ ν} {k : κ}

@[simp] theorem latest_nil : latest k ([] : List (κ × ν)) = none := rfl

@[simp] theorem latest_append (xs ys : List (κ × ν)) :
    latest k (xs ++ ys) = (latest k ys).or (latest k xs) := by
  induction xs with
  | nil => rw [nil_append, latest_nil, or_none]
  | cons x xs ih => rw [cons_append, latest, ih, latest, Option.or_assoc]

variable {entries : List (κ × ν)} {keys : List κ} {values : List ν}

theorem latest_eq_none (absent : ∀ entry ∈ entries, entry.1 ≠ k) : latest k entries = none := by
  induction entries with
  | nil => rfl
  | cons entry rest ih =>
    rw [latest, ih (forall_mem_cons.1 absent).2,
      if_neg (absent entry mem_cons_self), none_or]

/-- Where every key has one value, the entry for a key decides. -/
theorem latest_eq_some {value : ν} (mem : (k, value) ∈ entries)
    (functional : ∀ other, (k, other) ∈ entries → other = value) :
    latest k entries = some value := by
  induction entries with
  | nil => cases mem
  | cons entry rest ih =>
    rw [latest]
    have rest_functional := fun other held => functional other (mem_cons_of_mem entry held)
    by_cases held : (k, value) ∈ rest
    · rw [ih held rest_functional, some_or]
    · have first : entry = (k, value) :=
        ((mem_cons.1 mem).resolve_right held).symm
      rw [latest_eq_none, first, if_pos rfl, none_or]
      rintro ⟨k', other⟩ mem_rest rfl
      exact held (rest_functional other mem_rest ▸ mem_rest)

/-- Entries whose values go by their keys. -/
theorem latest_map {α : Type*} (key : α → κ) (value : κ → ν) (xs : List α) (k : κ) :
    latest k (xs.map fun x => (key x, value (key x))) =
      if k ∈ xs.map key then some (value k) else none := by
  split
  · rename_i held
    obtain ⟨x, mem, rfl⟩ := mem_map.1 held
    refine latest_eq_some (mem_map.2 ⟨x, mem, rfl⟩) fun other entry => ?_
    obtain ⟨y, -, same⟩ := mem_map.1 entry
    obtain ⟨keys, rfl⟩ := Prod.mk.inj same
    rw [keys]
  · rename_i absent
    refine latest_eq_none fun entry held same => absent ?_
    obtain ⟨x, mem, rfl⟩ := mem_map.1 held
    exact mem_map.2 ⟨x, mem, same⟩

theorem foldl_put_apply (entries : List (κ × ν)) (table : Table κ ν) (k : κ) :
    entries.foldl put table k = (latest k entries).or (table k) := by
  induction entries generalizing table with
  | nil => rfl
  | cons entry rest ih =>
    rw [foldl_cons, ih, latest, Option.or_assoc]
    by_cases same : entry.1 = k
    · rw [if_pos same, ← same, put, update_self, some_or]
    · rw [if_neg same, put, update_of_ne (Ne.symm same), none_or]

theorem foldl_delete_apply (keys : List κ) (table : Table κ ν) (k : κ) :
    keys.foldl delete table k = if k ∈ keys then none else table k := by
  induction keys generalizing table with
  | nil => rfl
  | cons key keys ih =>
    rw [foldl_cons, ih]
    by_cases later : k ∈ keys
    · rw [if_pos later, if_pos (mem_cons_of_mem _ later)]
    · rw [if_neg later]
      by_cases same : k = key
      · rw [if_pos (mem_cons.2 (.inl same)), same, delete, update_self]
      · rw [if_neg (fun mem => (mem_cons.1 mem).elim same later), delete, update_of_ne same]

/-- What the table holds after the changes. -/
theorem write_apply (table : Table κ ν) (changes : Changes κ ν) (k : κ) : write table changes k =
      if k ∈ changes.removes then none else (latest k changes.inserts).or (table k) := by
  rw [write, foldl_delete_apply, foldl_put_apply]

@[simp] theorem write_none (table : Table κ ν) : write table Changes.none = table := rfl

section Changes

variable {changes : Changes κ ν}

/-- While nothing is deleted, a further entry is a further put. -/
theorem write_insert (kept : changes.removes = []) (table : Table κ ν) (k : κ) (value : ν) :
    write table (changes.insert k value) = update (write table changes) k (some value) := by
  rw [write, write, Changes.insert, kept, foldl_append]
  rfl

theorem write_insertAll_apply (kept : changes.removes = []) (table : Table κ ν)
    (entries : List (κ × ν)) (k : κ) :
    write table (changes.insertAll entries) k = (latest k entries).or (write table changes k) := by
  rw [write, write, Changes.insertAll, kept, foldl_append]
  exact foldl_put_apply entries _ k

theorem write_removeAll_apply (table : Table κ ν) (keys : List κ) (k : κ) :
    write table (changes.removeAll keys) k = if k ∈ keys then none else write table changes k := by
  rw [write, write, Changes.removeAll, foldl_append]
  exact foldl_delete_apply keys _ k

/-- The later changes delete what these delete and put what these put. -/
structure Changes.SupersededBy (changes later : Changes κ ν) : Prop where
  removed : ∀ k ∈ changes.removes, k ∈ later.removes
  replaced : ∀ entry ∈ changes.inserts, latest entry.1 later.inserts ≠ Option.none

theorem Changes.SupersededBy.removeAll {keys others : List κ} {later : Changes κ ν}
    (same : later = none.removeAll others) (sub : ∀ k ∈ keys, k ∈ others) :
    (none.removeAll keys).SupersededBy later := by
  subst same
  exact ⟨sub, forall_mem_nil _⟩

theorem write_append_eq {later : Changes κ ν} (superseded : changes.SupersededBy later)
    (table : Table κ ν) : write table (changes.append later) = write table later := by
  funext k
  rw [write_apply, write_apply, Changes.append, latest_append]
  dsimp only
  by_cases gone : k ∈ later.removes
  · rw [if_pos gone, if_pos (mem_append_right _ gone)]
  · have kept : k ∉ changes.removes ++ later.removes := fun mem =>
      gone ((mem_append.1 mem).elim (superseded.removed k) id)
    rw [if_neg gone, if_neg kept]
    cases put : latest k later.inserts with
    | some value => rfl
    | none =>
      rw [latest_eq_none fun entry mem same => superseded.replaced entry mem (same ▸ put)]
      rfl

end Changes

/-! ### Reading several keys -/

omit [DecidableEq κ]

/-- All keys have to be found. -/
theorem forall₂_of_mapM (read : keys.mapM table = some values) :
    List.Forall₂ (fun k value => table k = some value) keys values := by
  induction keys generalizing values with
  | nil =>
    cases read
    exact .nil
  | cons k keys ih =>
    rw [mapM_cons, bind_eq_bind, bind_eq_some_iff] at read
    obtain ⟨value, found, rest⟩ := read
    obtain ⟨others, read, same⟩ := bind_eq_some_iff.1 rest
    cases same
    exact .cons found (ih read)

theorem exists_of_mapM_eq_some (read : keys.mapM table = some values)
    (mem : k ∈ keys) : ∃ value ∈ values, table k = some value := by
  have each := forall₂_of_mapM read
  clear read
  induction each with
  | nil => cases mem
  | cons found _ ih =>
    rcases mem_cons.1 mem with rfl | mem
    · exact ⟨_, mem_cons_self, found⟩
    · obtain ⟨value, held, found⟩ := ih mem
      exact ⟨value, mem_cons_of_mem _ held, found⟩

end KeyValue
