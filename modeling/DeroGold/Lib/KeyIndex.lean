import DeroGold.Lib.Slice
import Mathlib.Data.List.Nodup
import Mathlib.Logic.Function.Basic

/-!
Tables that say at which position of a growing list a key occurs.

Every entry of the list carries some keys; `Describes keys table start entries` says
that the table knows exactly the keys of the entries, each with the position of its
entry counted from `start`. The lemmas are the ways such a table is kept: filled one
entry at a time (keeping or overwriting what is there), restricted to the positions
below or above a cut, or with the keys of the dropped entries erased.
-/

universe u v

namespace KeyIndex

open List Option Slice Function

variable {ε : Type u} {κ : Type v} {keys : ε → List κ} {table : κ → Option Nat} {start : Nat}
  {entries : List ε}

/-- Keys of a list of entries. -/
def keysOf (keys : ε → List κ) (entries : List ε) : List κ := entries.flatMap keys

@[simp] theorem keysOf_append (xs ys : List ε) :
    keysOf keys (xs ++ ys) = keysOf keys xs ++ keysOf keys ys :=
  flatMap_append ..

@[simp] theorem keysOf_singleton (x : ε) : keysOf keys [x] = keys x := flatMap_singleton ..

@[simp] theorem keysOf_nil : keysOf keys [] = [] := rfl

theorem nodup_parts {xs ys : List ε} (distinct : (keysOf keys (xs ++ ys)).Nodup) :
    (keysOf keys xs).Nodup ∧ (keysOf keys ys).Nodup := by
  rw [keysOf_append] at distinct
  exact ⟨(nodup_append.1 distinct).1, (nodup_append.1 distinct).2.1⟩

theorem mem_keysOf {k : κ} :
    k ∈ keysOf keys entries ↔ ∃ (p : Nat) (e : ε), entries[p]? = some e ∧ k ∈ keys e := by
  rw [keysOf, mem_flatMap]
  constructor
  · rintro ⟨e, mem, has⟩
    obtain ⟨p, found⟩ := getElem?_of_mem mem
    exact ⟨p, e, found, has⟩
  · rintro ⟨p, e, found, has⟩
    exact ⟨e, mem_of_getElem? found, has⟩

/-- A key that occurs once belongs to one position. -/
theorem position_unique (distinct : (keysOf keys entries).Nodup) {p q : Nat} {e e' : ε} {k : κ}
    (at_p : entries[p]? = some e) (at_q : entries[q]? = some e') (has : k ∈ keys e)
    (has' : k ∈ keys e') : p = q := by
  have disjoint := (nodup_flatMap.1 distinct).2
  rw [pairwise_iff_getElem] at disjoint
  obtain ⟨p_lt, rfl⟩ := List.getElem?_eq_some_iff.1 at_p
  obtain ⟨q_lt, rfl⟩ := List.getElem?_eq_some_iff.1 at_q
  rcases Nat.lt_trichotomy p q with lt | same | gt
  · exact absurd has' (disjoint p q p_lt q_lt lt has)
  · exact same
  · exact absurd has (disjoint q p q_lt p_lt gt has')

/-- The table gives each key the position of the entry that carries it. -/
def Describes (keys : ε → List κ) (table : κ → Option Nat) (start : Nat) (entries : List ε) :
    Prop :=
  ∀ k i, table k = some i ↔ ∃ p e, entries[p]? = some e ∧ k ∈ keys e ∧ i = start + p

theorem Describes.nil : Describes keys (fun _ => none) start [] := by
  intro k i
  constructor
  · rintro ⟨⟩
  · rintro ⟨p, e, found, -⟩
    cases found

theorem keysOf_map {δ : Type u} (f : δ → ε) (xs : List δ) :
    keysOf keys (xs.map f) = keysOf (fun x => keys (f x)) xs := by
  rw [keysOf, keysOf, flatMap_map]

theorem Describes.map {δ : Type u} (keys : ε → List κ) (f : δ → ε) {xs : List δ}
    (h : Describes (fun x => keys (f x)) table start xs) : Describes keys table start (xs.map f) := by
  intro k i
  rw [h k i]
  constructor
  · rintro ⟨p, x, found, has, rfl⟩
    exact ⟨p, f x, by rw [getElem?_map, found]; rfl, has, rfl⟩
  · rintro ⟨p, e, found, has, rfl⟩
    rw [getElem?_map, map_eq_some_iff] at found
    obtain ⟨x, found, rfl⟩ := found
    exact ⟨p, x, found, has, rfl⟩

section

variable (h : Describes keys table start entries)
include h

theorem Describes.eq_none {k : κ} (absent : k ∉ keysOf keys entries) : table k = none := by
  cases found : table k with
  | none => rfl
  | some i =>
    obtain ⟨p, e, at_p, has, -⟩ := (h k i).1 found
    exact absurd (mem_keysOf.2 ⟨p, e, at_p, has⟩) absent

/-- One more entry, whose keys are new. -/
theorem Describes.concat [DecidableEq κ] {e : ε} (fresh : ∀ k ∈ keys e, k ∉ keysOf keys entries) :
    Describes keys (fun k => if k ∈ keys e then some (start + entries.length) else table k) start
      (entries ++ [e]) := by
  intro k i
  by_cases has : k ∈ keys e
  · simp only [if_pos has, some.injEq]
    constructor
    · rintro rfl
      exact ⟨entries.length, e, getElem?_concat_length, has, rfl⟩
    · rintro ⟨p, e', found, has', rfl⟩
      rcases getElem?_concat_eq_some.1 found with old | ⟨rfl, -⟩
      · exact absurd (mem_keysOf.2 ⟨p, e', old, has'⟩) (fresh k has)
      · rfl
  · simp only [if_neg has]
    rw [h k i]
    constructor
    · rintro ⟨p, e', found, has', rfl⟩
      exact ⟨p, e', getElem?_concat_eq_some.2 (.inl found), has', rfl⟩
    · rintro ⟨p, e', found, has', rfl⟩
      rcases getElem?_concat_eq_some.1 found with old | ⟨-, rfl⟩
      · exact ⟨p, e', old, has', rfl⟩
      · exact absurd has' has

/-- The positions below a cut. -/
theorem Describes.filter_lt (n : Nat) :
    Describes keys (fun k => (table k).filter fun i => decide (i < start + n)) start
      (entries.take n) := by
  intro k i
  rw [filter_eq_some_iff, decide_eq_true_eq, h k i]
  constructor
  · rintro ⟨⟨p, e, found, has, rfl⟩, lt⟩
    exact ⟨p, e, getElem?_take_eq_some.2 ⟨found, by omega⟩, has, rfl⟩
  · rintro ⟨p, e, found, has, rfl⟩
    obtain ⟨found, inside⟩ := getElem?_take_eq_some.1 found
    exact ⟨⟨p, e, found, has, rfl⟩, by omega⟩

/-- The positions from a cut on. -/
theorem Describes.filter_ge (n : Nat) :
    Describes keys (fun k => (table k).filter fun i => decide (start + n ≤ i)) (start + n)
      (entries.drop n) := by
  intro k i
  rw [filter_eq_some_iff, decide_eq_true_eq, h k i]
  constructor
  · rintro ⟨⟨p, e, found, has, rfl⟩, ge⟩
    refine ⟨p - n, e, ?_, has, by omega⟩
    rw [getElem?_drop, Nat.add_sub_cancel' (by omega)]
    exact found
  · rintro ⟨p, e, found, has, rfl⟩
    rw [getElem?_drop] at found
    exact ⟨⟨n + p, e, found, has, by omega⟩, by omega⟩

/-- The keys of the entries from a cut on erased; keys occur once. -/
theorem Describes.erase [DecidableEq κ] (distinct : (keysOf keys entries).Nodup) (n : Nat) :
    Describes keys (fun k => if k ∈ keysOf keys (entries.drop n) then none else table k) start
      (entries.take n) := by
  have split := take_append_drop n entries
  rw [← split, keysOf_append] at distinct
  have apart := nodup_append.1 distinct |>.2.2
  have kept := h.filter_lt n
  intro k i
  by_cases dropped : k ∈ keysOf keys (entries.drop n)
  · simp only [if_pos dropped, reduceCtorEq, false_iff]
    rintro ⟨p, e, found, has, -⟩
    exact apart k (mem_keysOf.2 ⟨p, e, found, has⟩) k dropped rfl
  · simp only [if_neg dropped]
    rw [← kept k i]
    constructor
    · intro found
      rw [filter_eq_some_iff, decide_eq_true_eq]
      refine ⟨found, ?_⟩
      obtain ⟨p, e, at_p, has, rfl⟩ := (h k i).1 found
      by_contra ge
      refine dropped (mem_keysOf.2 ⟨p - n, e, ?_, has⟩)
      rw [getElem?_drop, Nat.add_sub_cancel' (by omega)]
      exact at_p
    · intro found
      exact (filter_eq_some_iff.1 found).1

end

/-! ### Filling a table -/

/-- Overwriting entries one key after another. -/
theorem foldl_update [DecidableEq κ] (ks : List κ) (i : Nat) (table : κ → Option Nat) :
    ks.foldl (fun table k => update table k (some i)) table =
      fun k => if k ∈ ks then some i else table k := by
  induction ks generalizing table with
  | nil => simp
  | cons k ks ih =>
    rw [foldl_cons, ih]
    funext k'
    by_cases mem : k' ∈ ks
    · simp [mem]
    · by_cases same : k' = k
      · subst same
        simp
      · simp [mem, same]

/-! ### Records under distinct keys -/

section Records

variable {ν : Type u} {table : κ → Option ν} {records low high : List (κ × ν)}

/-- The table holds exactly the listed records. -/
def Tabulates (table : κ → Option ν) (records : List (κ × ν)) : Prop :=
  ∀ k v, table k = some v ↔ (k, v) ∈ records

theorem Tabulates.nil : Tabulates (fun _ : κ => (none : Option ν)) [] := by
  intro k v
  simp

/-- The table after records have been written to it one after another. -/
def writeAll [DecidableEq κ] (table : κ → Option ν) (records : List (κ × ν)) : κ → Option ν :=
  records.foldl (fun table record => update table record.1 (some record.2)) table

theorem isSome_writeAll [DecidableEq κ] {k : κ} : (writeAll table records k).isSome = true ↔
    (table k).isSome = true ∨ k ∈ records.map Prod.fst := by
  unfold writeAll
  induction records generalizing table with
  | nil => simp
  | cons record records ih =>
    rw [foldl_cons, ih, map_cons, mem_cons, update_apply]
    by_cases same : k = record.1 <;> simp [same]

theorem Tabulates.writeAll [DecidableEq κ] (h : Tabulates table low)
    (distinct : ((low ++ high).map Prod.fst).Nodup) :
    Tabulates (writeAll table high) (low ++ high) := by
  induction high generalizing table low with
  | nil => rwa [append_nil]
  | cons record high ih =>
    have written : Tabulates (update table record.1 (some record.2))
        (low ++ [record]) := by
      have absent : ∀ v, (record.1, v) ∉ low := by
        intro v mem
        rw [map_append, nodup_append] at distinct
        exact distinct.2.2 _ (mem_map_of_mem mem) _ (by simp) rfl
      intro k v
      by_cases same : k = record.1
      · subst same
        rw [update_self, some.injEq, mem_append, mem_singleton]
        constructor
        · rintro rfl
          exact .inr rfl
        · rintro (mem | same)
          · exact absurd mem (absent v)
          · exact (congrArg Prod.snd same).symm
      · rw [update_of_ne same, h k v, mem_append, mem_singleton]
        refine ⟨.inl, fun mem => mem.resolve_right ?_⟩
        rintro rfl
        exact same rfl
    rw [append_cons] at distinct ⊢
    exact ih written distinct

/-- Reading the records of some keys. -/
theorem Tabulates.mapM (h : Tabulates table records) {part : List (κ × ν)}
    (inside : part ⊆ records) : (part.map Prod.fst).mapM table = some (part.map Prod.snd) := by
  induction part with
  | nil => rfl
  | cons record part ih =>
    have found : table record.1 = some record.2 := (h _ _).2 (inside mem_cons_self)
    rw [map_cons, mapM_cons, found, ih fun _ mem => inside (mem_cons_of_mem _ mem)]
    rfl

/-- Erasing the records of the keys of one part. -/
theorem Tabulates.erase [DecidableEq κ] (h : Tabulates table (low ++ high))
    (distinct : ((low ++ high).map Prod.fst).Nodup) :
    Tabulates (fun k => if k ∈ high.map Prod.fst then none else table k) low := by
  intro k v
  rw [map_append, nodup_append] at distinct
  by_cases erased : k ∈ high.map Prod.fst
  · simp only [if_pos erased]
    refine iff_of_false (some_ne_none v).symm fun mem => ?_
    exact distinct.2.2 _ (mem_map_of_mem mem) _ erased rfl
  · simp only [if_neg erased]
    rw [h k v, mem_append]
    refine ⟨fun mem => mem.resolve_right fun moved => erased ?_, .inl⟩
    exact mem_map_of_mem (f := Prod.fst) moved

end Records

/-! ### Lists that refuse conflicting elements -/

section Refusing

variable {α : Type u} {conflicts : α → α → Bool} {xs news : List α} {x : α}

/-- Append an element unless it conflicts with one that is there. -/
def addUnless (conflicts : α → α → Bool) (xs : List α) (x : α) : List α :=
  if xs.any (conflicts x) then xs else xs ++ [x]

theorem prefix_foldl_addUnless (conflicts : α → α → Bool) (news xs : List α) :
    xs <+: news.foldl (addUnless conflicts) xs := by
  induction news generalizing xs with
  | nil => exact prefix_refl xs
  | cons x news ih =>
    refine .trans ?_ (ih _)
    unfold addUnless
    split
    · exact prefix_refl xs
    · exact prefix_append xs [x]

theorem mem_addUnless {y : α} (mem : y ∈ addUnless conflicts xs x) : y ∈ xs ∨ y = x := by
  unfold addUnless at mem
  split at mem
  · exact .inl mem
  · rcases mem_append.1 mem with mem | mem
    · exact .inl mem
    · exact .inr (mem_singleton.1 mem)

theorem mem_foldl_addUnless {y : α} (mem : y ∈ news.foldl (addUnless conflicts) xs) :
    y ∈ xs ∨ y ∈ news := by
  induction news generalizing xs with
  | nil => exact .inl mem
  | cons x news ih =>
    rcases ih mem with mem | mem
    · rcases mem_addUnless mem with mem | rfl
      · exact .inl mem
      · exact .inr mem_cons_self
    · exact .inr (mem_cons_of_mem _ mem)

/-- An element offered is there afterwards, or one it conflicts with is. -/
theorem exists_mem_foldl_addUnless (conflicts : α → α → Bool) (xs : List α) (mem : x ∈ news) :
    ∃ y ∈ news.foldl (addUnless conflicts) xs, y = x ∨ conflicts x y = true := by
  induction news generalizing xs with
  | nil => cases mem
  | cons z news ih =>
    rcases mem_cons.1 mem with rfl | mem
    · have there : ∃ y ∈ addUnless conflicts xs x, y = x ∨ conflicts x y = true := by
        unfold addUnless
        split
        · rename_i taken
          obtain ⟨y, held, conflict⟩ := any_eq_true.1 taken
          exact ⟨y, held, .inr conflict⟩
        · exact ⟨x, mem_append_right _ (mem_singleton_self _), .inl rfl⟩
      obtain ⟨y, held, same⟩ := there
      exact ⟨y, (prefix_foldl_addUnless conflicts news _).subset held, same⟩
    · exact ih _ mem

end Refusing

end KeyIndex
