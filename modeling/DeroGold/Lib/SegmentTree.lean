import DeroGold.Lib.Slice
import Mathlib.Data.List.Nodup
import Mathlib.Data.Finset.Card

/-!
Segmented chains: a growing tree whose nodes each hold a run of consecutive
entries, so that the history seen from a node is the concatenation of the runs
on its path to the root.

* `SegmentTree.path`, `lineage`, `chain` — the walk to the root, the values met
  on it (own value first) and the entries they hold (oldest first). The walk is
  fuelled by the number of nodes; `IsPath.path_eq` shows the fuel is enough.
* `setValue`, `addChild`, `split` — replace a value, hang a new node below an
  old one, cut a node in two and hand its children to the upper half.
* `WellFormed` — children lists and parent links agree and every node reaches
  the root; kept by the three operations.
* `Consistent P` — every node's value satisfies `P` relative to the entries
  below it. One local obligation per operation keeps it (`Consistent.setValue`,
  `Consistent.addChild`, `Consistent.split`).
-/

universe u v

/-- A node: link to the parent, links to the children, and the value held. -/
structure SegmentTree.Node (σ : Type u) where
  parent : Option Nat
  children : List Nat
  value : σ

/-- Nodes are named by their position; nodes are only ever appended. -/
structure SegmentTree (σ : Type u) where
  nodes : List (SegmentTree.Node σ)

namespace SegmentTree

open List Option

variable {σ : Type u} {ε : Type v} (t : SegmentTree σ)

def size : Nat := t.nodes.length

def node? (i : Nat) : Option (Node σ) := t.nodes[i]?

def value? (i : Nat) : Option σ := (t.node? i).map (·.value)

def parent? (i : Nat) : Option Nat := (t.node? i).bind (·.parent)

def childrenOf (i : Nat) : List Nat := ((t.node? i).map (·.children)).getD []

/-- The tree that holds one value and nothing else. -/
def single (v : σ) : SegmentTree σ := ⟨[⟨none, [], v⟩]⟩

def setValue (i : Nat) (v : σ) : SegmentTree σ :=
  ⟨t.nodes.modify i fun nd => { nd with value := v }⟩

/-- Hang a new node with value `v` below `p`; its name is the old size. -/
def addChild (p : Nat) (v : σ) : SegmentTree σ :=
  ⟨(t.nodes.modify p fun nd => { nd with children := nd.children ++ [t.size] }) ++
    [⟨some p, [], v⟩]⟩

/-- Take a node out of the children of another one. -/
def deleteChild (p c : Nat) : SegmentTree σ :=
  ⟨t.nodes.modify p fun nd => { nd with children := nd.children.erase c }⟩

/-- Cut node `i` in two: `i` keeps `lower`, a new node between `i` and its former
children holds `upper`. -/
def split (i : Nat) (lower upper : σ) : SegmentTree σ :=
  ⟨(t.nodes.mapIdx fun j nd =>
      if j = i then { nd with children := [t.size], value := lower }
      else if j ∈ t.childrenOf i then { nd with parent := some t.size }
      else nd) ++
    [⟨some i, t.childrenOf i, upper⟩]⟩

/-! ### Lookups after an operation -/

variable {t} {i : Nat}

theorem lt_size_iff : i < t.size ↔ ∃ nd, t.node? i = some nd := by
  rw [← isSome_iff_exists]
  simp [size, node?]

theorem lt_size_of_node? {nd : Node σ} (h : t.node? i = some nd) : i < t.size :=
  lt_size_iff.2 ⟨nd, h⟩

theorem childrenOf_eq {nd : Node σ} (h : t.node? i = some nd) : t.childrenOf i = nd.children := by
  simp [childrenOf, h]

theorem childrenOf_of_size_le (h : t.size ≤ i) : t.childrenOf i = [] := by
  have absent : t.node? i = none := getElem?_eq_none h
  simp [childrenOf, absent]

@[simp] theorem size_single (v : σ) : (single v).size = 1 := rfl

@[simp] theorem size_setValue (t : SegmentTree σ) (i : Nat) (v : σ) :
    (t.setValue i v).size = t.size := by
  simp [size, setValue]

@[simp] theorem size_addChild (t : SegmentTree σ) (p : Nat) (v : σ) :
    (t.addChild p v).size = t.size + 1 := by
  simp [size, addChild]

@[simp] theorem size_split (t : SegmentTree σ) (i : Nat) (lower upper : σ) :
    (t.split i lower upper).size = t.size + 1 := by
  simp [size, split]

theorem node?_single {v : σ} {nd : Node σ} :
    (single v).node? i = some nd ↔ i = 0 ∧ nd = ⟨none, [], v⟩ := by
  cases i <;> simp [single, node?, eq_comm]

section

variable (t : SegmentTree σ)

theorem getElem?_modify_eq {α : Type u} (xs : List α) (f : α → α) (i j : Nat) :
    (xs.modify i f)[j]? = xs[j]?.map fun x => if j = i then f x else x := by
  rw [getElem?_modify]
  by_cases same : j = i
  · subst same; simp
  · cases xs[j]? <;> simp [same, Ne.symm same]

theorem node?_setValue (i j : Nat) (v : σ) : (t.setValue i v).node? j =
      (t.node? j).map fun nd => if j = i then { nd with value := v } else nd :=
  getElem?_modify_eq ..

theorem node?_setValue_self {t : SegmentTree σ} {nd : Node σ} (v : σ) (found : t.node? i = some nd) :
    (t.setValue i v).node? i = some { nd with value := v } := by
  simp [node?_setValue, found]

theorem node?_addChild (p : Nat) (v : σ) (j : Nat) : (t.addChild p v).node? j =
      if j = t.size then some ⟨some p, [], v⟩ else (t.node? j).map fun nd =>
        if j = p then { nd with children := nd.children ++ [t.size] } else nd := by
  simp only [addChild, node?, Slice.getElem?_concat, length_modify, getElem?_modify_eq]
  rfl

theorem node?_split (i : Nat) (lower upper : σ) (j : Nat) : (t.split i lower upper).node? j =
      if j = t.size then some ⟨some i, t.childrenOf i, upper⟩ else (t.node? j).map fun nd =>
        if j = i then { nd with children := [t.size], value := lower }
        else if j ∈ t.childrenOf i then { nd with parent := some t.size }
        else nd := by
  simp only [split, node?, Slice.getElem?_concat, length_mapIdx, getElem?_mapIdx]
  rfl

theorem node?_split_new (i : Nat) (lower upper : σ) :
    (t.split i lower upper).node? t.size = some ⟨some i, t.childrenOf i, upper⟩ := by
  rw [node?_split, if_pos rfl]

end

/-- Cutting a childless node is the same as shortening it and hanging the rest
below it. -/
theorem split_eq_addChild (lower upper : σ) (leaf : t.childrenOf i = []) :
    t.split i lower upper = (t.setValue i lower).addChild i upper := by
  have length_eq : (t.setValue i lower).size = t.size := size_setValue ..
  unfold split addChild
  rw [length_eq, leaf]
  congr 2
  apply ext_getElem?
  intro j
  rw [getElem?_mapIdx, getElem?_modify]
  change _ = _ <$> (t.setValue i lower).node? j
  rw [node?_setValue]
  change Option.map _ (t.node? j) = _
  cases h : t.node? j with
  | none => rfl
  | some nd =>
    by_cases same : j = i
    · subst same
      simpa [childrenOf_eq h] using leaf
    · simp [same, Ne.symm same]

/-! ### The walk to the root -/

def pathAux (t : SegmentTree σ) : Nat → Nat → List Nat
  | 0, _ => []
  | fuel + 1, i =>
    match t.node? i with
    | none => []
    | some nd =>
      i :: match nd.parent with
        | none => []
        | some p => pathAux t fuel p

/-- Names met on the walk from `i` to the root, `i` first. -/
def path (t : SegmentTree σ) (i : Nat) : List Nat := t.pathAux t.size i

/-- Values met on the walk from `i` to the root, the value of `i` first. -/
def lineage (t : SegmentTree σ) (i : Nat) : List σ := (t.path i).filterMap t.value?

theorem exists_node_of_mem_lineage {value : σ} (mem : value ∈ t.lineage i) :
    ∃ j nd, t.node? j = some nd ∧ nd.value = value := by
  obtain ⟨j, -, held⟩ := mem_filterMap.1 mem
  exact ⟨j, map_eq_some_iff.1 held⟩

/-- `ps` is the walk from `i` to a node without parent. -/
inductive IsPath (t : SegmentTree σ) : Nat → List Nat → Prop
  | root {i : Nat} {nd : Node σ} : t.node? i = some nd → nd.parent = none → IsPath t i [i]
  | step {i p : Nat} {nd : Node σ} {ps : List Nat} :
      t.node? i = some nd → nd.parent = some p → IsPath t p ps → IsPath t i (i :: ps)

namespace IsPath

variable {t : SegmentTree σ}

variable {i j : Nat} {ps : List Nat}

section

variable (h : IsPath t i ps)
include h

theorem head_eq : ∃ rest, ps = i :: rest := by
  cases h with
  | root _ _ => exact ⟨[], rfl⟩
  | step _ _ _ => exact ⟨_, rfl⟩

theorem self_mem : i ∈ ps := by
  obtain ⟨rest, rfl⟩ := h.head_eq
  exact mem_cons_self

/-- After a node comes the walk of its parent. -/
theorem parent_cases {nd : Node σ} (found : t.node? i = some nd) : nd.parent = none ∧ ps = [i] ∨
    ∃ p rest, nd.parent = some p ∧ IsPath t p rest ∧ ps = i :: rest := by
  cases h with
  | root found' noParent =>
    cases found.symm.trans found'
    exact .inl ⟨noParent, rfl⟩
  | step found' link rest =>
    cases found.symm.trans found'
    exact .inr ⟨_, _, link, rest, rfl⟩

theorem unique {qs : List Nat} (h' : IsPath t i qs) : ps = qs := by
  induction h generalizing qs with
  | root found noParent =>
    obtain ⟨-, rfl⟩ | ⟨p, rest, link, -⟩ := h'.parent_cases found
    · rfl
    · cases noParent.symm.trans link
  | step found link _ ih =>
    obtain ⟨noParent, -⟩ | ⟨p, rest, link', walk, rfl⟩ := h'.parent_cases found
    · cases noParent.symm.trans link
    · cases link.symm.trans link'
      rw [ih walk]

theorem lt_size (mem : j ∈ ps) : j < t.size := by
  induction h with
  | root found _ =>
    rw [mem_singleton] at mem
    exact mem ▸ lt_size_of_node? found
  | step found _ _ ih =>
    rcases mem_cons.1 mem with rfl | mem
    · exact lt_size_of_node? found
    · exact ih mem

theorem of_mem (mem : j ∈ ps) : ∃ qs, IsPath t j qs ∧ qs <:+ ps := by
  induction h with
  | root found noParent =>
    obtain rfl := mem_singleton.1 mem
    exact ⟨_, .root found noParent, suffix_refl _⟩
  | step found hasParent rest ih =>
    rcases mem_cons.1 mem with rfl | mem
    · exact ⟨_, .step found hasParent rest, suffix_refl _⟩
    · obtain ⟨qs, walk, suffix⟩ := ih mem
      exact ⟨qs, walk, suffix.trans (suffix_cons _ _)⟩

/-- Every node of a walk but the first has a child on it. -/
theorem exists_child : ∀ p ∈ ps, p ≠ i → ∃ c ∈ ps, t.parent? c = some p := by
  induction h with
  | root _ _ =>
    intro p mem ne
    exact absurd (mem_singleton.1 mem) ne
  | @step j q nd ps found link rest ih =>
    intro p mem ne
    obtain ⟨more, rfl⟩ := rest.head_eq
    by_cases first : p = q
    · refine ⟨j, mem_cons_self, ?_⟩
      simp [parent?, found, link, first]
    · obtain ⟨c, held, child⟩ := ih p ((mem_cons.1 mem).resolve_left ne) first
      exact ⟨c, mem_cons_of_mem _ held, child⟩

/-- A node cannot occur above itself: its walk would be a proper suffix of itself. -/
theorem nodup : ps.Nodup := by
  induction h with
  | root _ _ => exact nodup_singleton _
  | @step i p nd ps found hasParent rest ih =>
    refine nodup_cons.2 ⟨fun mem => ?_, ih⟩
    obtain ⟨qs, walk, suffix⟩ := rest.of_mem mem
    have same : qs = i :: ps := walk.unique (.step found hasParent rest)
    have short := suffix.length_le
    rw [same, length_cons] at short
    omega

end

/-- Walks stay walks in a tree that keeps the nodes and their parents. -/
theorem mono {t' : SegmentTree σ} (kept : ∀ {j nd}, t.node? j = some nd →
      ∃ nd', t'.node? j = some nd' ∧ nd'.parent = nd.parent)
    (h : IsPath t i ps) : IsPath t' i ps := by
  induction h with
  | root found noParent =>
    obtain ⟨nd', found', same⟩ := kept found
    exact .root found' (same.trans noParent)
  | step found link _ ih =>
    obtain ⟨nd', found', same⟩ := kept found
    exact .step found' (same.trans link) ih

/-- A walk stays in a set closed under parents once it has entered it. -/
theorem mem_takeWhile_or_mem {M : List Nat} (closed : ∀ {j qs}, j ∈ M → IsPath t j qs → qs ⊆ M)
    (h : IsPath t i ps) (mem : j ∈ ps) : j ∈ ps.takeWhile (fun k => decide (k ∉ M)) ∨ j ∈ M := by
  induction h with
  | @root i nd found noParent =>
    by_cases inside : i ∈ M
    · exact .inr (closed inside (.root found noParent) mem)
    · rw [takeWhile_cons_of_pos (by rw [decide_eq_true_eq]; exact inside)]
      exact .inl mem
  | @step i p nd ps found hasParent rest ih =>
    by_cases inside : i ∈ M
    · exact .inr (closed inside (.step found hasParent rest) mem)
    · rw [takeWhile_cons_of_pos (by rw [decide_eq_true_eq]; exact inside)]
      rcases mem_cons.1 mem with rfl | mem
      · exact .inl mem_cons_self
      · exact (ih mem).imp_left (mem_cons_of_mem _)

theorem length_le (h : IsPath t i ps) : ps.length ≤ t.size := by
  have sub : ps.toFinset ⊆ Finset.range t.size := fun j mem =>
    Finset.mem_range.2 (h.lt_size (mem_toFinset.1 mem))
  have card := Finset.card_le_card sub
  rwa [toFinset_card_of_nodup h.nodup, Finset.card_range] at card

theorem pathAux_eq (h : IsPath t i ps) : ∀ fuel, ps.length ≤ fuel → t.pathAux fuel i = ps := by
  induction h with
  | root found noParent =>
    intro fuel enough
    cases fuel with
    | zero => simp at enough
    | succ fuel => simp [pathAux, found, noParent]
  | step found hasParent _ ih =>
    intro fuel enough
    cases fuel with
    | zero => simp at enough
    | succ fuel =>
      simp only [pathAux, found, hasParent]
      rw [ih fuel (by simpa using enough)]

/-- The fuel of `path` is enough for every node that reaches the root. -/
theorem path_eq (h : IsPath t i ps) : t.path i = ps := h.pathAux_eq _ h.length_le

end IsPath

/-! ### Well-formed trees -/

/-- Parent links and children lists agree, and every node reaches the root. -/
structure WellFormed (t : SegmentTree σ) : Prop where
  linked : ∀ {i p nd}, t.node? i = some nd → nd.parent = some p → i ∈ t.childrenOf p
  owned : ∀ {p c}, c ∈ t.childrenOf p → t.parent? c = some p
  distinct : ∀ p, (t.childrenOf p).Nodup
  rooted : ∀ {i}, i < t.size → ∃ ps, IsPath t i ps

namespace WellFormed

variable {t : SegmentTree σ}

variable {i p : Nat} {nd : Node σ}

section

variable (wf : WellFormed t)
include wf

theorem isPath_path (old : i < t.size) : IsPath t i (t.path i) := by
  obtain ⟨ps, walk⟩ := wf.rooted old
  rwa [walk.path_eq]

theorem mem_childrenOf_iff {c : Nat} : c ∈ t.childrenOf p ↔ t.parent? c = some p := by
  refine ⟨wf.owned, fun link => ?_⟩
  obtain ⟨nd, found, link⟩ := bind_eq_some_iff.1 link
  exact wf.linked found link

theorem child_lt {c : Nat} (mem : c ∈ t.childrenOf p) : c < t.size := by
  obtain ⟨nd, found, -⟩ := bind_eq_some_iff.1 (wf.owned mem)
  exact lt_size_of_node? found

theorem parent_lt (found : t.node? i = some nd) (link : nd.parent = some p) : p < t.size := by
  obtain ⟨ps, walk⟩ := wf.rooted (lt_size_of_node? found)
  obtain ⟨noParent, -⟩ | ⟨q, rest, link', walk, -⟩ := walk.parent_cases found
  · cases noParent.symm.trans link
  · cases link.symm.trans link'
    exact walk.lt_size walk.self_mem

theorem parent_ne_self (found : t.node? i = some nd) (link : nd.parent = some p) : p ≠ i := by
  rintro rfl
  obtain ⟨ps, walk⟩ := wf.rooted (lt_size_of_node? found)
  have longer : IsPath t p (p :: ps) := .step found link walk
  have same := walk.unique longer
  have := congrArg length same
  simp at this

/-- The lineage of a node is its value followed by the lineage of its parent. -/
theorem lineage_eq (found : t.node? i = some nd) : t.lineage i = nd.value :: match nd.parent with
      | none => []
      | some p => t.lineage p := by
  obtain ⟨ps, walk⟩ := wf.rooted (lt_size_of_node? found)
  unfold lineage
  rw [walk.path_eq]
  obtain ⟨noParent, rfl⟩ | ⟨p, rest, link, up, rfl⟩ := walk.parent_cases found
  · simp [value?, found, noParent]
  · simp [value?, found, link, up.path_eq]

end

end WellFormed

variable {t : SegmentTree σ} {i : Nat}

/-- Above every node there is a childless one. -/
theorem WellFormed.exists_leaf_above (wf : WellFormed t) (old : i < t.size) :
    ∃ leaf, leaf < t.size ∧ t.childrenOf leaf = [] ∧ i ∈ t.path leaf := by
  -- on the way up the walks get longer, and no walk is longer than the tree
  induction room : t.size - (t.path i).length using Nat.strong_induction_on generalizing i with
  | _ room ih =>
    have walk := wf.isPath_path old
    cases children : t.childrenOf i with
    | nil => exact ⟨i, old, children, walk.self_mem⟩
    | cons c cs =>
      have child : c ∈ t.childrenOf i := children ▸ mem_cons_self
      have old' := wf.child_lt child
      obtain ⟨nd, found⟩ := lt_size_iff.1 old'
      have link : nd.parent = some i := by
        have owned := wf.owned child
        rwa [parent?, found] at owned
      have walk' : IsPath t c (c :: t.path i) := .step found link walk
      have short := walk'.length_le
      rw [length_cons] at short
      obtain ⟨leaf, leaf_lt, childless, above⟩ :=
        ih (t.size - (t.path c).length) (by rw [walk'.path_eq, length_cons]; omega)
          old' rfl
      refine ⟨leaf, leaf_lt, childless, ?_⟩
      obtain ⟨qs, walk'', suffix⟩ := (wf.isPath_path leaf_lt).of_mem above
      rw [walk''.unique walk'] at suffix
      exact suffix.subset (mem_cons_of_mem _ walk.self_mem)

theorem lineage_eq_nil (absent : t.node? i = none) : t.lineage i = [] := by
  unfold lineage path
  cases t.size with
  | zero => rfl
  | succ fuel => simp [pathAux, absent]

/-! ### The operations keep the tree well formed -/

@[simp] theorem childrenOf_setValue (t : SegmentTree σ) (i j : Nat) (v : σ) :
    (t.setValue i v).childrenOf j = t.childrenOf j := by
  simp only [childrenOf, node?_setValue, Option.map_map]
  congr 2
  funext nd
  by_cases same : j = i <;> simp [same]

@[simp] theorem parent?_setValue (t : SegmentTree σ) (i j : Nat) (v : σ) :
    (t.setValue i v).parent? j = t.parent? j := by
  simp only [parent?, node?_setValue]
  cases t.node? j with
  | none => rfl
  | some nd => by_cases same : j = i <;> simp [same]

theorem IsPath.setValue {j : Nat} {ps : List Nat} (v : σ) (h : IsPath t j ps) :
    IsPath (t.setValue i v) j ps := by
  refine h.mono fun found => ⟨_, by rw [node?_setValue, found]; rfl, ?_⟩
  split <;> rfl

/-! ### Taking a child away

The tree is no longer well formed then, since the child still points to its parent; the
walks and the values are those of the tree before. -/

section DeleteChild

variable (t : SegmentTree σ) (p c i : Nat)

@[simp] theorem size_deleteChild : (t.deleteChild p c).size = t.size := by
  simp [size, deleteChild]

theorem node?_deleteChild : (t.deleteChild p c).node? i =
      (t.node? i).map fun nd => if i = p then { nd with children := nd.children.erase c } else nd :=
  getElem?_modify_eq ..

@[simp] theorem value?_deleteChild : (t.deleteChild p c).value? i = t.value? i := by
  simp only [value?, node?_deleteChild, Option.map_map]
  congr 1
  funext nd
  by_cases same : i = p <;> simp [same]

@[simp] theorem parent?_deleteChild : (t.deleteChild p c).parent? i = t.parent? i := by
  simp only [parent?, node?_deleteChild]
  cases t.node? i with
  | none => rfl
  | some nd => by_cases same : i = p <;> simp [same]

theorem childrenOf_deleteChild : (t.deleteChild p c).childrenOf i =
      if i = p then (t.childrenOf i).erase c else t.childrenOf i := by
  simp only [childrenOf, node?_deleteChild]
  cases t.node? i with
  | none => simp
  | some nd => by_cases same : i = p <;> simp [same]

end DeleteChild

/-- Trees with the same nodes and parent links have the same walks. -/
theorem WellFormed.path_congr {t t' : SegmentTree σ} (wf : WellFormed t)
    (size_eq : t'.size = t.size) (parents : ∀ i, t'.parent? i = t.parent? i)
    (old : i < t.size) : t'.path i = t.path i := by
  refine (IsPath.mono (fun {j nd} found => ?_) (wf.isPath_path old)).path_eq
  obtain ⟨nd', found'⟩ := lt_size_iff.1 (size_eq ▸ lt_size_of_node? found)
  have link := parents j
  rw [parent?, parent?, found, found'] at link
  exact ⟨nd', found', link⟩

/-- A tree is well formed once its children are those that point to a node. -/
theorem WellFormed.of_iff (children : ∀ p c, c ∈ t.childrenOf p ↔ t.parent? c = some p)
    (distinct : ∀ p, (t.childrenOf p).Nodup) (rooted : ∀ {i}, i < t.size → ∃ ps, IsPath t i ps) :
    WellFormed t where
  linked found link := (children _ _).2 (by simp [parent?, found, link])
  owned mem := (children _ _).1 mem
  distinct := distinct
  rooted := rooted

theorem WellFormed.single (v : σ) : WellFormed (single v) := by
  have childless : ∀ p, (SegmentTree.single v).childrenOf p = [] := by
    intro p
    cases p <;> rfl
  refine .of_iff (fun p c => ?_) (fun p => childless p ▸ nodup_nil) fun {i} old => ?_
  · rw [childless]
    cases c <;> simp [parent?, node?, SegmentTree.single]
  · rw [size_single] at old
    obtain rfl : i = 0 := by omega
    exact ⟨[0], .root rfl rfl⟩

theorem WellFormed.setValue {t : SegmentTree σ} (wf : WellFormed t) (i : Nat) (v : σ) :
    WellFormed (t.setValue i v) := by
  refine .of_iff (fun p c => ?_) (fun p => ?_) fun {j} old => ?_
  · rw [childrenOf_setValue, parent?_setValue, wf.mem_childrenOf_iff]
  · rw [childrenOf_setValue]
    exact wf.distinct p
  · obtain ⟨ps, walk⟩ := wf.rooted (by simpa using old)
    exact ⟨ps, walk.setValue v⟩

theorem WellFormed.path_setValue {t : SegmentTree σ} (wf : WellFormed t) {i j : Nat} (v : σ)
    (old : j < t.size) : (t.setValue i v).path j = t.path j :=
  ((wf.isPath_path old).setValue v).path_eq

section AddChild

variable {t : SegmentTree σ} {p : Nat} {v : σ}

theorem childrenOf_addChild (p : Nat) (v : σ) (j : Nat) : (t.addChild p v).childrenOf j =
      t.childrenOf j ++ if j = p ∧ j < t.size then [t.size] else [] := by
  simp only [childrenOf, node?_addChild]
  by_cases fresh : j = t.size
  · have absent : t.node? t.size = none := getElem?_eq_none (le_refl _)
    simp [fresh, absent]
  · cases found : t.node? j with
    | none => simp [fresh, lt_size_iff, found]
    | some nd =>
      simp only [fresh, lt_size_of_node? found, and_true, if_false]
      by_cases same : j = p <;> simp [same]

theorem parent?_addChild (p : Nat) (v : σ) (j : Nat) :
    (t.addChild p v).parent? j = if j = t.size then some p else t.parent? j := by
  simp only [parent?, node?_addChild]
  by_cases fresh : j = t.size
  · simp [fresh]
  · rw [if_neg fresh, if_neg fresh]
    cases t.node? j with
    | none => rfl
    | some nd => by_cases same : j = p <;> simp [same]

theorem node?_addChild_cases {j : Nat} {nd : Node σ}
    (found : (t.addChild p v).node? j = some nd) : j = t.size ∧ nd = ⟨some p, [], v⟩ ∨
      ∃ old, t.node? j = some old ∧ nd.value = old.value ∧ nd.parent = old.parent ∧
        (j ≠ p → nd.children = old.children) := by
  rw [node?_addChild] at found
  split at found
  · rename_i fresh
    cases found
    exact .inl ⟨fresh, rfl⟩
  · obtain ⟨old, at_old, rfl⟩ := map_eq_some_iff.1 found
    refine .inr ⟨old, at_old, ?_⟩
    split
    · rename_i same
      exact ⟨rfl, rfl, fun ne => absurd same ne⟩
    · exact ⟨rfl, rfl, fun _ => rfl⟩

theorem IsPath.addChild {j : Nat} {ps : List Nat} (h : IsPath t j ps) :
    IsPath (t.addChild p v) j ps := by
  refine h.mono fun found => ⟨_, by
    rw [node?_addChild, if_neg (ne_of_lt (lt_size_of_node? found)), found]; rfl, ?_⟩
  split <;> rfl

theorem WellFormed.addChild (wf : WellFormed t) (old : p < t.size) (v : σ) :
    WellFormed (t.addChild p v) := by
  have new : ∀ {q}, t.size ∉ t.childrenOf q := fun mem => lt_irrefl _ (wf.child_lt mem)
  refine .of_iff (fun q c => ?_) (fun q => ?_) fun {j} lt => ?_
  · rw [childrenOf_addChild, parent?_addChild, mem_append]
    by_cases fresh : c = t.size
    · subst fresh
      by_cases same : q = p <;> simp [new, same, old, @eq_comm _ p q]
    · rw [if_neg fresh, wf.mem_childrenOf_iff]
      by_cases same : q = p <;> simp [same, fresh, old]
  · rw [childrenOf_addChild]
    split
    · rw [← concat_eq_append]
      exact (wf.distinct q).concat new
    · rw [append_nil]
      exact wf.distinct q
  · rw [size_addChild] at lt
    by_cases fresh : j = t.size
    · obtain ⟨ps, walk⟩ := wf.rooted old
      exact ⟨j :: ps, .step ((node?_addChild ..).trans (if_pos fresh)) rfl walk.addChild⟩
    · obtain ⟨ps, walk⟩ := wf.rooted (show j < t.size by omega)
      exact ⟨ps, walk.addChild⟩

end AddChild

section Split

variable {t : SegmentTree σ} {i : Nat} {lower upper : σ}

theorem childrenOf_split (i : Nat) (lower upper : σ) (j : Nat) :
    (t.split i lower upper).childrenOf j = if j = t.size then t.childrenOf i
      else if j = i ∧ j < t.size then [t.size] else t.childrenOf j := by
  rw [childrenOf, node?_split]
  by_cases fresh : j = t.size
  · simp [fresh]
  · rw [if_neg fresh, if_neg fresh]
    cases found : t.node? j with
    | none => simp [childrenOf, lt_size_iff, found]
    | some nd =>
      rw [childrenOf_eq found]
      by_cases same : j = i
      · simp [same, same ▸ lt_size_of_node? found]
      · by_cases child : j ∈ t.childrenOf i <;> simp [same, child]

/-- A node of the tree before the cut: links to `i` become links to the new node. -/
theorem WellFormed.node?_split (wf : WellFormed t) (lower upper : σ) {j : Nat} {nd : Node σ}
    (found : t.node? j = some nd) : (t.split i lower upper).node? j =
      some ⟨nd.parent.map fun p => if p = i then t.size else p,
        if j = i then [t.size] else nd.children, if j = i then lower else nd.value⟩ := by
  have child : j ∈ t.childrenOf i ↔ nd.parent = some i := by
    rw [wf.mem_childrenOf_iff, parent?, found, bind_some]
  rw [SegmentTree.node?_split, if_neg (ne_of_lt (lt_size_of_node? found)), found, map_some,
    some.injEq]
  obtain ⟨parent, children, value⟩ := nd
  cases parent with
  | none => by_cases same : j = i <;> simp [child, same]
  | some p =>
    by_cases same : j = i
    · subst same
      simp [wf.parent_ne_self found rfl]
    · by_cases above : p = i <;> simp [child, same, above]

theorem WellFormed.parent?_split (wf : WellFormed t) (lower upper : σ) (j : Nat) :
    (t.split i lower upper).parent? j = if j = t.size then some i
      else (t.parent? j).map fun p => if p = i then t.size else p := by
  by_cases fresh : j = t.size
  · subst fresh
    rw [if_pos rfl, parent?, node?_split_new, bind_some]
  · rw [if_neg fresh]
    cases found : t.node? j with
    | none => simp [parent?, SegmentTree.node?_split, fresh, found]
    | some nd => simp [parent?, wf.node?_split lower upper found, found]

/-- Walks after a cut: one that entered `i` from above now passes the new node first. -/
theorem IsPath.split (wf : WellFormed t) (lower upper : σ) {j : Nat} {ps : List Nat}
    (h : IsPath t j ps) : ∃ qs, IsPath (t.split i lower upper) j qs := by
  induction h with
  | root found noParent =>
    exact ⟨_, .root (wf.node?_split lower upper found) (by rw [noParent]; rfl)⟩
  | @step j p nd ps found link _ ih =>
    obtain ⟨qs, walk⟩ := ih
    have found' := wf.node?_split (i := i) lower upper found
    by_cases above : p = i
    · subst above
      have entered := IsPath.step (node?_split_new t p lower upper) rfl walk
      exact ⟨_, .step found' (by simp [link]) entered⟩
    · exact ⟨_, .step found' (by simp [link, above]) walk⟩

theorem WellFormed.split (wf : WellFormed t) (at_i : i < t.size) (lower upper : σ) :
    WellFormed (t.split i lower upper) := by
  refine .of_iff (fun q c => ?_) (fun q => ?_) fun {j} lt => ?_
  · rw [childrenOf_split, wf.parent?_split]
    have children : ∀ p, c ∈ t.childrenOf p ↔ t.parent? c = some p :=
      fun _ => wf.mem_childrenOf_iff
    have bound : ∀ p, t.parent? c = some p → c < t.size ∧ p < t.size := by
      intro p link
      obtain ⟨nd, found, up⟩ := bind_eq_some_iff.1 link
      exact ⟨lt_size_of_node? found, wf.parent_lt found up⟩
    cases link : t.parent? c <;> grind
  · rw [childrenOf_split]
    split
    · exact wf.distinct i
    · split
      · exact nodup_singleton _
      · exact wf.distinct q
  · have walks : ∀ {j}, j < t.size → ∃ qs, IsPath (t.split i lower upper) j qs := by
      intro j old
      obtain ⟨ps, walk⟩ := wf.rooted old
      exact walk.split wf lower upper
    rw [size_split] at lt
    by_cases fresh : j = t.size
    · obtain ⟨qs, walk⟩ := walks at_i
      exact ⟨_, .step (fresh ▸ node?_split_new t i lower upper) rfl walk⟩
    · exact walks (by omega)

end Split

/-! ### Chains -/

/-- Entries held by a lineage, oldest first. -/
def chainOf (entries : σ → List ε) : List σ → List ε
  | [] => []
  | v :: below => chainOf entries below ++ entries v

/-- Entries seen from node `i`, oldest first. -/
def chain (entries : σ → List ε) (t : SegmentTree σ) (i : Nat) : List ε :=
  chainOf entries (t.lineage i)

/-- Entries below a node, given the link to its parent. -/
def chainBelow (entries : σ → List ε) (t : SegmentTree σ) : Option Nat → List ε
  | none => []
  | some p => t.chain entries p

section Chain

variable {entries : σ → List ε} {t : SegmentTree σ}

variable {i j : Nat} {nd : Node σ}

theorem WellFormed.chain_eq (wf : WellFormed t) (found : t.node? i = some nd) :
    t.chain entries i = t.chainBelow entries nd.parent ++ entries nd.value := by
  unfold chain
  rw [wf.lineage_eq found]
  cases nd.parent <;> rfl

/-- The entries below a node, read off its lineage. -/
theorem WellFormed.chainBelow_eq (wf : WellFormed t) {v : σ} {below : List σ}
    (found : t.node? i = some nd) (lineage_eq : t.lineage i = v :: below) :
    v = nd.value ∧ t.chainBelow entries nd.parent = chainOf entries below := by
  rw [wf.lineage_eq found, cons.injEq] at lineage_eq
  rw [← lineage_eq.2]
  refine ⟨lineage_eq.1.symm, ?_⟩
  cases nd.parent <;> rfl

theorem lineage_setValue_of_not_mem {ps : List Nat} (v : σ) (walk : IsPath t j ps) (off : i ∉ ps) :
    (t.setValue i v).lineage j = t.lineage j := by
  unfold lineage
  rw [walk.path_eq, (walk.setValue v).path_eq]
  apply filterMap_congr
  intro k mem
  have ne : k ≠ i := fun same => off (same ▸ mem)
  simp [value?, node?_setValue, ne]

theorem WellFormed.parent_ne_of_leaf {p : Nat} (wf : WellFormed t) (leaf : t.childrenOf i = [])
    (found : t.node? j = some nd) (link : nd.parent = some p) : p ≠ i := by
  rintro rfl
  have child := wf.linked found link
  rw [leaf] at child
  cases child

/-- A childless node lies on no walk but its own. -/
theorem IsPath.not_mem_of_leaf {ps : List Nat} (wf : WellFormed t) (leaf : t.childrenOf i = [])
    (walk : IsPath t j ps) (ne : j ≠ i) : i ∉ ps := by
  induction walk with
  | root _ _ => simpa using fun h => ne h.symm
  | @step j p nd ps found link rest ih =>
    intro mem
    rcases mem_cons.1 mem with same | mem
    · exact ne same.symm
    · exact ih (wf.parent_ne_of_leaf leaf found link) mem

section

variable (wf : WellFormed t) (v : σ) (leaf : t.childrenOf i = [])
include wf leaf

theorem WellFormed.lineage_setValue_of_ne (ne : j ≠ i) :
    (t.setValue i v).lineage j = t.lineage j := by
  by_cases old : j < t.size
  · obtain ⟨ps, walk⟩ := wf.rooted old
    exact lineage_setValue_of_not_mem v walk (walk.not_mem_of_leaf wf leaf ne)
  · have absent : t.node? j = none := getElem?_eq_none (Nat.le_of_not_lt old)
    rw [lineage_eq_nil absent, lineage_eq_nil (by rw [node?_setValue, absent]; rfl)]

theorem WellFormed.chain_setValue_of_ne (ne : j ≠ i) :
    (t.setValue i v).chain entries j = t.chain entries j := by
  unfold chain
  rw [wf.lineage_setValue_of_ne v leaf ne]

theorem WellFormed.chainBelow_setValue (found : t.node? j = some nd) :
    (t.setValue i v).chainBelow entries nd.parent = t.chainBelow entries nd.parent := by
  cases link : nd.parent with
  | none => rfl
  | some p => exact wf.chain_setValue_of_ne v leaf (wf.parent_ne_of_leaf leaf found link)

theorem WellFormed.lineage_setValue_self {value : σ} {below : List σ} (found : t.node? i = some nd)
    (lineage_eq : t.lineage i = value :: below) : (t.setValue i v).lineage i = v :: below := by
  rw [wf.lineage_eq found, cons.injEq] at lineage_eq
  rw [(wf.setValue i v).lineage_eq (node?_setValue_self v found), ← lineage_eq.2]
  cases link : nd.parent with
  | none => rfl
  | some p =>
    have apart : p ≠ i := wf.parent_ne_self found link
    simp only [wf.lineage_setValue_of_ne v leaf apart]

theorem WellFormed.chain_setValue_self (found : t.node? i = some nd) :
    (t.setValue i v).chain entries i = t.chainBelow entries nd.parent ++ entries v := by
  rw [(wf.setValue i v).chain_eq (node?_setValue_self v found), wf.chainBelow_setValue v leaf found]

end

theorem WellFormed.lineage_addChild_of_lt (wf : WellFormed t) {p : Nat} (v : σ) (old : j < t.size) :
    (t.addChild p v).lineage j = t.lineage j := by
  obtain ⟨ps, walk⟩ := wf.rooted old
  unfold lineage
  rw [walk.path_eq, (walk.addChild (p := p) (v := v)).path_eq]
  apply filterMap_congr
  intro k mem
  obtain ⟨nd, found⟩ := lt_size_iff.1 (walk.lt_size mem)
  simp only [value?, node?_addChild, ne_of_lt (walk.lt_size mem), found]
  by_cases same : k = p <;> simp [same]

theorem WellFormed.chain_addChild_of_lt (wf : WellFormed t) {p : Nat} (v : σ) (old : j < t.size) :
    (t.addChild p v).chain entries j = t.chain entries j := by
  unfold chain
  rw [wf.lineage_addChild_of_lt v old]

end Chain

section ChainSplit

variable {entries : σ → List ε} {t : SegmentTree σ} {i : Nat} {nd : Node σ} {lower upper : σ}

variable {j : Nat}

theorem node?_split_of_ne (wf : WellFormed t) (found : t.node? j = some nd) (ne : j ≠ i) :
    (t.split i lower upper).node? j =
      some { nd with parent := nd.parent.map fun p => if p = i then t.size else p } := by
  rw [wf.node?_split lower upper found, if_neg ne, if_neg ne]

theorem node?_split_self (found : t.node? i = some nd) :
    (t.split i lower upper).node? i = some { nd with children := [t.size], value := lower } := by
  simp [node?_split, ne_of_lt (lt_size_of_node? found), found]

theorem WellFormed.map_parent_self (wf : WellFormed t) (found : t.node? i = some nd) :
    nd.parent.map (fun p => if p = i then t.size else p) = nd.parent := by
  cases link : nd.parent with
  | none => rfl
  | some p => simp [wf.parent_ne_self found link]

section

variable (wf : WellFormed t) (found : t.node? i = some nd)
  (cut : entries nd.value = entries lower ++ entries upper)
include wf found cut

/-- The chain of every node is kept by a cut, once links to `i` are read as links
to the new node. -/
theorem WellFormed.chain_split (old : j < t.size) :
    (t.split i lower upper).chain entries (if j = i then t.size else j) = t.chain entries j := by
  have wf' := wf.split (lt_size_of_node? found) lower upper
  obtain ⟨ps, walk⟩ := wf.rooted old
  clear old
  -- induction along the walk of `j`: the chain below `j` is kept by the previous step
  have below_kept : ∀ {k : Nat} {kd : Node σ}, t.node? k = some kd →
      (∀ p, kd.parent = some p →
        (t.split i lower upper).chain entries (if p = i then t.size else p) = t.chain entries p) →
      (t.split i lower upper).chain entries (if k = i then t.size else k) = t.chain entries k := by
    intro k kd at_k ih
    have below : (t.split i lower upper).chainBelow entries
        (kd.parent.map fun p => if p = i then t.size else p) = t.chainBelow entries kd.parent := by
      cases link : kd.parent with
      | none => rfl
      | some p => exact ih p link
    by_cases same : k = i
    · subst same
      cases found.symm.trans at_k
      rw [if_pos rfl, wf'.chain_eq (node?_split_new t k lower upper)]
      simp only [chainBelow]
      rw [wf'.chain_eq (node?_split_self found), wf.chain_eq found, cut, append_assoc]
      simp only
      rw [← below, wf.map_parent_self found]
    · rw [if_neg same, wf'.chain_eq (node?_split_of_ne wf at_k same), wf.chain_eq at_k, below]
  induction walk with
  | root at_j noParent =>
    refine below_kept at_j fun p link => ?_
    cases noParent.symm.trans link
  | step at_j link _ ih =>
    refine below_kept at_j fun q link' => ?_
    rw [link] at link'
    cases link'
    exact ih

theorem WellFormed.chain_split_of_ne (old : j < t.size) (ne : j ≠ i) :
    (t.split i lower upper).chain entries j = t.chain entries j := by
  have kept := wf.chain_split found cut old
  rwa [if_neg ne] at kept

theorem WellFormed.chain_split_new :
    (t.split i lower upper).chain entries t.size = t.chain entries i := by
  have kept := wf.chain_split found cut (lt_size_of_node? found)
  rwa [if_pos rfl] at kept

theorem WellFormed.chainBelow_split {jd : Node σ} (at_j : t.node? j = some jd) :
    (t.split i lower upper).chainBelow entries
      (jd.parent.map fun p => if p = i then t.size else p) = t.chainBelow entries jd.parent := by
  cases link : jd.parent with
  | none => rfl
  | some p => exact wf.chain_split found cut (wf.parent_lt at_j link)

theorem WellFormed.chainBelow_split_self :
    (t.split i lower upper).chainBelow entries nd.parent = t.chainBelow entries nd.parent := by
  have kept := wf.chainBelow_split found cut found
  rwa [wf.map_parent_self found] at kept

theorem WellFormed.chain_split_self :
    (t.split i lower upper).chain entries i = t.chainBelow entries nd.parent ++ entries lower := by
  rw [(wf.split (lt_size_of_node? found) lower upper).chain_eq (node?_split_self found)]
  simp only
  rw [wf.chainBelow_split_self found cut]

end

end ChainSplit

theorem node?_split_cases {t : SegmentTree σ} {i j : Nat} {lower upper : σ} {nd jd : Node σ}
    (wf : WellFormed t) (found : t.node? i = some nd)
    (at_j : (t.split i lower upper).node? j = some jd) :
    j = t.size ∧ jd = ⟨some i, t.childrenOf i, upper⟩ ∨
      j = i ∧ jd = { nd with children := [t.size], value := lower } ∨
      ∃ old, t.node? j = some old ∧ j ≠ i ∧
        jd = { old with parent := old.parent.map fun p => if p = i then t.size else p } := by
  by_cases fresh : j = t.size
  · subst fresh
    cases (node?_split_new ..).symm.trans at_j
    exact .inl ⟨rfl, rfl⟩
  · have lt : j < t.size := by
      have := lt_size_of_node? at_j
      rw [size_split] at this
      omega
    by_cases same : j = i
    · subst same
      cases (node?_split_self found).symm.trans at_j
      exact .inr (.inl ⟨rfl, rfl⟩)
    · obtain ⟨old, at_old⟩ := lt_size_iff.1 lt
      cases (node?_split_of_ne wf at_old same).symm.trans at_j
      exact .inr (.inr ⟨old, at_old, same, rfl⟩)

/-! ### All entries, whatever the branches -/

def values (t : SegmentTree σ) : List σ := t.nodes.map (·.value)

/-- The entries of all nodes, node by node. -/
def allEntries (entries : σ → List ε) (t : SegmentTree σ) : List ε := t.values.flatMap entries

section

variable (t : SegmentTree σ)

@[simp] theorem length_values : t.values.length = t.size := length_map ..

theorem getElem?_values (i : Nat) : t.values[i]? = t.value? i := getElem?_map ..

theorem getElem?_values_of_node? {t : SegmentTree σ} {i : Nat} {nd : Node σ}
    (found : t.node? i = some nd) : t.values[i]? = some nd.value := by
  rw [getElem?_values, value?, found]
  rfl

theorem values_setValue (i : Nat) (v : σ) : (t.setValue i v).values = t.values.set i v := by
  apply ext_getElem?
  intro j
  rw [getElem?_values, value?, node?_setValue, getElem?_set, length_values, getElem?_values, value?]
  cases found : t.node? j <;> grind [lt_size_iff]

theorem values_addChild (p : Nat) (v : σ) : (t.addChild p v).values = t.values ++ [v] := by
  apply ext_getElem?
  intro j
  rw [getElem?_values, value?, node?_addChild, Slice.getElem?_concat, length_values, getElem?_values,
    value?]
  cases t.node? j <;> grind

theorem values_split (i : Nat) (lower upper : σ) :
    (t.split i lower upper).values = (t.setValue i lower).values ++ [upper] := by
  apply ext_getElem?
  intro j
  rw [getElem?_values, value?, node?_split, Slice.getElem?_concat, length_values, size_setValue,
    getElem?_values, value?, node?_setValue]
  cases t.node? j <;> grind

theorem value?_setValue_of_ne {i j : Nat} (v : σ) (ne : j ≠ i) :
    (t.setValue i v).value? j = t.value? j := by
  rw [← getElem?_values, values_setValue, getElem?_set_ne (fun h => ne h.symm), getElem?_values]

theorem value?_setValue_self {i : Nat} (v : σ) (old : i < t.size) :
    (t.setValue i v).value? i = some v := by
  rw [← getElem?_values, values_setValue, getElem?_set_self (by rwa [length_values])]

theorem value?_addChild_of_lt {p j : Nat} (v : σ) (old : j < t.size) :
    (t.addChild p v).value? j = t.value? j := by
  rw [← getElem?_values, values_addChild, getElem?_append_left (by rwa [length_values]),
    getElem?_values]

theorem value?_split_of_ne {i j : Nat} (lower upper : σ) (old : j < t.size) (ne : j ≠ i) :
    (t.split i lower upper).value? j = t.value? j := by
  rw [← getElem?_values, values_split, getElem?_append_left (by simpa using old),
    getElem?_values, value?_setValue_of_ne t lower ne]

end

section AllEntries

variable {entries : σ → List ε} {t : SegmentTree σ} {i : Nat} {nd : Node σ}

variable {e : ε} {ps : List Nat}

theorem mem_allEntries :
    e ∈ t.allEntries entries ↔ ∃ i nd, t.node? i = some nd ∧ e ∈ entries nd.value := by
  rw [allEntries, mem_flatMap]
  constructor
  · rintro ⟨v, mem, held⟩
    obtain ⟨i, found⟩ := getElem?_of_mem mem
    rw [getElem?_values, value?, map_eq_some_iff] at found
    obtain ⟨nd, found, rfl⟩ := found
    exact ⟨i, nd, found, held⟩
  · rintro ⟨i, nd, found, held⟩
    exact ⟨nd.value, mem_of_getElem? (getElem?_values_of_node? found), held⟩

theorem mem_chainOf {lineage : List σ} :
    e ∈ chainOf entries lineage ↔ ∃ v ∈ lineage, e ∈ entries v := by
  induction lineage with
  | nil => simp [chainOf]
  | cons v below ih => simp [chainOf, ih, or_comm]

/-- The entries seen from a node are those of the nodes on its walk. -/
theorem mem_chain : e ∈ t.chain entries i ↔
    ∃ j ∈ t.path i, ∃ nd, t.node? j = some nd ∧ e ∈ entries nd.value := by
  rw [chain, mem_chainOf]
  constructor
  · rintro ⟨v, held, has⟩
    obtain ⟨j, on_path, value⟩ := mem_filterMap.1 held
    rw [value?, map_eq_some_iff] at value
    obtain ⟨nd, found, rfl⟩ := value
    exact ⟨j, on_path, nd, found, has⟩
  · rintro ⟨j, on_path, nd, found, has⟩
    refine ⟨nd.value, mem_filterMap.2 ⟨j, on_path, ?_⟩, has⟩
    rw [value?, found]
    rfl

theorem mem_allEntries_of_mem_chain (mem : e ∈ t.chain entries i) : e ∈ t.allEntries entries := by
  obtain ⟨j, -, nd, found, has⟩ := mem_chain.1 mem
  exact mem_allEntries.2 ⟨j, nd, found, has⟩

/-- Something that occurs on a chain occurs in a node below which it does not. -/
theorem IsPath.exists_first {P : ε → Prop} (wf : WellFormed t) (h : IsPath t i ps)
    (occurs : ∃ e ∈ t.chain entries i, P e) :
    ∃ j ∈ ps, ∃ nd, t.node? j = some nd ∧ (∃ e ∈ entries nd.value, P e) ∧
      ∀ e ∈ t.chainBelow entries nd.parent, ¬ P e := by
  induction h with
  | @root i nd found noParent =>
    obtain ⟨e, mem, holds⟩ := occurs
    rw [wf.chain_eq found, noParent] at mem
    refine ⟨i, mem_singleton_self i, nd, found, ⟨e, mem, holds⟩, ?_⟩
    rw [noParent]
    intro e mem
    cases mem
  | @step i p nd ps found hasParent rest ih =>
    by_cases below : ∃ e ∈ t.chain entries p, P e
    · obtain ⟨j, on_path, first⟩ := ih below
      exact ⟨j, mem_cons_of_mem _ on_path, first⟩
    · obtain ⟨e, mem, holds⟩ := occurs
      rw [wf.chain_eq found, hasParent] at mem
      have none_below : ∀ e ∈ t.chainBelow entries (some p), ¬ P e :=
        fun e mem holds => below ⟨e, mem, holds⟩
      refine ⟨i, mem_cons_self, nd, found, ⟨e, ?_, holds⟩, hasParent ▸ none_below⟩
      exact (mem_append.1 mem).resolve_left fun low => none_below e low holds

/-- A walk ends at a node without parent, and the lineage with its value. -/
theorem IsPath.exists_last (h : IsPath t i ps) :
    ∃ j nd, ps.getLast? = some j ∧ t.node? j = some nd ∧ nd.parent = none ∧
      (ps.filterMap t.value?).getLast? = some nd.value := by
  induction h with
  | @root i nd found noParent => exact ⟨i, nd, rfl, found, noParent, by simp [value?, found]⟩
  | @step i p nd ps found hasParent rest ih =>
    obtain ⟨j, jd, last, at_j, noParent, value⟩ := ih
    refine ⟨j, jd, by simp [getLast?_cons, last], at_j, noParent, ?_⟩
    simp [value?, found, getLast?_cons, value]

theorem allEntries_setValue_perm (entries : σ → List ε) (v : σ) (found : t.node? i = some nd) :
    ((t.setValue i v).allEntries entries ++ entries nd.value).Perm
      (t.allEntries entries ++ entries v) := by
  obtain ⟨inside, same⟩ := List.getElem?_eq_some_iff.1 (getElem?_values_of_node? found)
  have before : t.values.Perm (nd.value :: t.values.eraseIdx i) := by
    have := set_perm_cons_eraseIdx inside (t.values[i])
    rwa [set_getElem_self, same] at this
  have after : (t.values.set i v).Perm (v :: t.values.eraseIdx i) := set_perm_cons_eraseIdx inside v
  have before' := before.flatMap_right entries
  have after' := after.flatMap_right entries
  rw [flatMap_cons] at before' after'
  rw [allEntries, allEntries, values_setValue]
  refine (after'.append_right _).trans (.trans ?_ (before'.append_right _).symm)
  rw [append_assoc (entries nd.value)]
  exact perm_append_comm.trans (perm_append_comm.append_left _)

theorem allEntries_addChild (p : Nat) (v : σ) :
    (t.addChild p v).allEntries entries = t.allEntries entries ++ entries v := by
  rw [allEntries, values_addChild, flatMap_append, flatMap_singleton]
  rfl

/-- Cutting a node keeps all entries. -/
theorem allEntries_split_perm {lower upper : σ} (found : t.node? i = some nd)
    (cut : entries nd.value = entries lower ++ entries upper) :
    (t.split i lower upper).allEntries entries |>.Perm (t.allEntries entries) := by
  have changed := allEntries_setValue_perm entries lower found
  rw [cut] at changed
  rw [allEntries, values_split, flatMap_append, flatMap_singleton]
  refine (perm_append_right_iff (entries lower)).1 (.trans ?_ changed)
  rw [append_assoc]
  exact perm_append_comm.append_left _

end AllEntries

/-! ### Values consistent with the entries below them -/

/-- Every node's value satisfies `P` relative to the entries below the node. -/
def Consistent (entries : σ → List ε) (P : List ε → σ → Prop) (t : SegmentTree σ) : Prop :=
  ∀ ⦃i : Nat⦄ ⦃nd : Node σ⦄, t.node? i = some nd → P (t.chainBelow entries nd.parent) nd.value

/-- The same along one lineage. -/
def LineageOk (entries : σ → List ε) (P : List ε → σ → Prop) : List σ → Prop
  | [] => True
  | v :: below => P (chainOf entries below) v ∧ LineageOk entries P below

section Consistent

variable {entries : σ → List ε} {P : List ε → σ → Prop} {t : SegmentTree σ}

theorem Consistent.lineageOk (ok : Consistent entries P t) (wf : WellFormed t) (i : Nat) :
    LineageOk entries P (t.lineage i) := by
  by_cases old : i < t.size
  · obtain ⟨ps, walk⟩ := wf.rooted old
    clear old
    induction walk with
    | root found noParent =>
      rw [wf.lineage_eq found, noParent]
      refine ⟨?_, trivial⟩
      have own := ok found
      rwa [noParent] at own
    | step found link _ ih =>
      rw [wf.lineage_eq found, link]
      refine ⟨?_, ih⟩
      have own := ok found
      rwa [link] at own
  · rw [lineage_eq_nil (getElem?_eq_none (Nat.le_of_not_lt old))]
    trivial

theorem LineageOk.mono {Q : List ε → σ → Prop} (weaker : ∀ below v, P below v → Q below v) :
    ∀ {lineage : List σ}, LineageOk entries P lineage → LineageOk entries Q lineage
  | [], _ => trivial
  | _ :: _, ok => ⟨weaker _ _ ok.1, LineageOk.mono weaker ok.2⟩

theorem chainOf_map {τ : Type u} (entries : σ → List ε) (f : τ → σ) (vs : List τ) :
    chainOf entries (vs.map f) = chainOf (fun v => entries (f v)) vs := by
  induction vs with
  | nil => rfl
  | cons v below ih => rw [map_cons, chainOf, chainOf, ih]

theorem chainOf_append (above below : List σ) :
    chainOf entries (above ++ below) = chainOf entries below ++ chainOf entries above := by
  induction above with
  | nil => rw [nil_append, chainOf, append_nil]
  | cons v above ih => rw [cons_append, chainOf, ih, append_assoc, chainOf]

theorem LineageOk.of_append {below : List σ} :
    ∀ {above : List σ}, LineageOk entries P (above ++ below) → LineageOk entries P below
  | [], ok => ok
  | _ :: _, ok => LineageOk.of_append ok.2

/-- Facts about a part of each value. -/
theorem LineageOk.map {τ : Type u} {f : τ → σ} :
    ∀ {vs : List τ}, LineageOk (fun v => entries (f v)) (fun below v => P below (f v)) vs →
      LineageOk entries P (vs.map f)
  | [], _ => trivial
  | v :: below, ok => by
    refine ⟨?_, LineageOk.map ok.2⟩
    rw [chainOf_map]
    exact ok.1

theorem Consistent.single {v : σ} (base : P [] v) : Consistent entries P (SegmentTree.single v) := by
  intro i nd found
  obtain ⟨-, rfl⟩ := node?_single.1 found
  exact base

section

variable (ok : Consistent entries P t) (wf : WellFormed t)
include ok wf

theorem Consistent.setValue {i : Nat} {nd : Node σ} {v : σ} (leaf : t.childrenOf i = [])
    (found : t.node? i = some nd) (own : P (t.chainBelow entries nd.parent) v) :
    Consistent entries P (t.setValue i v) := by
  intro j jd at_j
  rw [node?_setValue, map_eq_some_iff] at at_j
  obtain ⟨kd, at_j, rfl⟩ := at_j
  by_cases same : j = i
  · subst same
    cases found.symm.trans at_j
    rw [if_pos rfl, wf.chainBelow_setValue v leaf found]
    exact own
  · rw [if_neg same, wf.chainBelow_setValue v leaf at_j]
    exact ok at_j

theorem Consistent.addChild {p : Nat} {v : σ} (old : p < t.size) (own : P (t.chain entries p) v) :
    Consistent entries P (t.addChild p v) := by
  intro j jd at_j
  obtain ⟨rfl, rfl⟩ | ⟨kd, at_j, value, parent, -⟩ := node?_addChild_cases at_j
  · simp only [chainBelow]
    rwa [wf.chain_addChild_of_lt v old]
  · have below : (t.addChild p v).chainBelow entries kd.parent =
        t.chainBelow entries kd.parent := by
      cases link : kd.parent with
      | none => rfl
      | some q => exact wf.chain_addChild_of_lt v (wf.parent_lt at_j link)
    rw [value, parent, below]
    exact ok at_j

theorem Consistent.split {i : Nat} {nd : Node σ} {lower upper : σ} (found : t.node? i = some nd)
    (cut : entries nd.value = entries lower ++ entries upper)
    (lowerOk : P (t.chainBelow entries nd.parent) lower)
    (upperOk : P (t.chainBelow entries nd.parent ++ entries lower) upper) :
    Consistent entries P (t.split i lower upper) := by
  intro j jd at_j
  obtain ⟨rfl, rfl⟩ | ⟨rfl, rfl⟩ | ⟨kd, at_k, -, rfl⟩ := node?_split_cases wf found at_j
  · simp only [chainBelow]
    rwa [wf.chain_split_self found cut]
  · simp only
    rwa [wf.chainBelow_split_self found cut]
  · simp only
    rw [wf.chainBelow_split found cut at_k]
    exact ok at_k

end

end Consistent

end SegmentTree
