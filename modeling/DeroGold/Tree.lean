import DeroGold.Growth

/-!
The shape of the segment tree and of the list of leaves, over whole runs.

`Shape` holds after every run. `Linear` adds that the segments on a way to the root
hold one chain without gaps and that no leaf is missing; it is kept by every call
that does not split a database with children (`KeepsRoot`). `Linear.consistent_step`
is the rule by which later modules carry their own facts about segments along a run.
-/

namespace DeroGold

open SegmentTree List Option

namespace Cache

def isDatabase : Cache → Bool
  | .memory _ => false
  | .database _ => true

@[simp] theorem isDatabase_pushBlock (parents : Lineage) (cache : Cache)
    (pushed : PushedBlockInfo) :
    (cache.pushBlock parents pushed).isDatabase = cache.isDatabase := by
  cases cache <;> rfl

/-- The lower half is of the kind of the whole, the upper half is in memory. -/
theorem isDatabase_split {cache lower upper : Cache} {cut : Nat}
    (halves : cache.split cut = some (lower, upper)) :
    lower.isDatabase = cache.isDatabase ∧ upper.isDatabase = false := by
  cases cache with
  | memory cache =>
    cases halves
    exact ⟨rfl, rfl⟩
  | database cache =>
    simp only [split, map_eq_some_iff] at halves
    obtain ⟨parts, -, same⟩ := halves
    cases same
    exact ⟨rfl, rfl⟩

end Cache

/-! ### Shape of the tree alone -/

/-- A well-formed tree of sound segments whose root is the database. -/
structure TreeShape (tree : SegmentTree Cache) : Prop where
  wellFormed : tree.WellFormed
  nonempty : 0 < tree.size
  sound : ∀ {i nd}, tree.node? i = some nd → nd.value.Sound
  database : ∀ {i nd}, tree.node? i = some nd → (nd.value.isDatabase = true ↔ i = 0)
  root : ∀ {i nd}, tree.node? i = some nd → (nd.parent = none ↔ i = 0)

namespace TreeShape

variable {tree : SegmentTree Cache}

theorem of_nodes (wellFormed : WellFormed tree) (nonempty : 0 < tree.size)
    (nodes : ∀ {i nd}, tree.node? i = some nd → nd.value.Sound ∧
      (nd.value.isDatabase = true ↔ i = 0) ∧ (nd.parent = none ↔ i = 0)) : TreeShape tree :=
  ⟨wellFormed, nonempty, fun found => (nodes found).1, fun found => (nodes found).2.1,
    fun found => (nodes found).2.2⟩

variable {cache : Cache} {i : Nat} {nd : Node Cache}

theorem single (sound : cache.Sound) (db : cache.isDatabase = true) :
    TreeShape (SegmentTree.single cache) := by
  refine of_nodes (.single _) Nat.one_pos fun {i nd} found => ?_
  obtain ⟨zero, rfl⟩ := node?_single.1 found
  exact ⟨sound, ⟨fun _ => zero, fun _ => db⟩, ⟨fun _ => zero, fun _ => rfl⟩⟩

theorem setValue (shape : TreeShape tree) (found : tree.node? i = some nd) (sound : cache.Sound)
    (kind : cache.isDatabase = nd.value.isDatabase) : TreeShape (tree.setValue i cache) := by
  refine of_nodes (shape.wellFormed.setValue i cache) (by simpa using shape.nonempty)
    fun {j jd} at_j => ?_
  rw [node?_setValue, map_eq_some_iff] at at_j
  obtain ⟨kd, at_j, rfl⟩ := at_j
  split
  · rename_i same
    subst same
    dsimp only
    rw [kind]
    exact ⟨sound, shape.database found, shape.root at_j⟩
  · exact ⟨shape.sound at_j, shape.database at_j, shape.root at_j⟩

theorem addChild (shape : TreeShape tree) {p : Nat} (old : p < tree.size) (sound : cache.Sound)
    (kind : cache.isDatabase = false) : TreeShape (tree.addChild p cache) := by
  refine of_nodes (shape.wellFormed.addChild old cache) (by simp) fun {j jd} at_j => ?_
  rcases node?_addChild_cases at_j with ⟨rfl, rfl⟩ | ⟨kd, at_j, value, parent, -⟩
  · have inner := Nat.ne_of_gt shape.nonempty
    exact ⟨sound, by simp [kind, inner], by simp [inner]⟩
  · rw [value, parent]
    exact ⟨shape.sound at_j, shape.database at_j, shape.root at_j⟩

theorem split (shape : TreeShape tree) {lower upper : Cache}
    (found : tree.node? i = some nd) (lower_sound : lower.Sound) (upper_sound : upper.Sound)
    (lower_kind : lower.isDatabase = nd.value.isDatabase) (upper_kind : upper.isDatabase = false) :
    TreeShape (tree.split i lower upper) := by
  refine of_nodes (shape.wellFormed.split (lt_size_of_node? found) lower upper) (by simp)
    fun {j jd} at_j => ?_
  rcases node?_split_cases shape.wellFormed found at_j with
    ⟨rfl, rfl⟩ | ⟨rfl, rfl⟩ | ⟨kd, at_kd, ne, rfl⟩
  · have inner := Nat.ne_of_gt shape.nonempty
    exact ⟨upper_sound, by simp [upper_kind, inner], by simp [inner]⟩
  · dsimp only
    rw [lower_kind]
    exact ⟨lower_sound, shape.database found, shape.root found⟩
  · dsimp only
    rw [map_eq_none_iff]
    exact ⟨shape.sound at_kd, shape.database at_kd, shape.root at_kd⟩

end TreeShape

/-! ### The list of leaves -/

/-- Listed leaves are childless segments, listed once. -/
structure LeavesOk (tree : SegmentTree Cache) (leaves : List Nat) : Prop where
  nonempty : leaves ≠ []
  nodup : leaves.Nodup
  old : ∀ leaf ∈ leaves, leaf < tree.size
  childless : ∀ leaf ∈ leaves, tree.childrenOf leaf = []

namespace LeavesOk

variable {tree : SegmentTree Cache} {leaves leaves' : List Nat}

section

variable (ok : LeavesOk tree leaves)
include ok

theorem headD_mem : leaves.headD 0 ∈ leaves := by
  obtain ⟨head, rest, rfl⟩ := exists_cons_of_ne_nil ok.nonempty
  exact mem_cons_self

theorem perm (same : leaves'.Perm leaves) : LeavesOk tree leaves' where
  nonempty := by
    rintro rfl
    exact ok.nonempty (nil_perm.1 same)
  nodup := same.nodup_iff.2 ok.nodup
  old := fun leaf mem => ok.old leaf (same.mem_iff.1 mem)
  childless := fun leaf mem => ok.childless leaf (same.mem_iff.1 mem)

theorem setValue (i : Nat) (cache : Cache) : LeavesOk (tree.setValue i cache) leaves where
  nonempty := ok.nonempty
  nodup := ok.nodup
  old := by
    intro leaf mem
    rw [size_setValue]
    exact ok.old leaf mem
  childless := by
    intro leaf mem
    rw [childrenOf_setValue]
    exact ok.childless leaf mem

/-- A new segment below one that is no leaf is a further leaf. -/
theorem addChild {p : Nat} (cache : Cache) (inner : p ∉ leaves) :
    LeavesOk (tree.addChild p cache) (leaves ++ [tree.size]) where
  nonempty := by simp
  nodup := by
    refine nodup_append.2 ⟨ok.nodup, nodup_singleton _, ?_⟩
    intro leaf mem new isNew
    rw [mem_singleton] at isNew
    rw [isNew]
    exact ne_of_lt (ok.old leaf mem)
  old := by
    rw [size_addChild]
    exact forall_mem_append.2 ⟨fun leaf mem => Nat.lt_succ_of_lt (ok.old leaf mem),
      forall_mem_singleton.2 (Nat.lt_succ_self _)⟩
  childless := by
    intro leaf mem
    rcases mem_append.1 mem with mem | mem
    · have ne : leaf ≠ p := fun same => inner (same ▸ mem)
      rw [childrenOf_addChild, if_neg fun both => ne both.1, append_nil]
      exact ok.childless leaf mem
    · rw [mem_singleton] at mem
      simp [mem, childrenOf_addChild, childrenOf_of_size_le]

/-- A new segment that takes nothing but a segment that is no leaf as its parent
leaves the listed leaves as they are. -/
theorem addChild_unlisted {p : Nat} (cache : Cache) (inner : p ∉ leaves) :
    LeavesOk (tree.addChild p cache) leaves := by
  have listed := ok.addChild cache inner
  exact ⟨ok.nonempty, ok.nodup, (forall_mem_append.1 listed.old).1,
    (forall_mem_append.1 listed.childless).1⟩

end

end LeavesOk

namespace Core

variable {leaves : List Nat} {leaf old : Nat}

theorem swapWithMain_perm (mem : leaf ∈ leaves) : (swapWithMain leaves leaf).Perm leaves := by
  have pos : 0 < leaves.length := length_pos_of_mem mem
  have inside : leaves.idxOf leaf < leaves.length := idxOf_lt_length_of_mem mem
  have swapped : ((leaves.set _ leaves[0]).set 0 leaves[leaves.idxOf leaf]).Perm leaves :=
    set_set_perm inside pos
  have head : leaves.headD 0 = leaves[0] := by
    cases leaves with
    | nil => cases mem
    | cons head rest => rfl
  rw [getElem_idxOf inside] at swapped
  rw [swapWithMain, head]
  exact swapped

theorem headD_swapWithMain (mem : leaf ∈ leaves) : (swapWithMain leaves leaf).headD 0 = leaf := by
  cases leaves with
  | nil => cases mem
  | cons head rest =>
    unfold swapWithMain
    cases (head :: rest).idxOf leaf <;> rfl

theorem replaceLeaf_of_not_mem (new : Nat) (absent : old ∉ leaves) :
    replaceLeaf leaves old new = leaves := by
  rw [replaceLeaf, idxOf_eq_length absent]
  exact set_eq_of_length_le (le_refl _)

theorem replaceLeaf_perm (new : Nat) (mem : old ∈ leaves) :
    (replaceLeaf leaves old new).Perm (new :: leaves.erase old) := by
  rw [replaceLeaf, erase_eq_eraseIdx_of_idxOf rfl]
  exact set_perm_cons_eraseIdx (idxOf_lt_length_of_mem mem) new

theorem mem_replaceLeaf {new : Nat} (nodup : leaves.Nodup) (mem : old ∈ leaves) :
    leaf ∈ replaceLeaf leaves old new ↔ leaf = new ∨ leaf ≠ old ∧ leaf ∈ leaves := by
  rw [(replaceLeaf_perm new mem).mem_iff, mem_cons, nodup.mem_erase_iff]

end Core

namespace LeavesOk

variable {tree : SegmentTree Cache} {leaves : List Nat}

/-- Cutting a listed leaf: the upper half takes its place in the list. -/
theorem split_leaf (ok : LeavesOk tree leaves) {i : Nat} (lower upper : Cache) (mem : i ∈ leaves) :
    LeavesOk (tree.split i lower upper) (Core.replaceLeaf leaves i tree.size) where
  nonempty := by
    intro empty
    have listed : tree.size ∈ Core.replaceLeaf leaves i tree.size :=
      (Core.mem_replaceLeaf ok.nodup mem).2 (.inl rfl)
    rw [empty] at listed
    cases listed
  nodup := by
    rw [(Core.replaceLeaf_perm tree.size mem).nodup_iff, nodup_cons]
    refine ⟨fun isOld => ?_, ok.nodup.erase i⟩
    exact lt_irrefl _ (ok.old _ (mem_of_mem_erase isOld))
  old := by
    intro leaf listed
    rw [size_split]
    rcases (Core.mem_replaceLeaf ok.nodup mem).1 listed with rfl | ⟨-, listed⟩
    · exact Nat.lt_succ_self _
    · exact Nat.lt_succ_of_lt (ok.old leaf listed)
  childless := by
    intro leaf listed
    rcases (Core.mem_replaceLeaf ok.nodup mem).1 listed with rfl | ⟨ne, listed⟩
    · rw [childrenOf_split, if_pos rfl]
      exact ok.childless i mem
    · rw [childrenOf_split, if_neg (ne_of_lt (ok.old leaf listed)), if_neg fun both => ne both.1]
      exact ok.childless leaf listed

/-- Cutting a segment with children: the list stays. -/
theorem split_inner (ok : LeavesOk tree leaves) {i : Nat} (lower upper : Cache)
    (inner : i ∉ leaves) : LeavesOk (tree.split i lower upper) leaves where
  nonempty := ok.nonempty
  nodup := ok.nodup
  old := by
    intro leaf listed
    rw [size_split]
    exact Nat.lt_succ_of_lt (ok.old leaf listed)
  childless := by
    intro leaf listed
    have ne : leaf ≠ i := fun same => inner (same ▸ listed)
    rw [childrenOf_split, if_neg (ne_of_lt (ok.old leaf listed)), if_neg fun both => ne both.1]
    exact ok.childless leaf listed

end LeavesOk

/-! ### Shape of a core -/

namespace Core

/-- What holds of the chain state of a core after every run. -/
structure Shape (core : Core) : Prop where
  tree : TreeShape core.chainsStorage
  leaves : LeavesOk core.chainsStorage core.chainsLeaves
  main : core.mainChainSet = core.chainsStorage.path core.mainLeaf

/-- The place of a checked block: the node of its segment, the segments below, and
the entry of its predecessor. -/
structure Placed (core : Core) (raw : RawBlock) (segment previousBlockIndex : Nat)
    (nd : Node Cache) (parents : Lineage) (parent : Entry) : Prop where
  node : core.chainsStorage.node? segment = some nd
  lineage : core.lineage segment = nd.value :: parents
  start_le : nd.value.getStartBlockIndex ≤ previousBlockIndex
  le_top : previousBlockIndex ≤ nd.value.getTopBlockIndex
  parent_at : nd.value.entries[previousBlockIndex - nd.value.getStartBlockIndex]? = some parent
  previous : raw.block.previousBlockHash = parent.2.blockHash
  index : raw.block.getBlockIndex = previousBlockIndex + 1
  reached : ∃ leaf ∈ core.chainsLeaves, segment ∈ core.chainsStorage.path leaf

variable {env : Env} {order : HashOrder} {now : Nat} {core core' cut : Core} {raw : RawBlock}
  {seg previous : Nat} {pushed : PushedBlockInfo} {nd : Node Cache}
  {parents : Lineage} {parent : Entry} {result : AddBlockResult}

theorem rawBlock_of_checkOnBranch {lineage : Lineage} {median : Nat}
    (checked : checkOnBranch env now lineage median previous raw = .ok pushed) :
    pushed.rawBlock = raw ∧ raw.block.getBlockIndex = previous + 1 := by
  obtain ⟨difficulty, fee, state, reward, checks, rfl⟩ := checkOnBranch_ok checked
  exact ⟨rfl, validateBlock_index checks.block⟩

/-- The place of a block of the next height above the block the search finds. -/
theorem Shape.placed_of_found (shape : core.Shape)
    (found : core.findSegmentContainingBlock raw.block.previousBlockHash = some seg)
    (index : raw.block.getBlockIndex = core.indexIn seg raw.block.previousBlockHash + 1) :
    ∃ nd parents parent, Placed core raw seg (core.indexIn seg raw.block.previousBlockHash)
      nd parents parent := by
  obtain ⟨reached, cache, value, holds⟩ := findSegmentContainingBlock_some found
  rw [indexIn_eq value] at index ⊢
  rw [value?, map_eq_some_iff] at value
  obtain ⟨nd, node, rfl⟩ := value
  obtain ⟨parent, parent_at, parent_hash, start_le, le_top⟩ :=
    (shape.tree.sound node).exists_entry holds
  exact ⟨nd, _, parent, node, shape.tree.wellFormed.lineage_eq node, start_le, le_top, parent_at,
    parent_hash.symm, index, reached⟩

theorem Shape.placed (shape : core.Shape)
    (passed : core.checkBlock env now raw = .ok (seg, previous, pushed)) :
    ∃ nd parents parent, Placed core raw seg previous nd parents parent ∧
      pushed.rawBlock = raw := by
  obtain ⟨-, found, cache, value, rfl, checked⟩ := checkBlock_ok passed
  obtain ⟨same, index⟩ := rawBlock_of_checkOnBranch checked
  rw [← indexIn_eq value] at index ⊢
  obtain ⟨nd, parents, parent, placed⟩ := shape.placed_of_found found index
  exact ⟨nd, parents, parent, placed, same⟩

namespace Placed

section

variable (placed : Placed core raw seg previous nd parents parent)
include placed

theorem getTopBlockIndex_eq : (core.lineage seg).getTopBlockIndex = nd.value.getTopBlockIndex := by
  rw [placed.lineage]
  rfl

/-- A childless segment on the way to a leaf is that leaf. -/
theorem mem_leaves (shape : core.Shape) (childless : core.chainsStorage.childrenOf seg = []) :
    seg ∈ core.chainsLeaves := by
  obtain ⟨leaf, mem, on_path⟩ := placed.reached
  by_contra absent
  have ne : leaf ≠ seg := fun same => absent (same ▸ mem)
  have walk := shape.tree.wellFormed.isPath_path (shape.leaves.old leaf mem)
  exact walk.not_mem_of_leaf shape.tree.wellFormed childless ne on_path

theorem mem_leaves_pushBlock (shape : core.Shape)
    (childless : core.chainsStorage.childrenOf seg = []) (pushed : PushedBlockInfo) :
    seg ∈ (core.pushBlock seg pushed).chainsLeaves := by
  rw [chainsLeaves_pushBlock]
  exact placed.mem_leaves shape childless

theorem index_pushed (same : pushed.rawBlock = raw) :
    pushed.rawBlock.block.getBlockIndex = previous + 1 := by
  rw [same]
  exact placed.index

end

theorem not_mem_leaves (shape : core.Shape)
    (inner : core.chainsStorage.childrenOf seg ≠ []) : seg ∉ core.chainsLeaves :=
  fun mem => inner (shape.leaves.childless seg mem)

section

variable (placed : Placed core raw seg previous nd parents parent) (shape : core.Shape)
  (top : (core.lineage seg).getTopBlockIndex = previous)
include placed shape top

/-- The entry of the predecessor is the last one of a segment that ends there. -/
theorem getLast?_entries : nd.value.entries.getLast? = some parent := by
  rw [placed.getTopBlockIndex_eq] at top
  have top_eq := (shape.tree.sound placed.node).getTopBlockIndex_eq
  rw [getLast?_eq_getElem?, ← placed.parent_at]
  congr 1
  omega

theorem sound_pushBlock (same : pushed.rawBlock = raw) :
    (nd.value.pushBlock parents pushed).Sound := by
  subst same
  refine (shape.tree.sound placed.node).pushBlock (placed.getLast?_entries shape top)
    placed.previous ?_
  rw [placed.index, ← top, placed.getTopBlockIndex_eq]

end

end Placed

/-! ### Splitting a segment -/

/-- A database with children is split without handing them over. -/
def SharedRoot (core : Core) (segment : Nat) (nd : Node Cache) : Prop :=
  nd.value.isDatabase = true ∧ core.chainsStorage.childrenOf segment ≠ []

theorem splitSegment_some {splitBlockIndex : Nat} (found : core.chainsStorage.node? seg = some nd)
    (parts : core.splitSegment seg splitBlockIndex = some cut) :
    ∃ lower upper, nd.value.split splitBlockIndex = some (lower, upper) ∧
      (¬ core.SharedRoot seg nd ∧
          cut = { core with
            chainsStorage := core.chainsStorage.split seg lower upper
            chainsLeaves := if core.chainsStorage.childrenOf seg = [] then
              replaceLeaf core.chainsLeaves seg core.chainsStorage.size
              else core.chainsLeaves } ∨
        core.SharedRoot seg nd ∧
          cut = { core with
            chainsStorage := (core.chainsStorage.setValue seg lower).addChild seg upper
            chainsLeaves := replaceLeaf core.chainsLeaves seg core.chainsStorage.size }) := by
  unfold splitSegment at parts
  rw [value?, found] at parts
  simp only [map_some] at parts
  split at parts
  · cases parts
  · rename_i lower upper halves
    refine ⟨lower, upper, halves, ?_⟩
    cases kind : nd.value with
    | memory cache =>
      simp only [kind, some.injEq] at parts
      refine .inl ⟨fun shared => ?_, parts.symm⟩
      rw [SharedRoot, kind] at shared
      exact Bool.false_ne_true shared.1
    | database cache =>
      simp only [kind, if_true, some.injEq] at parts
      by_cases childless : core.chainsStorage.childrenOf seg = []
      · refine .inl ⟨fun shared => shared.2 childless, ?_⟩
        rw [if_pos childless, split_eq_addChild lower upper childless]
        exact parts.symm
      · refine .inr ⟨⟨?_, childless⟩, parts.symm⟩
        rw [kind]
        rfl

/-! ### Every call keeps the shape -/

namespace Shape

variable (shape : core.Shape)
include shape

theorem of_onlyPool (h : OnlyPool core core') : core'.Shape := by
  obtain ⟨pool, rfl⟩ := h
  exact ⟨shape.tree, shape.leaves, shape.main⟩

theorem mainLeaf_mem : core.mainLeaf ∈ core.chainsLeaves :=
  shape.leaves.headD_mem

theorem mainLeaf_lt : core.mainLeaf < core.chainsStorage.size :=
  shape.leaves.old _ shape.mainLeaf_mem

theorem walk : IsPath core.chainsStorage core.mainLeaf (core.chainsStorage.path core.mainLeaf) :=
  shape.tree.wellFormed.isPath_path shape.mainLeaf_lt

/-- A leaf is nobody's parent. -/
theorem parent_ne_leaf (leaf : seg ∈ core.chainsLeaves) {c : Nat} :
    core.chainsStorage.parent? c ≠ some seg := by
  intro link
  have child := shape.tree.wellFormed.mem_childrenOf_iff.2 link
  rw [shape.leaves.childless seg leaf] at child
  cases child

/-- The root is below every segment. -/
theorem root_mem_path (old : seg < core.chainsStorage.size) :
    0 ∈ core.chainsStorage.path seg := by
  obtain ⟨root, nd, last, found, noParent, -⟩ := (shape.tree.wellFormed.isPath_path old).exists_last
  obtain rfl := (shape.tree.root found).1 noParent
  exact mem_of_getLast? last

theorem pushBlock (placed : Placed core raw seg previous nd parents parent)
    (top : (core.lineage seg).getTopBlockIndex = previous)
    (same : pushed.rawBlock = raw) : (core.pushBlock seg pushed).Shape := by
  have storage : (core.pushBlock seg pushed).chainsStorage =
      core.chainsStorage.setValue seg (nd.value.pushBlock parents pushed) :=
    chainsStorage_pushBlock placed.lineage
  refine ⟨?_, ?_, ?_⟩
  · rw [storage]
    exact shape.tree.setValue placed.node (placed.sound_pushBlock shape top same)
      (Cache.isDatabase_pushBlock ..)
  · rw [storage, chainsLeaves_pushBlock]
    exact shape.leaves.setValue seg _
  · rw [storage, mainChainSet_pushBlock, mainLeaf_pushBlock, shape.main,
      shape.tree.wellFormed.path_setValue _ shape.mainLeaf_lt]

end Shape

/-- A new segment below one that is no leaf. -/
theorem shape_pushOnNewSegment (tree : TreeShape core.chainsStorage)
    (leaves : LeavesOk core.chainsStorage core.chainsLeaves) (old : seg < core.chainsStorage.size)
    (inner : seg ∉ core.chainsLeaves) (index : pushed.rawBlock.block.getBlockIndex = previous + 1) :
    ((core.pushOnNewSegment seg pushed previous).updateMainChainSet).Shape := by
  refine ⟨?_, leaves.addChild _ inner, rfl⟩
  exact tree.addChild old (Cache.sound_create_pushBlock index) (Cache.isDatabase_pushBlock ..)

theorem Shape.splitSegment (shape : core.Shape)
    (placed : Placed core raw seg previous nd parents parent)
    (below : (core.lineage seg).getTopBlockIndex ≠ previous)
    (parts : core.splitSegment seg (previous + 1) = some cut) :
    TreeShape cut.chainsStorage ∧ LeavesOk cut.chainsStorage cut.chainsLeaves ∧
      seg < cut.chainsStorage.size ∧ seg ∉ cut.chainsLeaves := by
  obtain ⟨lower, upper, halves, cases⟩ := splitSegment_some placed.node parts
  have start_le := placed.start_le
  have le_top := placed.le_top
  rw [placed.getTopBlockIndex_eq] at below
  obtain ⟨lower_sound, upper_sound⟩ :=
    (shape.tree.sound placed.node).split (by omega) (by omega) halves
  obtain ⟨lower_kind, upper_kind⟩ := Cache.isDatabase_split halves
  have old := lt_size_of_node? placed.node
  rcases cases with ⟨-, rfl⟩ | ⟨shared, rfl⟩
  · refine ⟨shape.tree.split placed.node lower_sound upper_sound lower_kind upper_kind, ?_⟩
    rw [size_split]
    by_cases childless : core.chainsStorage.childrenOf seg = []
    · have mem := placed.mem_leaves shape childless
      rw [if_pos childless, mem_replaceLeaf shape.leaves.nodup mem]
      refine ⟨shape.leaves.split_leaf lower upper mem, by omega, ?_⟩
      rintro (same | ⟨ne, -⟩)
      · omega
      · exact ne rfl
    · have inner := Placed.not_mem_leaves shape childless
      rw [if_neg childless]
      exact ⟨shape.leaves.split_inner lower upper inner, by omega, inner⟩
  · -- the list of leaves does not name the database, so the write is lost
    have inner := Placed.not_mem_leaves shape shared.2
    rw [replaceLeaf_of_not_mem _ inner]
    have lowered := shape.tree.setValue placed.node lower_sound lower_kind
    refine ⟨lowered.addChild (by rwa [size_setValue]) upper_sound upper_kind, ?_,
      by simp only [size_addChild, size_setValue]; omega, inner⟩
    exact (shape.leaves.setValue seg lower).addChild_unlisted upper inner

theorem chainsStorage_switchTo :
    (core.switchTo env order now seg pushed).chainsStorage = core.chainsStorage := by
  rw [switchTo, (onlyPool_copyTransactionsToPool ..).chainsStorage_eq]
  rfl

theorem mainLeaf_switchTo (mem : seg ∈ core.chainsLeaves) :
    (core.switchTo env order now seg pushed).mainLeaf = seg := by
  rw [mainLeaf, switchTo, (onlyPool_copyTransactionsToPool ..).chainsLeaves_eq]
  exact headD_swapWithMain mem

theorem Shape.switchTo (shape : core.Shape) (mem : seg ∈ core.chainsLeaves) :
    (core.switchTo env order now seg pushed).Shape := by
  unfold Core.switchTo
  refine Shape.of_onlyPool ?_ (onlyPool_copyTransactionsToPool ..)
  refine Shape.of_onlyPool ?_ (onlyPool_checkAndRemoveInvalidPoolTransactions ..)
  exact ⟨shape.tree, shape.leaves.perm (swapWithMain_perm mem), rfl⟩

theorem Shape.committed (shape : core.Shape)
    (placed : Placed core raw seg previous nd parents parent) (same : pushed.rawBlock = raw)
    (committed : Committed env order now core seg previous pushed core' result) : core'.Shape := by
  have index := placed.index_pushed same
  cases committed with
  | extendMain top childless main =>
    have extended := shape.pushBlock placed top same
    exact ⟨extended.tree, extended.leaves, extended.main⟩
  | extendAlternative top childless other lighter => exact shape.pushBlock placed top same
  | switch top childless other heavier =>
    apply (shape.pushBlock placed top same).switchTo
    rw [chainsLeaves_pushBlock]
    exact placed.mem_leaves shape childless
  | forkOnTop top inner =>
    have forked := shape_pushOnNewSegment shape.tree shape.leaves
      (lt_size_of_node? placed.node) (Placed.not_mem_leaves shape inner) index
    exact ⟨forked.tree, forked.leaves, forked.main⟩
  | forkInside below parts =>
    obtain ⟨tree, leaves, old, inner⟩ := shape.splitSegment placed below parts
    exact shape_pushOnNewSegment tree leaves old inner index

theorem rawBlock_of_checkBlock
    (passed : core.checkBlock env now raw = .ok (seg, previous, pushed)) :
    pushed.rawBlock = raw := by
  obtain ⟨-, -, -, -, -, checked⟩ := checkBlock_ok passed
  exact (rawBlock_of_checkOnBranch checked).1

theorem Shape.step (shape : core.Shape) (call : Call) : (core.step env order call).Shape := by
  rcases step_cases env order core call with
    onlyPool | ⟨now, raw, seg, previous, pushed, result, rfl, passed, committed⟩
  · exact shape.of_onlyPool onlyPool
  · obtain ⟨nd, parents, parent, placed, same⟩ := shape.placed passed
    exact shape.committed placed same committed

theorem shape_load (genesis : CachedBlock) : (load genesis).Shape where
  tree := .single (Cache.sound_addGenesisBlock genesis) rfl
  leaves := ⟨cons_ne_nil _ _, nodup_singleton _, forall_mem_singleton.2 Nat.one_pos,
    forall_mem_singleton.2 rfl⟩
  main := rfl

/-- The shape holds after every run. -/
theorem shape_afterCalls (env : Env) (order : HashOrder) (genesis : CachedBlock)
    (calls : List Call) : (afterCalls env order genesis calls).Shape := by
  exact TransitionSystem.invariant_run_of_step (fun core call shape => shape.step call)
    (shape_load genesis)

end Core

end DeroGold
