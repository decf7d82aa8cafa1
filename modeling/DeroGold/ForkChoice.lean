import DeroGold.Linear

/-!
Which leaf is the main one, in every run.

Only the branch that extends an alternative leaf compares difficulties. The fork
branches need no comparison: above the predecessor of a forking block there already is
a block of the same cumulative difficulty, so nothing outweighs the main leaf
(`Heaviest.step`). The argument looks at one segment at a time and therefore also
holds in runs that cut a database with children.
-/

namespace DeroGold

open SegmentTree List TransitionSystem Option

namespace Core

variable {env : Env} {order : HashOrder} {now : Nat} {core core' cut : Core} {raw : RawBlock}
  {seg previous : Nat} {pushed : PushedBlockInfo} {nd : Node Cache}
  {parents : Lineage} {parent : Entry} {result : AddBlockResult}

/-! ### The top of the main chain -/

/-- Newest entry of a segment. -/
def topEntry (core : Core) (segment : Nat) : Option Entry :=
  (core.chainsStorage.value? segment).bind fun cache => cache.entries.getLast?

def mainTop (core : Core) : Option Entry := core.topEntry core.mainLeaf

theorem topEntry_eq (found : core.chainsStorage.node? seg = some nd) :
    core.topEntry seg = nd.value.entries.getLast? := by
  rw [topEntry, value?, found]
  rfl

theorem Shape.exists_topEntry (shape : core.Shape)
    (found : core.chainsStorage.node? seg = some nd) : ∃ top, core.topEntry seg = some top ∧
      core.cumulativeDifficulty seg = top.2.cumulativeDifficulty := by
  obtain ⟨top, last, last_info⟩ := (shape.tree.sound found).exists_last
  refine ⟨top, (topEntry_eq found).trans last, ?_⟩
  rw [cumulativeDifficulty, value?, found]
  simp only [map_some, getD_some, Cache.getCurrentCumulativeDifficulty, last_info]

theorem Shape.cumulativeDifficulty_eq (shape : core.Shape)
    (old : seg < core.chainsStorage.size) {entry : Entry} (top : core.topEntry seg = some entry) :
    core.cumulativeDifficulty seg = entry.2.cumulativeDifficulty := by
  obtain ⟨nd, found⟩ := lt_size_iff.1 old
  obtain ⟨entry', top', difficulty⟩ := shape.exists_topEntry found
  rw [top, some.injEq] at top'
  rw [difficulty, top']

theorem Shape.exists_mainTop (shape : core.Shape) : ∃ top, core.mainTop = some top ∧
      core.cumulativeDifficulty core.mainLeaf = top.2.cumulativeDifficulty := by
  obtain ⟨nd, found⟩ := lt_size_iff.1 shape.mainLeaf_lt
  exact shape.exists_topEntry found

theorem headD_replaceLeaf {leaves : List Nat} {old new : Nat} (mem : old ∈ leaves) :
    (replaceLeaf leaves old new).headD 0 =
      if leaves.headD 0 = old then new else leaves.headD 0 := by
  cases leaves with
  | nil => cases mem
  | cons head rest =>
    unfold replaceLeaf
    by_cases same : head = old
    · subst same
      simp
    · rw [idxOf_cons_ne _ same]
      simp [same]

theorem headD_append {leaves : List Nat} (nonempty : leaves ≠ []) (new : Nat) :
    (leaves ++ [new]).headD 0 = leaves.headD 0 := by
  cases leaves with
  | nil => exact absurd rfl nonempty
  | cons head rest => rfl

/-- The main leaf is the upper half if it is split itself, and stays otherwise. -/
theorem Placed.headD_split (placed : Placed core raw seg previous nd parents parent)
    (shape : core.Shape) (new : Nat) :
    let leaf := (if core.chainsStorage.childrenOf seg = [] then
      replaceLeaf core.chainsLeaves seg new else core.chainsLeaves).headD 0
    core.mainLeaf = seg ∧ leaf = new ∨ core.mainLeaf ≠ seg ∧ leaf = core.mainLeaf := by
  by_cases childless : core.chainsStorage.childrenOf seg = []
  · dsimp only
    rw [if_pos childless, headD_replaceLeaf (placed.mem_leaves shape childless)]
    by_cases main : core.mainLeaf = seg
    · exact .inl ⟨main, if_pos main⟩
    · exact .inr ⟨main, if_neg main⟩
  · rw [if_neg childless]
    exact .inr ⟨fun same => not_mem_leaves shape childless (same ▸ shape.mainLeaf_mem), rfl⟩

/-- Splitting a segment keeps the block the main chain ends with. -/
theorem mainTop_splitSegment (shape : core.Shape)
    (placed : Placed core raw seg previous nd parents parent)
    (below : (core.lineage seg).getTopBlockIndex ≠ previous)
    (parts : core.splitSegment seg (previous + 1) = some cut) : cut.mainTop = core.mainTop := by
  obtain ⟨lower, upper, halves, cases⟩ := splitSegment_some placed.node parts
  obtain ⟨whole, -, upper_sound, -⟩ := placed.split_entries shape below halves
  have main_lt := shape.mainLeaf_lt
  have same_value : ∀ {tree : SegmentTree Cache} {i : Nat},
      tree.value? i = core.chainsStorage.value? core.mainLeaf →
      (tree.value? i).bind (fun cache => cache.entries.getLast?) = core.mainTop := by
    intro tree i value
    rw [value]
    rfl
  rcases cases with ⟨-, rfl⟩ | ⟨shared, rfl⟩
  · rw [mainTop, mainLeaf]
    rcases placed.headD_split shape core.chainsStorage.size with ⟨main, leaf⟩ | ⟨other, leaf⟩
    · -- the main leaf itself is cut: the upper half ends as the whole did
      obtain ⟨last, upper_last, -⟩ := upper_sound.exists_last
      have whole_last : nd.value.entries.getLast? = some last := by
        rw [whole, getLast?_append, upper_last]
        rfl
      rw [leaf, topEntry, value?, node?_split_new, mainTop, main, topEntry_eq placed.node]
      exact upper_last.trans whole_last.symm
    · rw [leaf]
      exact same_value (value?_split_of_ne _ _ _ main_lt other)
  · have inner := Placed.not_mem_leaves shape shared.2
    have other : core.mainLeaf ≠ seg := fun same => inner (same ▸ shape.mainLeaf_mem)
    simp only [mainTop, topEntry, mainLeaf, replaceLeaf_of_not_mem _ inner]
    refine same_value ((value?_addChild_of_lt _ _ ?_).trans (value?_setValue_of_ne _ _ other))
    rw [size_setValue]
    exact main_lt

/-- A new segment is never the main leaf. -/
theorem mainTop_pushOnNewSegment (leaves_ne : core.chainsLeaves ≠ [])
    (main_lt : core.mainLeaf < core.chainsStorage.size) :
    (core.pushOnNewSegment seg pushed previous).mainTop = core.mainTop := by
  simp only [mainTop, topEntry, mainLeaf, pushOnNewSegment, headD_append leaves_ne]
  exact congrArg (fun value => bind value _) (value?_addChild_of_lt _ _ main_lt)

theorem topEntry_pushBlock_self
    (placed : Placed core raw seg previous nd parents parent) (shape : core.Shape)
    (top : (core.lineage seg).getTopBlockIndex = previous) (same : pushed.rawBlock = raw) :
    (core.pushBlock seg pushed).topEntry seg = some (raw, parent.2.next pushed) := by
  rw [topEntry, chainsStorage_pushBlock placed.lineage,
    value?_setValue_self _ _ (lt_size_of_node? placed.node), bind_some,
    placed.entries_pushBlock shape top, getLast?_concat, same]

theorem topEntry_pushBlock_of_ne
    (placed : Placed core raw seg previous nd parents parent) {other : Nat} (ne : other ≠ seg) :
    (core.pushBlock seg pushed).topEntry other = core.topEntry other := by
  rw [topEntry, chainsStorage_pushBlock placed.lineage, value?_setValue_of_ne _ _ ne]
  rfl

section

variable (shape : core.Shape) (placed : Placed core raw seg previous nd parents parent)
  (same : pushed.rawBlock = raw)
include shape placed same

/-- Weights of the extended leaf and of the main leaf after a push elsewhere. -/
theorem cumulativeDifficulty_pushBlock (top : (core.lineage seg).getTopBlockIndex = previous)
    (other : seg ≠ core.mainLeaf) : (core.pushBlock seg pushed).cumulativeDifficulty seg =
        (parent.2.next pushed).cumulativeDifficulty ∧
      (core.pushBlock seg pushed).cumulativeDifficulty core.mainLeaf =
        core.cumulativeDifficulty core.mainLeaf := by
  have shape' := shape.pushBlock placed top same
  have size_eq : (core.pushBlock seg pushed).chainsStorage.size = core.chainsStorage.size := by
    rw [chainsStorage_pushBlock placed.lineage, size_setValue]
  constructor
  · exact shape'.cumulativeDifficulty_eq (by rw [size_eq]; exact lt_size_of_node? placed.node)
      (topEntry_pushBlock_self placed shape top same)
  · obtain ⟨main, main_top, main_difficulty⟩ := shape.exists_mainTop
    rw [main_difficulty]
    apply shape'.cumulativeDifficulty_eq (by rw [size_eq]; exact shape.mainLeaf_lt)
    rw [topEntry_pushBlock_of_ne placed other.symm]
    exact main_top

/-- The end of the main chain after a committed block: the new block if it extends the
main leaf or the core switches to it, and the old end otherwise. -/
theorem Committed.mainTop_eq
    (committed : Committed env order now core seg previous pushed core' result) : match result with
    | .addedToMain =>
      core'.mainTop = some (raw, parent.2.next pushed) ∧ core.mainTop = some parent
    | .addedToAlternativeAndSwitched =>
      core'.mainTop = some (raw, parent.2.next pushed) ∧
        core.cumulativeDifficulty core.mainLeaf < (parent.2.next pushed).cumulativeDifficulty
    | .addedToAlternative =>
      core'.mainTop = core.mainTop ∧
        (core.chainsStorage.childrenOf seg = [] →
          (core.lineage seg).getTopBlockIndex = previous →
          (parent.2.next pushed).cumulativeDifficulty ≤
            core.cumulativeDifficulty core.mainLeaf) := by
  cases committed with
  | extendMain top childless isMain =>
    constructor
    · have main_eq : (core.pushBlock seg pushed).mainLeaf = seg := by
        rw [mainLeaf_pushBlock, isMain]
      change (core.pushBlock seg pushed).topEntry (core.pushBlock seg pushed).mainLeaf = _
      rw [main_eq]
      exact topEntry_pushBlock_self placed shape top same
    · rw [mainTop, ← isMain, topEntry_eq placed.node]
      exact placed.getLast?_entries shape top
  | extendAlternative top childless other lighter =>
    obtain ⟨new_weight, main_weight⟩ := cumulativeDifficulty_pushBlock shape placed same top other
    refine ⟨?_, fun _ _ => ?_⟩
    · rw [mainTop, mainLeaf_pushBlock, topEntry_pushBlock_of_ne placed other.symm]
      rfl
    · rw [← new_weight, ← main_weight]
      exact lighter
  | switch top childless other heavier =>
    obtain ⟨new_weight, main_weight⟩ := cumulativeDifficulty_pushBlock shape placed same top other
    rw [new_weight, main_weight] at heavier
    refine ⟨?_, heavier⟩
    have mem := placed.mem_leaves_pushBlock shape childless pushed
    rw [mainTop, mainLeaf_switchTo mem, topEntry, chainsStorage_switchTo]
    exact topEntry_pushBlock_self placed shape top same
  | forkOnTop top inner =>
    refine ⟨?_, fun childless _ => absurd childless inner⟩
    exact mainTop_pushOnNewSegment shape.leaves.nonempty shape.mainLeaf_lt
  | forkInside below parts =>
    refine ⟨?_, fun _ top => absurd top below⟩
    obtain ⟨-, leaves, -, -⟩ := shape.splitSegment placed below parts
    have kept := mainTop_splitSegment shape placed below parts
    rw [← kept]
    exact mainTop_pushOnNewSegment leaves.nonempty (leaves.old _ leaves.headD_mem)

end

/-! ### Nothing outweighs the main leaf -/

/-- A block with the difficulty that `D` gives to the blocks above `below`. -/
def Follows (D : Hash → Nat) (below entry : Entry) : Prop :=
  entry.2.cumulativeDifficulty = below.2.cumulativeDifficulty + D below.2.blockHash

/-- Every stored block is at most as heavy as the main leaf, blocks of one segment
follow each other, and above a segment with children there is a block that follows its
top. -/
structure Heaviest (D : Hash → Nat) (core : Core) : Prop where
  bound : ∀ entry ∈ core.allEntries,
    entry.2.cumulativeDifficulty ≤ core.cumulativeDifficulty core.mainLeaf
  inside : ∀ {i nd}, core.chainsStorage.node? i = some nd → nd.value.entries.IsChain (Follows D)
  above : ∀ {i nd last}, core.chainsStorage.node? i = some nd → nd.children ≠ [] →
    nd.value.entries.getLast? = some last → ∃ entry ∈ core.allEntries, Follows D last entry

/-- The difficulty found for the block is the one `D` gives to blocks above its
predecessor, and the cumulative difficulty stays a 64-bit number. The chain of a block
is named by the hash of its predecessor. -/
def FixedDifficulty (env : Env) (D : Hash → Nat) (core : Core) : Call → Prop
  | .addBlock now raw =>
    core.WhenChecked env now raw fun segment previous pushed =>
      pushed.blockDifficulty = D raw.block.previousBlockHash ∧
        (((core.lineage segment).getBlockInfo previous).map
          (·.cumulativeDifficulty)).getD 0 + pushed.blockDifficulty < 2 ^ 64
  | .addTransactionToPool _ _ => True
  | .cleanPool _ => True

instance (env : Env) (D : Hash → Nat) (core : Core) : DecidablePred (core.FixedDifficulty env D)
  | .addBlock now raw => inferInstanceAs (Decidable (core.WhenChecked env now raw _))
  | .addTransactionToPool _ _ | .cleanPool _ => isTrue trivial

variable {D : Hash → Nat}

theorem FixedDifficulty.follows (shape : core.Shape)
    (passed : core.checkBlock env now raw = .ok (seg, previous, pushed))
    (placed : Placed core raw seg previous nd parents parent)
    (fixed : core.FixedDifficulty env D (.addBlock now raw)) :
    Follows D parent (raw, parent.2.next pushed) ∧ 0 < D parent.2.blockHash := by
  obtain ⟨difficulty, small⟩ := fixed _ _ _ passed
  have info : (core.lineage seg).getBlockInfo previous = some parent.2 := by
    rw [placed.lineage, Lineage.getBlockInfo, if_neg (not_lt.2 placed.start_le),
      ← Cache.map_snd_entries (shape.tree.sound placed.node).aligned, getElem?_map,
      placed.parent_at]
    rfl
  rw [info, map_some, getD_some] at small
  have cumulative : (parent.2.next pushed).cumulativeDifficulty =
      parent.2.cumulativeDifficulty + pushed.blockDifficulty := uint64_of_lt small
  rw [Follows, cumulative, ← placed.previous, ← difficulty]
  obtain ⟨-, -, -, -, -, checked⟩ := checkBlock_ok passed
  obtain ⟨_, _, _, _, checks, rfl⟩ := checkOnBranch_ok checked
  exact ⟨rfl, Nat.pos_of_ne_zero checks.difficulty_ne⟩

namespace Heaviest

section

variable (heaviest : core.Heaviest D) (placed : Placed core raw seg previous nd parents parent)
  (follows : Follows D parent (raw, parent.2.next pushed))
include heaviest placed follows

theorem inside_step {jd : Node Cache}
    (after : NodeAfter core raw previous nd parents parent pushed jd) :
    jd.value.entries.IsChain (Follows D) := by
  have own := heaviest.inside placed.node
  cases after with
  | old found value children =>
    rw [value]
    exact heaviest.inside found
  | extended value entries_eq last childless =>
    rw [entries_eq]
    refine isChain_append.2 ⟨own, isChain_singleton _, ?_⟩
    intro below mem entry mem'
    obtain rfl := some.inj (last.symm.trans mem)
    cases mem'
    exact follows
  | created _ entries_eq childless =>
    rw [entries_eq]
    exact isChain_singleton _
  | lower halves whole last =>
    rw [whole] at own
    exact own.left_of_append
  | upper halves whole nonempty children =>
    rw [whole] at own
    exact own.right_of_append

theorem above_step (grown : core'.allEntries.Perm ((raw, parent.2.next pushed) :: core.allEntries))
    {jd : Node Cache} {last : Entry}
    (after : NodeAfter core raw previous nd parents parent pushed jd) (inner : jd.children ≠ [])
    (top : jd.value.entries.getLast? = some last) :
    ∃ entry ∈ core'.allEntries, Follows D last entry := by
  have kept : (∃ entry ∈ core.allEntries, Follows D last entry) →
      ∃ entry ∈ core'.allEntries, Follows D last entry := by
    rintro ⟨entry, mem, follows⟩
    exact ⟨entry, grown.mem_iff.2 (mem_cons_of_mem _ mem), follows⟩
  cases after with
  | old found value children =>
    rw [value] at top
    exact kept (heaviest.above found (children inner) top)
  | extended value entries_eq lastOld childless => exact absurd childless inner
  | created _ entries_eq childless => exact absurd childless inner
  | lower halves whole lastOld =>
    -- the new block follows the end of the lower half
    rw [lastOld, some.injEq] at top
    subst top
    exact ⟨_, grown.mem_iff.2 mem_cons_self, follows⟩
  | upper halves whole nonempty children =>
    have top_old : nd.value.entries.getLast? = some last := by
      rw [whole, getLast?_append, top]
      rfl
    exact kept (heaviest.above placed.node (children inner) top_old)

end

/-- Above a block below the top of its segment, or at the top of a segment with
children, there is a stored block that follows it. -/
theorem exists_follower (heaviest : core.Heaviest D) (shape : core.Shape)
    (placed : Placed core raw seg previous nd parents parent)
    (inner : (core.lineage seg).getTopBlockIndex = previous →
      core.chainsStorage.childrenOf seg ≠ []) :
    ∃ entry ∈ core.allEntries, Follows D parent entry := by
  by_cases top : (core.lineage seg).getTopBlockIndex = previous
  · have children := inner top
    rw [childrenOf_eq placed.node] at children
    exact heaviest.above placed.node children (placed.getLast?_entries shape top)
  · have top_eq := (shape.tree.sound placed.node).getTopBlockIndex_eq
    have le_top := placed.le_top
    have start_le := placed.start_le
    rw [placed.getTopBlockIndex_eq] at top
    have bound : previous - nd.value.getStartBlockIndex + 1 < nd.value.entries.length := by omega
    have follows := isChain_iff_getElem.1 (heaviest.inside placed.node) _ bound
    obtain ⟨inside, parent_eq⟩ := List.getElem?_eq_some_iff.1 placed.parent_at
    rw [parent_eq] at follows
    exact ⟨_, mem_allEntries.2 ⟨seg, nd, placed.node, getElem_mem bound⟩, follows⟩

section

variable (heaviest : core.Heaviest D) (shape : core.Shape)
  (placed : Placed core raw seg previous nd parents parent) (same : pushed.rawBlock = raw)
  (commits : Committed env order now core seg previous pushed core' result)
  (follows : Follows D parent (raw, parent.2.next pushed)) (positive : 0 < D parent.2.blockHash)
include heaviest shape placed same commits follows positive

/-- A new block is at most as heavy as the main leaf afterwards, which is either the
old one or heavier than it. -/
theorem weights :
    (parent.2.next pushed).cumulativeDifficulty ≤ core'.cumulativeDifficulty core'.mainLeaf ∧
      (result = .addedToAlternative ∧
          core'.cumulativeDifficulty core'.mainLeaf = core.cumulativeDifficulty core.mainLeaf ∨
        core.cumulativeDifficulty core.mainLeaf < core'.cumulativeDifficulty core'.mainLeaf) := by
  have shape' := shape.committed placed same commits
  have ends := commits.mainTop_eq shape placed same
  have weight : ∀ {top : Entry}, core'.mainTop = some top →
      core'.cumulativeDifficulty core'.mainLeaf = top.2.cumulativeDifficulty :=
    fun top => shape'.cumulativeDifficulty_eq shape'.mainLeaf_lt top
  have follows' : (parent.2.next pushed).cumulativeDifficulty =
      parent.2.cumulativeDifficulty + D parent.2.blockHash := follows
  obtain ⟨main, main_top, main_weight⟩ := shape.exists_mainTop
  cases result with
  | addedToMain =>
    obtain ⟨top', top⟩ := ends
    have weight' := weight top'
    rw [main_top, some.injEq] at top
    subst top
    simp only at weight'
    exact ⟨by omega, .inr (by omega)⟩
  | addedToAlternativeAndSwitched =>
    obtain ⟨top', heavier⟩ := ends
    have weight' := weight top'
    simp only at weight'
    exact ⟨by omega, .inr (by omega)⟩
  | addedToAlternative =>
    obtain ⟨top', lighter⟩ := ends
    have weight' := weight (top'.trans main_top)
    refine ⟨?_, .inl ⟨rfl, by omega⟩⟩
    by_cases extends_leaf : (core.lineage seg).getTopBlockIndex = previous ∧
        core.chainsStorage.childrenOf seg = []
    · have := lighter extends_leaf.2 extends_leaf.1
      omega
    · obtain ⟨entry, mem, sibling⟩ := heaviest.exists_follower shape placed
        (fun top childless => extends_leaf ⟨top, childless⟩)
      have bound := heaviest.bound entry mem
      rw [Follows] at sibling
      omega

theorem committed : core'.Heaviest D := by
  have grown := commits.allEntries_perm shape placed same
  refine ⟨?_, ?_, ?_⟩
  · obtain ⟨new_le, main⟩ := heaviest.weights shape placed same commits follows positive
    intro entry mem
    rcases mem_cons.1 (grown.mem_iff.1 mem) with rfl | mem
    · exact new_le
    · have bound := heaviest.bound entry mem
      rcases main with ⟨-, equal⟩ | heavier
      · omega
      · omega
  · intro i jd found
    exact heaviest.inside_step placed follows (commits.nodeAfter shape placed same found)
  · intro i jd last found inner top
    exact heaviest.above_step placed follows grown (commits.nodeAfter shape placed same found)
      inner top

end

theorem of_onlyPool (heaviest : core.Heaviest D) (h : OnlyPool core core') : core'.Heaviest D := by
  obtain ⟨pool, rfl⟩ := h
  exact ⟨heaviest.bound, heaviest.inside, heaviest.above⟩

/-- One call: nothing outweighs the main leaf afterwards. -/
theorem step (heaviest : core.Heaviest D) (shape : core.Shape) (call : Call)
    (fixed : core.FixedDifficulty env D call) : (core.step env order call).Heaviest D := by
  rcases step_cases env order core call with
    onlyPool | ⟨now, raw, seg, previous, pushed, result, rfl, passed, committed⟩
  · exact heaviest.of_onlyPool onlyPool
  · obtain ⟨nd, parents, parent, placed, same⟩ := shape.placed passed
    obtain ⟨follows, positive⟩ := FixedDifficulty.follows shape passed placed fixed
    exact heaviest.committed shape placed same committed follows positive

theorem load (D : Hash → Nat) (genesis : CachedBlock) : (load genesis).Heaviest D where
  bound := forall_mem_singleton.2 (le_refl _)
  inside := by
    intro i nd found
    obtain ⟨-, rfl⟩ := node?_single.1 found
    exact isChain_singleton _
  above := by
    intro i nd last found inner
    obtain ⟨-, rfl⟩ := node?_single.1 found
    exact absurd rfl inner

end Heaviest

/-- Every listed leaf weighs at most as much as the main one. -/
theorem Heaviest.leaf_le (heaviest : core.Heaviest D) (shape : core.Shape) {leaf : Nat}
    (mem : leaf ∈ core.chainsLeaves) :
    core.cumulativeDifficulty leaf ≤ core.cumulativeDifficulty core.mainLeaf := by
  obtain ⟨nd, found⟩ := lt_size_iff.1 (shape.leaves.old leaf mem)
  obtain ⟨top, last, weight⟩ := shape.exists_topEntry found
  rw [topEntry_eq found] at last
  rw [weight]
  exact heaviest.bound top (mem_allEntries.2 ⟨leaf, nd, found, mem_of_getLast? last⟩)

end Core

end DeroGold
