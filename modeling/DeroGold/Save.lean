import DeroGold.Answers
import DeroGold.Reorg

/-!
Saving a core: the alternative branches are deleted leaf by leaf, and the blocks of the
main chain that lie above the database are pushed into it.

Deleting frees segments, so `SavedCore` keeps beside the core the positions of the
segments that still exist. Afterwards the database is the only segment and the only leaf
and answers as the main leaf did. But neither its list of children nor the set of main
chain segments is brought up to date: both still name the merged segments
(`saved_spec`).
-/

namespace DeroGold

open SegmentTree KeyIndex Slice List TransitionSystem Option BlockchainCache Cache Lineage DeroGold.Core

/-! ### Merging segments -/

namespace BlockchainCache

/-- Key images listed under a block; they are key images of the block. -/
def fillOutputsSpentByBlock (cache : BlockchainCache) (blockIndex : Nat) (raw : RawBlock) :
    List KeyImage :=
  raw.keyImages.filter fun keyImage => cache.spentKeyImages keyImage = some blockIndex

/-- Running totals of the block below a segment; zero below the first block of all. -/
def totalsBelow (parents : Lineage) (startIndex : Nat) : Nat × Nat :=
  if parents.isEmpty then (0, 0)
  else ((parents.getLastCumulativeDifficulties 1 (startIndex - 1) true).head?.getD 0,
    parents.getAlreadyGeneratedCoins (startIndex - 1))

/-- What has to be pushed to restore a block above a block with the given totals. -/
def getPushedBlockInfo (cache : BlockchainCache) (previous : Nat × Nat) (blockIndex : Nat)
    (entry : RawBlock × CachedBlockInfo) : PushedBlockInfo where
  rawBlock := entry.1
  spentKeyImages := cache.fillOutputsSpentByBlock blockIndex entry.1
  blockSize := entry.2.blockSize
  generatedCoins := subUInt64 entry.2.alreadyGeneratedCoins previous.2
  blockDifficulty := subUInt64 entry.2.cumulativeDifficulty previous.1

/-- The blocks of a segment from a position on, each with the totals of its predecessor. -/
def pushedBlocksFrom (cache : BlockchainCache) :
    Nat × Nat → Nat → List (RawBlock × CachedBlockInfo) → List PushedBlockInfo
  | _, _, [] => []
  | previous, blockIndex, entry :: rest =>
    cache.getPushedBlockInfo previous blockIndex entry ::
      cache.pushedBlocksFrom (entry.2.cumulativeDifficulty, entry.2.alreadyGeneratedCoins)
        (blockIndex + 1) rest

/-- All blocks of a segment. The parents are asked before the first one is pushed. -/
def pushedBlocks (parents : Lineage) (cache : BlockchainCache) : List PushedBlockInfo :=
  cache.pushedBlocksFrom (totalsBelow parents cache.startIndex) cache.startIndex
    (cache.storage.zip cache.blockInfos)

end BlockchainCache

/-- Push the blocks of a segment; between it and the accepting segment lie others, which
have been merged before. -/
def mergeSegments (acceptingSegment : Cache) (between : Lineage) (segment : BlockchainCache) :
    Cache :=
  (segment.pushedBlocks (between ++ [acceptingSegment])).foldl
    (fun accepting pushed => accepting.pushBlock [] pushed) acceptingSegment

/-- The root after all segments of a branch have been merged into it, the lowest first. A
database is never above another segment. -/
def Lineage.merged : Lineage → Option Cache
  | [] => none
  | [root] => some root
  | .database _ :: _ => none
  | .memory segment :: parents =>
    (merged parents).map fun root => mergeSegments root parents.dropLast segment

/-! ### Deleting branches -/

/-- A core and the positions of its segments that exist. -/
structure SavedCore where
  core : Core
  segments : List Nat

namespace SavedCore

/-- Delete a leaf and its segment. A parent left without children becomes a leaf. `none`
is the access to the missing parent of the root. -/
def deleteLeaf (saved : SavedCore) (leafIndex : Nat) : Option SavedCore :=
  let core := saved.core
  let leaf := core.chainsLeaves[leafIndex]?.getD 0
  let segments := saved.segments.erase leaf
  match core.chainsStorage.parent? leaf with
  | some parent =>
    let tree := core.chainsStorage.deleteChild parent leaf
    let leaves :=
      if leafIndex ≠ 0 then
        (if tree.childrenOf parent = [] then core.chainsLeaves ++ [parent]
          else core.chainsLeaves).eraseIdx leafIndex
      else core.chainsLeaves.set 0 parent
    some ⟨{ core with chainsStorage := tree, chainsLeaves := leaves }, segments⟩
  | none =>
    if leafIndex ≠ 0 then none
    else some ⟨{ core with chainsLeaves := core.chainsLeaves.tail }, segments⟩

/-- While there is another leaf than the first one, delete the second one. Every round
deletes a segment. -/
def deleteAlternativeChains : Nat → SavedCore → Option SavedCore
  | 0, _ => none
  | rounds + 1, saved =>
    if saved.core.chainsLeaves.length ≤ 1 then some saved
    else (saved.deleteLeaf 1).bind (deleteAlternativeChains rounds)

/-- All segments but the root are freed. -/
def mergeMainChainSegments (saved : SavedCore) : Option SavedCore :=
  let core := saved.core
  (core.chainsStorage.path core.mainLeaf).getLast?.bind fun root =>
    core.mainLineage.merged.map fun value =>
      ⟨{ core with
          chainsStorage := core.chainsStorage.setValue root value
          chainsLeaves := [root] },
        [root]⟩

end SavedCore

/-- The state saved; what the database itself writes then does not change it. -/
def Core.save (core : Core) : Option SavedCore :=
  (SavedCore.deleteAlternativeChains (core.chainsStorage.size + 1)
    ⟨core, List.range core.chainsStorage.size⟩).bind SavedCore.mergeMainChainSegments

/-! ### Deleting keeps the main chain -/

namespace SavedCore

/-- A state on the way from `start`: values, parent links and the main leaf are those of
the start; the segments that are left are closed under parents and hold the main chain;
children are the segments left above one; and the leaves after the first are childless
segments off the main chain. -/
structure Pruned (start : Core) (saved : SavedCore) : Prop where
  size : saved.core.chainsStorage.size = start.chainsStorage.size
  value : ∀ i, saved.core.chainsStorage.value? i = start.chainsStorage.value? i
  parent : ∀ i, saved.core.chainsStorage.parent? i = start.chainsStorage.parent? i
  main : ∃ others, saved.core.chainsLeaves = start.mainLeaf :: others
  mainSet : saved.core.mainChainSet = start.mainChainSet
  nodup : saved.segments.Nodup
  old : ∀ i ∈ saved.segments, i < start.chainsStorage.size
  mainPath : ∀ i ∈ start.chainsStorage.path start.mainLeaf, i ∈ saved.segments
  up : ∀ i ∈ saved.segments, ∀ p, start.chainsStorage.parent? i = some p → p ∈ saved.segments
  children : ∀ p ∈ saved.segments, ∀ c, c ∈ saved.core.chainsStorage.childrenOf p ↔
    c ∈ saved.segments ∧ start.chainsStorage.parent? c = some p
  childrenNodup : ∀ p, (saved.core.chainsStorage.childrenOf p).Nodup
  othersNodup : saved.core.chainsLeaves.tail.Nodup
  others : ∀ leaf ∈ saved.core.chainsLeaves.tail, leaf ∈ saved.segments ∧
    saved.core.chainsStorage.childrenOf leaf = [] ∧
    leaf ∉ start.chainsStorage.path start.mainLeaf

variable {start : Core} {saved : SavedCore}

/-- Nothing deleted yet. -/
theorem Pruned.init (linear : start.Linear) :
    Pruned start ⟨start, List.range start.chainsStorage.size⟩ where
  size := rfl
  value _ := rfl
  parent _ := rfl
  main := by
    obtain ⟨main, others, leaves_eq⟩ := exists_cons_of_ne_nil linear.shape.leaves.nonempty
    refine ⟨others, ?_⟩
    simp [mainLeaf, leaves_eq]
  mainSet := rfl
  nodup := nodup_range
  old _ mem := mem_range.1 mem
  mainPath := by
    intro i mem
    exact mem_range.2 (linear.shape.walk.lt_size mem)
  up := by
    intro i mem p link
    obtain ⟨nd, found, link⟩ := bind_eq_some_iff.1 link
    exact mem_range.2 (linear.shape.tree.wellFormed.parent_lt found link)
  children := by
    intro p _ c
    have wf := linear.shape.tree.wellFormed
    exact ⟨fun mem => ⟨mem_range.2 (wf.child_lt mem), wf.owned mem⟩,
      fun both => wf.mem_childrenOf_iff.2 both.2⟩
  childrenNodup := linear.shape.tree.wellFormed.distinct
  othersNodup := linear.shape.leaves.nodup.tail
  others := by
    intro leaf mem
    have leaves := linear.shape.leaves
    have listed := mem_of_mem_tail mem
    refine ⟨mem_range.2 (leaves.old leaf listed), leaves.childless leaf listed, ?_⟩
    -- a segment of the walk other than the main leaf has a child
    intro held
    obtain ⟨main, others, leaves_eq⟩ := exists_cons_of_ne_nil leaves.nonempty
    have ne : leaf ≠ start.mainLeaf := by
      have nodup := leaves.nodup
      simp only [leaves_eq, tail_cons, mainLeaf, headD_cons, nodup_cons] at *
      rintro rfl
      exact nodup.1 mem
    obtain ⟨c, -, child⟩ := linear.shape.walk.exists_child leaf held ne
    exact linear.shape.parent_ne_leaf listed child

/-- The parent of a leaf that is deleted keeps a child if it is on the main chain. -/
theorem Pruned.parent_off_main (ok : Pruned start saved) (linear : start.Linear)
    {leaf parent : Nat} (off : leaf ∉ start.chainsStorage.path start.mainLeaf)
    (link : start.chainsStorage.parent? leaf = some parent)
    (left : ∀ c, c ∈ saved.segments → c ≠ leaf → start.chainsStorage.parent? c ≠ some parent) :
    parent ∉ start.chainsStorage.path start.mainLeaf := by
  intro held
  have below : parent ≠ start.mainLeaf := by
    rintro rfl
    exact linear.shape.parent_ne_leaf linear.shape.mainLeaf_mem link
  obtain ⟨c, on_path, child⟩ := linear.shape.walk.exists_child parent held below
  refine left c (ok.mainPath c on_path) ?_ child
  rintro rfl
  exact off on_path

/-- One round deletes the second leaf. -/
theorem Pruned.deleteLeaf (ok : Pruned start saved) (linear : start.Linear) {leaf : Nat}
    {others : List Nat} (leaves_eq : saved.core.chainsLeaves = start.mainLeaf :: leaf :: others) :
    ∃ next, saved.deleteLeaf 1 = some next ∧ Pruned start next ∧
      next.segments.length < saved.segments.length := by
  have wf := linear.shape.tree.wellFormed
  have tail_eq : saved.core.chainsLeaves.tail = leaf :: others := by rw [leaves_eq]; rfl
  obtain ⟨held, childless, off⟩ := ok.others leaf (tail_eq ▸ mem_cons_self)
  have othersOk : ∀ other ∈ others, other ∈ saved.segments ∧
      saved.core.chainsStorage.childrenOf other = [] ∧
      other ∉ start.chainsStorage.path start.mainLeaf :=
    fun other mem => ok.others other (tail_eq ▸ mem_cons_of_mem _ mem)
  obtain ⟨new, nodup⟩ := nodup_cons.1 (tail_eq ▸ ok.othersNodup)
  -- the leaf is not the root, which is on the main chain
  obtain ⟨parent, link⟩ : ∃ parent, start.chainsStorage.parent? leaf = some parent := by
    obtain ⟨nd, found⟩ := lt_size_iff.1 (ok.old leaf held)
    cases link : nd.parent with
    | some parent => exact ⟨parent, by simp [parent?, found, link]⟩
    | none =>
      obtain rfl := (linear.shape.tree.root found).1 link
      exact absurd (linear.shape.root_mem_path linear.shape.mainLeaf_lt) off
  have linkHere : saved.core.chainsStorage.parent? leaf = some parent := (ok.parent leaf).trans link
  have mem_erase : ∀ {i}, i ∈ saved.segments.erase leaf ↔ i ≠ leaf ∧ i ∈ saved.segments :=
    ok.nodup.mem_erase_iff
  have parent_held := ok.up leaf held parent link
  have parent_ne : parent ≠ leaf := by
    rintro rfl
    obtain ⟨nd, found, link⟩ := bind_eq_some_iff.1 link
    exact wf.parent_ne_self found link rfl
  -- the tree and the leaves after the round
  let tree := saved.core.chainsStorage.deleteChild parent leaf
  let freed := if tree.childrenOf parent = [] then [parent] else []
  have leaves_next : (if tree.childrenOf parent = [] then saved.core.chainsLeaves ++ [parent]
      else saved.core.chainsLeaves).eraseIdx 1 = start.mainLeaf :: (others ++ freed) := by
    by_cases empty : tree.childrenOf parent = [] <;> simp [freed, empty, leaves_eq]
  refine ⟨⟨{ saved.core with
      chainsStorage := tree
      chainsLeaves := start.mainLeaf :: (others ++ freed) }, saved.segments.erase leaf⟩, ?_, ?_, ?_⟩
  · have second : saved.core.chainsLeaves[1]?.getD 0 = leaf := by simp [leaves_eq]
    simp only [SavedCore.deleteLeaf, second, linkHere, ne_eq, Nat.one_ne_zero, not_false_eq_true,
      if_true, ← leaves_next, tree]
  · have children : ∀ p ∈ saved.segments.erase leaf, ∀ c, c ∈ tree.childrenOf p ↔
        c ∈ saved.segments.erase leaf ∧ start.chainsStorage.parent? c = some p := by
      intro p mem c
      have here := ok.children p (mem_erase.1 mem).2 c
      rw [childrenOf_deleteChild, mem_erase]
      by_cases same : p = parent
      · rw [if_pos same, (ok.childrenNodup p).mem_erase_iff, here, and_assoc]
      · rw [if_neg same, here]
        constructor
        · rintro ⟨left, child⟩
          refine ⟨⟨?_, left⟩, child⟩
          rintro rfl
          exact same (some.inj (child.symm.trans link))
        · rintro ⟨⟨-, left⟩, child⟩
          exact ⟨left, child⟩
    have childlessNext : ∀ {i}, saved.core.chainsStorage.childrenOf i = [] →
        tree.childrenOf i = [] := by
      intro i empty
      rw [childrenOf_deleteChild, empty]
      split <;> rfl
    have parentNew : parent ∉ others := by
      intro mem
      have child := (ok.children parent parent_held leaf).2 ⟨held, link⟩
      exact eq_nil_iff_forall_not_mem.1 (othersOk parent mem).2.1 _ child
    constructor
    case size => simpa [tree] using ok.size
    case value => simpa [tree] using ok.value
    case parent => simpa [tree] using ok.parent
    case main => exact ⟨_, rfl⟩
    case mainSet => exact ok.mainSet
    case nodup => exact ok.nodup.erase leaf
    case old => exact fun i mem => ok.old i (mem_erase.1 mem).2
    case mainPath =>
      intro i mem
      refine mem_erase.2 ⟨?_, ok.mainPath i mem⟩
      rintro rfl
      exact off mem
    case up =>
      intro i mem p up
      refine mem_erase.2 ⟨?_, ok.up i (mem_erase.1 mem).2 p up⟩
      rintro rfl
      have child := (ok.children p held i).2 ⟨(mem_erase.1 mem).2, up⟩
      exact eq_nil_iff_forall_not_mem.1 childless _ child
    case children => exact children
    case childrenNodup =>
      intro p
      rw [childrenOf_deleteChild]
      split
      · exact (ok.childrenNodup p).erase leaf
      · exact ok.childrenNodup p
    case othersNodup =>
      change (others ++ freed).Nodup
      by_cases empty : tree.childrenOf parent = []
      · simp only [freed, empty, if_true]
        exact nodup_append.2 ⟨nodup, nodup_singleton _, by
          rintro other mem _ only rfl
          exact parentNew (mem_singleton.1 only ▸ mem)⟩
      · simpa [freed, empty] using nodup
    case others =>
      intro other mem
      rcases mem_append.1 mem with listed | mem
      · obtain ⟨left, empty, apart⟩ := othersOk other listed
        refine ⟨mem_erase.2 ⟨?_, left⟩, childlessNext empty, apart⟩
        rintro rfl
        exact new listed
      · by_cases empty : tree.childrenOf parent = []
        · simp only [freed, empty, if_true, mem_singleton] at mem
          subst mem
          refine ⟨mem_erase.2 ⟨parent_ne, parent_held⟩, empty, ?_⟩
          refine ok.parent_off_main linear off link fun c left ne child => ?_
          exact eq_nil_iff_forall_not_mem.1 empty c
            ((children _ (mem_erase.2 ⟨parent_ne, parent_held⟩) c).2
              ⟨mem_erase.2 ⟨ne, left⟩, child⟩)
        · simp [freed, empty] at mem
  · change (saved.segments.erase leaf).length < saved.segments.length
    rw [length_erase_of_mem held]
    have := length_pos_of_mem held
    omega

/-- The loop ends with one leaf, that of the main chain. -/
theorem Pruned.deleteAlternativeChains (linear : start.Linear) {rounds : Nat} {saved : SavedCore}
    (ok : Pruned start saved) (few : saved.segments.length < rounds) :
    ∃ last, SavedCore.deleteAlternativeChains rounds saved = some last ∧ Pruned start last ∧
      last.core.chainsLeaves = [start.mainLeaf] := by
  induction rounds generalizing saved with
  | zero =>
    exact absurd few (Nat.not_lt_zero _)
  | succ rounds ih =>
    rw [SavedCore.deleteAlternativeChains]
    obtain ⟨others, leaves_eq⟩ := ok.main
    cases others with
    | nil => exact ⟨saved, by simp [leaves_eq], ok, leaves_eq⟩
    | cons leaf others =>
      obtain ⟨next, deleted, pruned, fewer⟩ := ok.deleteLeaf linear leaves_eq
      obtain ⟨last, ran, prunedLast, single⟩ := ih pruned (by omega)
      refine ⟨last, ?_, prunedLast, single⟩
      simp [leaves_eq, deleted, ran]

end SavedCore

/-! ### Merging rebuilds the chain in the database -/

/-- The block claims the hashes of the transactions it carries. -/
def RawBlock.Claims (raw : RawBlock) : Prop :=
  raw.block.transactionHashes = raw.cachedTransactions.map (·.transactionHash)

/-- A database that holds exactly the given chain. -/
structure HoldsChain (chain : List Entry) (root : Cache) : Prop where
  database : root.isDatabase = true
  entries : root.entries = chain
  fits : Fits [] root
  outputs : OutputsOk [] root
  spent : SpentOk [] root
  units : root.UnitsOk

/-- Blocks that continue a chain. -/
structure Continues (chain rest : List Entry) : Prop where
  linked : (chain ++ rest).IsChain Entry.Linked
  stored : ∀ entry ∈ rest, entry.Stored
  height : ∀ i entry, rest[i]? = some entry → entry.1.block.getBlockIndex = chain.length + i
  claims : ∀ entry ∈ rest, entry.1.Claims
  hashes : (keysOf Entry.allHashes (chain ++ rest)).Nodup
  images : (keysOf Entry.keyImages (chain ++ rest)).Nodup

variable {chain : List Entry} {root : Cache} {last : Entry}
  {rest : List Entry} {entry : Entry} {cache : BlockchainCache}

theorem Continues.tail (ok : Continues chain (entry :: rest)) :
    Continues (chain ++ [entry]) rest where
  linked := by simpa using ok.linked
  stored other mem := ok.stored other (mem_cons_of_mem _ mem)
  height := by
    intro i other found
    have height := ok.height (i + 1) other (by simpa using found)
    rw [height, length_append, length_singleton]
    omega
  claims other mem := ok.claims other (mem_cons_of_mem _ mem)
  hashes := by simpa using ok.hashes
  images := by simpa using ok.images

/-- A restored block on top of the database. -/
theorem HoldsChain.push (ok : HoldsChain chain root)
    (continues : Continues chain (entry :: rest)) (top : chain.getLast? = some last)
    {pushed : PushedBlockInfo} (raw : pushed.rawBlock = entry.1)
    (images : pushed.spentKeyImages = entry.1.keyImages)
    (size : pushed.blockSize = entry.2.blockSize) (coins : pushed.generatedCoins =
      subUInt64 entry.2.alreadyGeneratedCoins last.2.alreadyGeneratedCoins)
    (difficulty : pushed.blockDifficulty =
      subUInt64 entry.2.cumulativeDifficulty last.2.cumulativeDifficulty) :
    HoldsChain (chain ++ [entry]) (root.pushBlock [] pushed) := by
  have sound := ok.fits.sound
  have stored := continues.stored entry mem_cons_self
  have linked : last.Linked entry := by
    have chained := (isChain_append.1 continues.linked).2.2
    exact chained last (by rw [mem_def, top]) entry (by simp)
  have next : last.2.next pushed = entry.2 := next_restored stored linked raw size coins difficulty
  have index : pushed.rawBlock.block.getBlockIndex = root.getTopBlockIndex + 1 := by
    have top_eq := sound.getTopBlockIndex_eq
    have start : root.getStartBlockIndex = 0 := ok.fits.start
    rw [raw, continues.height 0 entry rfl, ← ok.entries]
    omega
  rw [← ok.entries] at top
  obtain ⟨fits, appended⟩ := ok.fits.pushBlock top (by rw [raw]; exact linked.previous) [] index
  rw [next] at appended
  have grown : (root.pushBlock [] pushed).entries = chain ++ [entry] := by
    rw [appended, ok.entries, raw]
  have hashes := (nodup_parts continues.tail.hashes).1
  refine ⟨?_, grown, fits, ⟨by simpa [grown] using hashes, ?_⟩, ?_, ok.units.pushBlock [] pushed⟩
  · rw [isDatabase_pushBlock, ok.database]
  · cases root with
    | memory cache => exact absurd ok.database Bool.false_ne_true
    | database cache =>
      have rows : RowsOk cache := ok.outputs.tables
      refine rows.pushBlock ?_ ?_ ?_
      · intro empty
        exact sound.nonempty (by simp [Cache.blockInfos, empty])
      · rw [raw]
        exact continues.claims entry mem_cons_self
      · have raws : cache.blocks.map (·.rawBlock) = chain.map Prod.fst := by
          rw [← ok.entries, map_fst_entries sound.aligned]
          rfl
        rw [raws, raw, ← map_singleton (f := Prod.fst), ← map_append, keysOf_map_fst]
        exact hashes
  · apply ok.spent.pushBlock sound appended (by rw [images, raw]) index
    rw [ok.entries, raw]
    exact (nodup_parts continues.tail.images).1

/-- Pushing the blocks of a segment one after another appends them to the chain. -/
theorem HoldsChain.pushAll {rest chain : List Entry} {root : Cache} {last : Entry} {index : Nat}
    (ok : HoldsChain chain root) (continues : Continues chain rest)
    (top : chain.getLast? = some last)
    (listed : ∀ i entry, rest[i]? = some entry → ∀ k ∈ entry.keyImages,
      cache.spentKeyImages k = some (index + i)) :
    HoldsChain (chain ++ rest)
      ((cache.pushedBlocksFrom (last.2.cumulativeDifficulty, last.2.alreadyGeneratedCoins)
        index rest).foldl (fun root pushed => root.pushBlock [] pushed) root) := by
  induction rest generalizing chain root last index with
  | nil =>
    simpa [pushedBlocksFrom] using ok
  | cons entry rest ih =>
    have images : cache.fillOutputsSpentByBlock index entry.1 = entry.1.keyImages :=
      filter_eq_self.2 fun k mem => decide_eq_true (listed 0 entry rfl k mem)
    have pushed : HoldsChain (chain ++ [entry]) (root.pushBlock []
        (cache.getPushedBlockInfo (last.2.cumulativeDifficulty, last.2.alreadyGeneratedCoins)
          index entry)) :=
      ok.push continues top rfl images rfl rfl rfl
    rw [pushedBlocksFrom, foldl_cons, append_cons]
    refine ih pushed continues.tail (by simp) fun i other found k mem => ?_
    rw [listed (i + 1) other (by simpa using found) k mem]
    congr 1
    omega

/-- The parent of a segment is asked for the totals of its own last block. -/
theorem BlockchainCache.totalsBelow_memory {parent : BlockchainCache} {rest : Lineage}
    {startIndex : Nat} {last : CachedBlockInfo} (top : parent.blockInfos.getLast? = some last)
    (start : startIndex = parent.startIndex + parent.blockInfos.length) :
    totalsBelow (.memory parent :: rest) startIndex =
      (last.cumulativeDifficulty, last.alreadyGeneratedCoins) := by
  have nonempty : 0 < parent.blockInfos.length := by
    cases infos : parent.blockInfos with
    | nil => simp [infos] at top
    | cons _ _ => simp
  have at_last : parent.blockInfos[parent.blockInfos.length - 1]? = some last := by
    rw [← getLast?_eq_getElem?, top]
  have below : ¬ startIndex - 1 < parent.startIndex := by omega
  have upTo : startIndex - 1 - parent.startIndex + 1 = parent.blockInfos.length := by omega
  have one : min 1 parent.blockInfos.length = 1 := by omega
  have unit : (getLastUnits (.memory parent :: rest) 1 (startIndex - 1) true) = [last] := by
    simp only [getLastUnits, if_neg below, upTo, one, Bool.not_true, Bool.false_and,
      Bool.false_eq_true, if_false, Nat.lt_irrefl, false_and, nil_append, drop_of_getLast? top]
    exact take_of_length_le (by simp; omega)
  have info : getBlockInfo (.memory parent :: rest) (startIndex - 1) = some last := by
    apply (if_neg below).trans
    rw [← at_last]
    exact congrArg (parent.blockInfos[·]?)
      (show startIndex - 1 - parent.startIndex = parent.blockInfos.length - 1 by omega)
  simp [totalsBelow, getLastCumulativeDifficulties, unit, getAlreadyGeneratedCoins, info]

/-- The database, asked by the first segment above it. -/
theorem HoldsChain.totalsBelow (ok : HoldsChain chain root) (top : chain.getLast? = some last) :
    totalsBelow [root] chain.length =
      (last.2.cumulativeDifficulty, last.2.alreadyGeneratedCoins) := by
  have whole : Lineage.Whole [root] := ⟨ok.fits, trivial⟩
  have chain_eq : Lineage.chain [root] = chain := by
    simp [Lineage.chain, chainOf, ok.entries]
  have nonempty : 0 < chain.length := by
    cases chain with
    | nil => cases top
    | cons _ _ => simp
  have at_last : (infos [root])[chain.length - 1]? = some last.2 := by
    rw [infos, chain_eq, getElem?_map, ← getLast?_eq_getElem?, top]
    rfl
  have unit : getLastUnits [root] 1 (chain.length - 1) true = [last.2] := by
    have length_eq : (Lineage.infos [root]).length = chain.length := by simp [chain_eq]
    have infos_last : (infos [root]).getLast? = some last.2 := by
      rw [getLast?_eq_getElem?, length_eq, at_last]
    have first : firstUnit 1 (chain.length - 1) true = (infos [root]).length - 1 := by
      simp only [firstUnit, if_true, length_eq]
      omega
    rw [getLastUnits_eq whole (by simpa using ok.units) (by rw [chain_eq]; omega) (by decide),
      lastUnits, first, slice_of_length_le (by omega), drop_of_getLast? infos_last]
  simp [BlockchainCache.totalsBelow, getLastCumulativeDifficulties, unit,
    getAlreadyGeneratedCoins, getBlockInfo_eq whole, at_last]

/-- Whoever is the parent of the next segment, it reports the totals of the last block below,
although the root has grown meanwhile. -/
theorem totalsBelow_merged {parent : Cache} {rest : Lineage}
    (whole : Lineage.Whole (parent :: rest)) (ok : HoldsChain (Lineage.chain (parent :: rest)) root)
    (top : (Lineage.chain (parent :: rest)).getLast? = some last) :
    totalsBelow ((parent :: rest).dropLast ++ [root])
      (Lineage.chain (parent :: rest)).length =
        (last.2.cumulativeDifficulty, last.2.alreadyGeneratedCoins) := by
  cases rest with
  | nil => exact ok.totalsBelow top
  | cons next more =>
    cases parent with
    | database parent =>
      exact absurd (Lineage.Whole.parents_of_database whole) (Lineage.Whole.chain_ne_nil whole.2)
    | memory parent =>
      have sound := whole.1.sound
      have start : parent.startIndex = _ := whole.1.start
      obtain ⟨own, own_last, info_last⟩ := sound.exists_last
      obtain rfl : own = last := by
        rw [Lineage.chain, chainOf, getLast?_append, own_last, some_or] at top
        exact Option.some.inj top
      apply totalsBelow_memory info_last
      rw [Lineage.chain, chainOf, length_append, length_entries sound.aligned, start]
      rfl

/-- Merging the segments of a branch puts its whole chain into the database. -/
theorem Lineage.Described.merged {lineage : Lineage} (ok : lineage.Described)
    (claims : ∀ i entry, lineage.chain[i]? = some entry → 0 < i → entry.1.Claims) :
    ∃ root, lineage.merged = some root ∧ HoldsChain lineage.chain root := by
  induction lineage with
  | nil => exact absurd rfl ok.nonempty
  | cons cache parents ih =>
    obtain ⟨⟨fits, wholeBelow⟩, ⟨outputs, -⟩, ⟨infos, -⟩, units⟩ := ok.inOrder
    obtain ⟨spent, spentBelow⟩ := ok.spent
    cases parents with
    | nil =>
      refine ⟨cache, ?_, ok.root cache rfl, ?_, fits, outputs, spent, units cache mem_cons_self⟩
      · cases cache <;> rfl
      · simp [chain, chainOf]
    | cons parent rest =>
      cases cache with
      | database cache =>
        have empty := Whole.parents_of_database ok.inOrder.whole
        exact absurd empty (Whole.chain_ne_nil wholeBelow)
      | memory cache =>
        have below : Lineage.Described (parent :: rest) := {
          inOrder := ok.inOrder.parents
          spent := spentBelow
          hashes := by
            have distinct := ok.hashes
            rw [chain, chainOf, hashesOf, map_append] at distinct
            exact (nodup_append.1 distinct).1
          nonempty := cons_ne_nil _ _
          root := fun root last => ok.root root (by simpa using last) }
        have start : cache.startIndex = (chain (parent :: rest)).length := fits.start
        have positive : 0 < (chain (parent :: rest)).length :=
          length_pos_iff.2 (Whole.chain_ne_nil wholeBelow)
        have chain_eq : chain (.memory cache :: parent :: rest) =
          chain (parent :: rest) ++ (memory cache).entries := rfl
        obtain ⟨root, merged, holds⟩ := ih below fun i entry found =>
          claims i entry (by rw [chain_eq, getElem?_append_left
            (List.getElem?_eq_some_iff.1 found).1, found])
        obtain ⟨last, top⟩ : ∃ last, (chain (parent :: rest)).getLast? = some last :=
          ⟨_, getLast?_eq_some_getLast (Whole.chain_ne_nil wholeBelow)⟩
        have continues : Continues (chain (parent :: rest))
            (memory cache).entries := {
          linked := fits.linked
          stored := fits.sound.stored
          height := by
            intro i entry found
            have positive' : 0 < (memory cache).getStartBlockIndex := by
              simpa only [getStartBlockIndex, start] using positive
            exact (fits.sound.height i entry found (by omega)).trans (congrArg (· + i) start)
          claims := by
            intro entry mem
            obtain ⟨i, found⟩ := getElem?_of_mem mem
            refine claims ((chain (parent :: rest)).length + i) entry ?_ (by omega)
            rw [chain_eq, getElem?_append_right (by omega), Nat.add_sub_cancel_left, found]
          hashes := outputs.distinct
          images := spent.distinct }
        refine ⟨mergeSegments root (parent :: rest).dropLast cache, ?_, ?_⟩
        · rw [Lineage.merged, merged]
          · rfl
          · simp
        · rw [chain_eq, mergeSegments, pushedBlocks, start,
            totalsBelow_merged wholeBelow holds top]
          refine holds.pushAll continues top fun i entry found k mem => ?_
          exact (spent.table k _).2 ⟨i, entry, found, mem, by rw [fits.start]⟩

theorem HoldsChain.described (ok : HoldsChain chain root) (hashes : (hashesOf chain).Nodup) :
    Lineage.Described [root] where
  inOrder := {
    whole := ⟨ok.fits, trivial⟩
    outputs := ⟨ok.outputs, trivial⟩
    infos := by
      cases root with
      | memory cache => exact absurd ok.database Bool.false_ne_true
      | database cache => exact ⟨trivial, trivial⟩
    units := by simpa using ok.units }
  spent := ⟨ok.spent, trivial⟩
  hashes := by simpa [Lineage.chain, chainOf, ok.entries] using hashes
  nonempty := by simp
  root := by simp [ok.database]

/-! ### The root and the main leaf -/

namespace Core

variable {core : Core}

/-- The walk from the main leaf ends at the root. -/
theorem Shape.getLast?_path_mainLeaf (shape : core.Shape) :
    (core.chainsStorage.path core.mainLeaf).getLast? = some 0 ∧
      ∃ nd, core.chainsStorage.node? 0 = some nd ∧ nd.parent = none ∧
        core.mainLineage.getLast? = some nd.value := by
  obtain ⟨root, nd, last, found, noParent, value⟩ := shape.walk.exists_last
  obtain rfl := (shape.tree.root found).1 noParent
  exact ⟨last, nd, found, noParent, value⟩

/-- The root is a leaf only when there is no other segment. -/
theorem Shape.mainLeaf_eq_zero_iff (shape : core.Shape) :
    core.mainLeaf = 0 ↔ core.chainsStorage.size = 1 := by
  have old := shape.mainLeaf_lt
  constructor
  · intro leaf
    by_contra more
    have old : 1 < core.chainsStorage.size := by omega
    obtain ⟨c, -, child⟩ := (shape.tree.wellFormed.isPath_path old).exists_child 0
      (shape.root_mem_path old) Nat.zero_ne_one
    exact shape.parent_ne_leaf (leaf ▸ shape.mainLeaf_mem) child
  · intro single
    omega

/-- The main chain runs through the root alone only when there is no other segment. -/
theorem Shape.path_mainLeaf_eq_iff (shape : core.Shape) :
    core.chainsStorage.path core.mainLeaf = [0] ↔ core.chainsStorage.size = 1 := by
  rw [← shape.mainLeaf_eq_zero_iff]
  constructor
  · intro only
    obtain ⟨rest, path_eq⟩ := shape.walk.head_eq
    rw [only] at path_eq
    exact (cons.inj path_eq).1.symm
  · intro leaf
    obtain ⟨-, nd, found, noParent, -⟩ := shape.getLast?_path_mainLeaf
    rw [leaf]
    exact (IsPath.root found noParent).path_eq

/-! ### Runs -/

/-- The call keeps the root whole, brings new transactions and spends no key image again. -/
def KeepsTables (env : Env) (core : Core) (call : Call) : Prop :=
  core.KeepsRoot env call ∧ core.FreshTransactions call ∧ core.FreshImages env call

instance (env : Env) (core : Core) : DecidablePred (core.KeepsTables env) :=
  fun _ => inferInstanceAs (Decidable (_ ∧ _ ∧ _))

variable {env : Env} {order : HashOrder} {genesis : CachedBlock} {calls : List Call}

theorem described_afterCalls (ok : Along (step env order) (KeepsTables env) (load genesis) calls) :
    (afterCalls env order genesis calls).mainLineage.Described := by
  have main := mainWhole_afterCalls (ok.mono fun _ _ meets => meets.1)
  have spent := spentOk_afterCalls (ok.mono fun _ _ meets => ⟨meets.1, meets.2.2⟩)
  obtain ⟨-, root, found, -, last⟩ := main.shape.getLast?_path_mainLeaf
  exact {
    inOrder := inOrder_afterCalls (ok.mono fun _ _ meets => ⟨meets.1, meets.2.1⟩) _
    spent := spent.lineageOk main.shape.tree.wellFormed _
    hashes := main.distinct
    nonempty := by
      intro empty
      rw [empty] at last
      cases last
    root := by
      intro cache same
      rw [last] at same
      cases same
      exact (main.shape.tree.database found).2 rfl }

/-- Above the genesis block every block of the main chain carries what it claims. -/
theorem claims_afterCalls
    (ok : Along (step env order) (KeepsTables env) (load genesis) calls) {i : Nat} {entry : Entry}
    (found : (afterCalls env order genesis calls).mainChain[i]? = some entry) (above : 0 < i) :
    entry.1.Claims := by
  have keeps := ok.mono fun _ _ meets => meets.1
  have main := mainWhole_afterCalls keeps
  have stored : entry ∈ (afterCalls env order genesis calls).allEntries :=
    mem_allEntries_of_mem_chain (mem_of_getElem? found)
  have all := forall_stored (P := fun raw => raw = ⟨genesis, []⟩ ∨ raw.Claims) (.inl rfl)
    (fun meets _ => .inr meets.2.1.claims) ok
  rcases all entry stored with first | claims
  · -- the genesis block is at height 0 and its hash does not occur again
    exfalso
    obtain ⟨nd, at_leaf⟩ := lt_size_iff.1 main.shape.mainLeaf_lt
    have head := ((anchored_afterCalls keeps).2 at_leaf).head
    rw [← main.shape.tree.wellFormed.chain_eq at_leaf, head?_eq_getElem?] at head
    obtain ⟨j, jd, at_j, held⟩ := mem_allEntries.1 stored
    have hash := ((main.shape.tree.sound at_j).stored entry held).hash
    have same : (hashesOf (afterCalls env order genesis calls).mainChain)[0]? =
        (hashesOf (afterCalls env order genesis calls).mainChain)[i]? := by
      rw [hashesOf, getElem?_map, getElem?_map, found]
      apply (congrArg _ head).trans
      simp [hash, first, genesisEntry, DatabaseBlockchainCache.genesisBlockInfo]
    have distinct := main.distinct
    have bound : i < (hashesOf (afterCalls env order genesis calls).mainChain).length := by
      rw [hashesOf, length_map]
      exact (List.getElem?_eq_some_iff.1 found).1
    exact absurd ((getElem?_inj (by omega) distinct).1 same) (by omega)
  · exact claims

end Core

/-! ### The saved core -/

/-- Deleting the branches leaves the child of the root that is on the main chain. -/
theorem SavedCore.Pruned.childrenOf_root {start : Core} {saved : SavedCore}
    (ok : Pruned start saved) (shape : start.Shape) :
    saved.core.chainsStorage.childrenOf 0 = [] ↔ start.chainsStorage.size = 1 := by
  have root := ok.mainPath 0 (shape.root_mem_path shape.mainLeaf_lt)
  rw [← shape.mainLeaf_eq_zero_iff]
  constructor
  · intro childless
    by_contra above
    obtain ⟨c, on_path, link⟩ :=
      shape.walk.exists_child 0 (shape.root_mem_path shape.mainLeaf_lt) (Ne.symm above)
    have child := (ok.children 0 root c).2 ⟨ok.mainPath c on_path, link⟩
    rw [childless] at child
    cases child
  · intro leaf
    refine eq_nil_iff_forall_not_mem.2 fun c mem => ?_
    exact shape.parent_ne_leaf (leaf ▸ shape.mainLeaf_mem) ((ok.children 0 root c).1 mem).2

/-- The core is left with the merged root; its list of children and the set of main chain
segments stay as they were before merging. -/
theorem Core.save_eq {core : Core} (linear : core.Linear)
    (merged : core.mainLineage.merged = some root) :
    ∃ saved, core.save = some saved ∧ saved.segments = [0] ∧ saved.core.chainsLeaves = [0] ∧
      saved.core.mainLineage = [root] ∧ saved.core.mainChainSet = core.mainChainSet ∧
      (saved.core.chainsStorage.childrenOf 0 = [] ↔ core.chainsStorage.size = 1) := by
  have shape := linear.shape
  obtain ⟨last, deleted, pruned, leaves⟩ :=
    (SavedCore.Pruned.init linear).deleteAlternativeChains linear
      (show _ < core.chainsStorage.size + 1 by simp)
  obtain ⟨ends, nd, found, noParent, -⟩ := shape.getLast?_path_mainLeaf
  have mainLeaf : last.core.mainLeaf = core.mainLeaf := by rw [mainLeaf, leaves]; rfl
  have path : last.core.chainsStorage.path last.core.mainLeaf =
      core.chainsStorage.path core.mainLeaf := by
    rw [mainLeaf, shape.tree.wellFormed.path_congr pruned.size pruned.parent shape.mainLeaf_lt]
  have lineage : last.core.mainLineage = core.mainLineage := by
    rw [mainLeaf] at path
    rw [mainLineage, lineage, mainLeaf, SegmentTree.lineage, path]
    exact filterMap_congr fun j _ => pruned.value j
  -- the root is still there and has no parent
  obtain ⟨ld, at_root⟩ := lt_size_iff.1 (pruned.size ▸ shape.tree.nonempty)
  have orphan : ld.parent = none := by
    have link := pruned.parent 0
    rw [parent?, parent?, at_root, found] at link
    exact link.trans noParent
  let tree := last.core.chainsStorage.setValue 0 root
  refine ⟨⟨{ last.core with chainsStorage := tree, chainsLeaves := [0] }, [0]⟩, ?_, rfl, rfl, ?_,
    pruned.mainSet, ?_⟩
  · simp only [save, deleted, bind_some, SavedCore.mergeMainChainSegments, path, ends,
      lineage, merged, map_some, tree]
  · have walk : IsPath tree 0 [0] := (IsPath.root at_root orphan).setValue root
    change (tree.path 0).filterMap tree.value? = [root]
    rw [walk.path_eq]
    simp [tree, value?_setValue_self _ root (pruned.size ▸ shape.tree.nonempty)]
  · rw [← pruned.childrenOf_root shape, childrenOf_setValue]

/-- What saving is for: the database is the only segment and the only leaf, and answers as
the main leaf did. -/
structure SavedCore.KeepsMainChain (core : Core) (saved : SavedCore) : Prop where
  segments : saved.segments = [0]
  leaves : saved.core.chainsLeaves = [0]
  answers : ∀ query : Query, query.Sensible core.mainChain ∨ core.chainsStorage.size = 1 →
    saved.core.mainLineage.answer query = core.mainLineage.answer query
  blocks : ∀ hash, saved.core.mainLineage.findBlock hash = core.mainLineage.findBlock hash
  transactions : ∀ hash, saved.core.mainLineage.any (·.hasTransaction hash) =
    core.mainLineage.any (·.hasTransaction hash)

namespace Core

variable {env : Env} {order : HashOrder} {genesis : CachedBlock} {calls : List Call}

/-- Saving keeps the main chain. It brings the children of the root and the set of main
chain segments up to date only if there is nothing to merge. -/
theorem saved_spec (ok : Along (step env order) (KeepsTables env) (load genesis) calls) :
    ∃ saved, (afterCalls env order genesis calls).save = some saved ∧
      saved.KeepsMainChain (afterCalls env order genesis calls) ∧
      (saved.core.chainsStorage.childrenOf 0 = [] ↔
        (afterCalls env order genesis calls).chainsStorage.size = 1) ∧
      (saved.core.mainChainSet = [0] ↔
        (afterCalls env order genesis calls).chainsStorage.size = 1) := by
  have linear := linear_afterCalls (ok.mono fun _ _ meets => meets.1)
  have described := described_afterCalls ok
  obtain ⟨root, merged, holds⟩ := described.merged fun _ _ found => claims_afterCalls ok found
  obtain ⟨saved, save_eq, segments, leaves, lineage, mainSet, children⟩ := save_eq linear merged
  have same : Lineage.chain [root] = (afterCalls env order genesis calls).mainLineage.chain := by
    simp [chainOf, holds.entries]
  have described' := holds.described described.hashes
  refine ⟨saved, save_eq, ?_, children, ?_⟩
  · refine ⟨segments, leaves, ?_, ?_, ?_⟩
    · rintro query (sensible | single)
      · rw [lineage]
        exact answer_congr described' described same query (same ▸ sensible)
      · -- nothing is merged: the database is the one there was
        obtain ⟨-, nd, found, noParent, -⟩ := linear.shape.getLast?_path_mainLeaf
        have alone : (afterCalls env order genesis calls).mainLineage = [nd.value] := by
          rw [mainLineage, linear.shape.mainLeaf_eq_zero_iff.2 single]
          exact (linear.shape.tree.wellFormed.lineage_eq found).trans (by rw [noParent])
        rw [alone] at merged
        rw [lineage, alone, ← some.inj merged]
    · intro hash
      rw [lineage, findBlock_congr described' described same]
    · intro hash
      rw [lineage, Bool.eq_iff_iff, any_hasTransaction_iff hash described'.inOrder,
        any_hasTransaction_iff hash described.inOrder, same]
  · rw [mainSet, linear.shape.main, linear.shape.path_mainLeaf_eq_iff]

end Core

namespace Sample

/-- A fork at height 3: the root and the block of the main chain above it are merged, the
other block is deleted. -/
theorem saved_spec_forked : ∃ saved, forkedCore.save = some saved ∧
    saved.KeepsMainChain forkedCore ∧
    (saved.core.chainsStorage.childrenOf 0 = [] ↔ forkedCore.chainsStorage.size = 1) ∧
    (saved.core.mainChainSet = [0] ↔ forkedCore.chainsStorage.size = 1) :=
  saved_spec (show Along (step env .insertion) (Core.KeepsTables env)
    (load genesis) (calls (trunk 3 ++ [next 103 2 3 [] 0])) by decide +kernel)

/-- The root keeps a child that no longer exists, and so does the set. -/
theorem not_tidy_saved_forked :
    (forkedCore.save.map fun saved => (saved.segments, saved.core.chainsLeaves,
      saved.core.chainsStorage.childrenOf 0, saved.core.mainChainSet)) =
        some ([0], [0], [1], [1, 0]) := by decide +kernel

end Sample

end DeroGold
