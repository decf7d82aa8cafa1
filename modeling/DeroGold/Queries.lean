import DeroGold.Linear
import DeroGold.Window

/-!
Questions about the blocks of a branch: hashes, ranges of raw blocks, the newest infos.

Each is answered by the segment as far as it can and passed on to the parent for the
rest. For a branch without gaps the answer is a part of the chain of all its blocks, cut
out by indexes, however the chain is divided into segments: `getBlockHash_eq`,
`getBlockHashes_eq`, `getBlocksByHeight_eq`, `getNonEmptyBlocks_eq`, `getLastUnits_eq`.

Every read of the database asks for a set of keys, and a read of no keys at all is
answered with an error; a range of blocks that is empty is such a read. A segment asked
for hashes from beyond its top reads past its vector in the source; the model gives none.
-/

namespace DeroGold

open SegmentTree Slice List Lineage

/-! ### The questions -/

/-- Append the blocks with transactions until there are enough. -/
def takeNonEmpty (blockCount : Nat) : List RawBlock → List RawBlock → List RawBlock
  | blocks, [] => blocks
  | blocks, block :: rest =>
    if blocks.length < blockCount then
      if block.transactions = [] then takeNonEmpty blockCount blocks rest
      else takeNonEmpty blockCount (blocks ++ [block]) rest
    else blocks

namespace DatabaseBlockchainCache

/-- The stored blocks are read in portions of twice the number asked for. The next
portion begins where this one ends, unless there are enough blocks already. -/
def nonEmptyPortions (rawBlocks : List RawBlock) (blockCount : Nat) :
    Nat → Nat → List RawBlock → List RawBlock
  | 0, _, orderedBlocks => orderedBlocks
  | rounds + 1, height, orderedBlocks =>
    if orderedBlocks.length < blockCount ∧ height < rawBlocks.length then
      let portion := slice rawBlocks height (height + blockCount * 2)
      nonEmptyPortions rawBlocks blockCount rounds (height + portion.length)
        (takeNonEmpty blockCount orderedBlocks portion)
    else orderedBlocks

/-- Every round reads a block, so there are no more rounds than blocks. -/
def getNonEmptyBlocks (cache : DatabaseBlockchainCache) (startHeight blockCount : Nat) :
    List RawBlock :=
  nonEmptyPortions (cache.blocks.map (·.rawBlock)) blockCount cache.blocks.length startHeight []

end DatabaseBlockchainCache

namespace Lineage

def getBlockHash (lineage : Lineage) (blockIndex : Nat) : Option Hash :=
  (lineage.getBlockInfo blockIndex).map (·.blockHash)

def getBlockHashes : Lineage → Nat → Nat → List Hash
  | [], _, _ => []
  | .database cache :: _, startIndex, maxCount =>
    let count := min (cache.getTopBlockIndex + 1 - startIndex) maxCount
    (slice (cache.blocks.map (·.info)) startIndex (startIndex + count)).map (·.blockHash)
  | .memory cache :: parents, startBlockIndex, maxCount =>
    if startBlockIndex < cache.startIndex then
      let hashes := getBlockHashes parents startBlockIndex maxCount
      let blocksLeft := min (maxCount - hashes.length) cache.blockInfos.length
      hashes ++ (slice cache.blockInfos 0 blocksLeft).map (·.blockHash)
    else
      let start := startBlockIndex - cache.startIndex
      let blocksLeft := min (cache.blockInfos.length - start) maxCount
      (slice cache.blockInfos start (start + blocksLeft)).map (·.blockHash)

/-- The blocks from one height up to, but not including, another; `none` if the source
throws. -/
def getBlocksByHeight : Lineage → Nat → Nat → Option (List RawBlock)
  | [], _, _ => none
  | .database cache :: _, startHeight, endHeight =>
    if endHeight ≤ startHeight then none
    else some (slice (cache.blocks.map (·.rawBlock)) startHeight endHeight)
  | .memory cache :: parents, startHeight, endHeight =>
    if endHeight < cache.startIndex then getBlocksByHeight parents startHeight endHeight
    else do
      let blocks ←
        if startHeight < cache.startIndex then
          getBlocksByHeight parents startHeight cache.startIndex
        else some []
      let startOffset := max startHeight cache.startIndex
      let endHeight := min endHeight (cache.startIndex + cache.storage.length)
      some (blocks ++
        slice cache.storage (startOffset - cache.startIndex) (endHeight - cache.startIndex))

/-- Throws where there is no such block. -/
def getBlockByIndex : Lineage → Nat → Option RawBlock
  | [], _ => none
  | cache :: parents, index =>
    if index < cache.getStartBlockIndex then getBlockByIndex parents index
    else cache.rawBlocks[index - cache.getStartBlockIndex]?

/-- The inner loop of `getBlocks`: the blocks down to an index, and where it stops. -/
def collectBlocks (lineage : Lineage) (minChainIndex : Nat) :
    Nat → List RawBlock → Option (List RawBlock × Nat)
  | 0, blocks =>
    if minChainIndex = 0 then (lineage.getBlockByIndex 0).map fun block => (blocks ++ [block], 0)
    else some (blocks, 0)
  | maxIndex + 1, blocks =>
    if minChainIndex ≤ maxIndex + 1 then
      (lineage.getBlockByIndex (maxIndex + 1)).bind fun block =>
        collectBlocks lineage minChainIndex maxIndex (blocks ++ [block])
    else some (blocks, maxIndex + 1)

/-- What a segment adds, if the range reaches down to it. -/
def collectOwn (minIndex : Nat) (cache : Cache) (parents : Lineage) (maxIndex : Nat)
    (blocks : List RawBlock) : Option (List RawBlock × Nat) :=
  if maxIndex ≤ cache.getTopBlockIndex then
    collectBlocks (cache :: parents) (max minIndex cache.getStartBlockIndex) maxIndex blocks
  else some (blocks, maxIndex)

/-- The outer loop, from a segment to its parents. -/
def collectDown (minIndex count : Nat) : Lineage → Nat → List RawBlock → Option (List RawBlock)
  | [], _, blocks => some blocks
  | cache :: parents, maxIndex, blocks => do
    let (blocks, maxIndex) ← collectOwn minIndex cache parents maxIndex blocks
    if blocks.length = count then some blocks else collectDown minIndex count parents maxIndex blocks

/-- `getBlocks` of the core, on the branch of its main leaf. -/
def getBlocks (lineage : Lineage) (minIndex count : Nat) : Option (List RawBlock) :=
  if 0 < count then
    let maxIndex := min (uint32 (minIndex + count - 1)) lineage.getTopBlockIndex
    (collectDown minIndex count lineage maxIndex []).map List.reverse
  else some []

/-- The first blocks with transactions from a height on. -/
def getNonEmptyBlocks : Lineage → Nat → Nat → List RawBlock
  | [], _, _ => []
  | .database cache :: _, startHeight, blockCount => cache.getNonEmptyBlocks startHeight blockCount
  | .memory cache :: parents, startHeight, blockCount =>
    if startHeight < cache.startIndex then
      let blocks := getNonEmptyBlocks parents startHeight blockCount
      if blocks.length = blockCount then blocks
      else takeNonEmpty blockCount blocks cache.storage
    else
      takeNonEmpty blockCount [] (cache.storage.drop (startHeight - cache.startIndex))

end Lineage

/-! ### The chain of a branch -/

/-- All blocks of a branch, oldest first. -/
abbrev Lineage.chain (lineage : Lineage) : List Entry := chainOf Cache.entries lineage

/-- A branch without gaps: every segment continues the chain below it. -/
abbrev Lineage.Whole (lineage : Lineage) : Prop := LineageOk Cache.entries Fits lineage

def Lineage.infos (lineage : Lineage) : List CachedBlockInfo := lineage.chain.map Prod.snd

def Lineage.raws (lineage : Lineage) : List RawBlock := lineage.chain.map Prod.fst

namespace Lineage

variable {cache : Cache} {parents lineage : Lineage}

theorem infos_cons (sound : cache.Sound) :
    infos (cache :: parents) = parents.infos ++ cache.blockInfos := by
  rw [infos, chain, chainOf, map_append, Cache.map_snd_entries sound.aligned]
  rfl

theorem raws_cons (sound : cache.Sound) :
    raws (cache :: parents) = parents.raws ++ cache.rawBlocks := by
  rw [raws, chain, chainOf, map_append, Cache.map_fst_entries sound.aligned]
  rfl

@[simp] theorem length_infos (lineage : Lineage) : lineage.infos.length = lineage.chain.length :=
  length_map _

@[simp] theorem length_raws (lineage : Lineage) : lineage.raws.length = lineage.chain.length :=
  length_map _

variable {db : DatabaseBlockchainCache}

section

variable (whole : Whole (.database db :: parents))
include whole

/-- A database is the last segment of a branch without gaps. -/
theorem Whole.parents_of_database : parents.chain = [] := length_eq_zero_iff.1 whole.1.start.symm

theorem Whole.infos_database : infos (.database db :: parents) = db.blocks.map (·.info) := by
  rw [infos_cons whole.1.sound, infos, whole.parents_of_database]
  rfl

theorem Whole.raws_database : raws (.database db :: parents) = db.blocks.map (·.rawBlock) := by
  rw [raws_cons whole.1.sound, raws, whole.parents_of_database]
  rfl

theorem Whole.topOfDatabase : db.getTopBlockIndex + 1 = db.blocks.length := by
  have length_pos := length_pos_iff.2 whole.1.sound.nonempty
  change 0 < (db.blocks.map (·.info)).length at length_pos
  rw [length_map] at length_pos
  rw [DatabaseBlockchainCache.getTopBlockIndex]
  omega

end

/-- The chain of a branch is not empty, unless the branch is. -/
theorem Whole.chain_ne_nil (whole : Whole (cache :: parents)) : chain (cache :: parents) ≠ [] := by
  intro empty
  have lengths := congrArg length empty
  rw [chain, chainOf, length_append, Cache.length_entries whole.1.sound.aligned,
    length_nil] at lengths
  exact whole.1.sound.nonempty (length_eq_zero_iff.1 (by omega))

/-- The top of a branch is the last index of its chain. -/
theorem Whole.getTopBlockIndex_eq (whole : Whole (cache :: parents)) :
    getTopBlockIndex (cache :: parents) + 1 = (chain (cache :: parents)).length := by
  have start := whole.1.start
  have top := whole.1.sound.getTopBlockIndex_eq
  rw [getTopBlockIndex, chain, chainOf, length_append]
  omega

section

variable (whole : lineage.Whole)
include whole

/-- Every block of a branch names the one before it. -/
theorem Whole.linked : lineage.chain.IsChain Entry.Linked := by
  cases lineage with
  | nil => exact isChain_nil
  | cons cache parents => exact whole.1.linked

theorem Whole.stored : ∀ entry ∈ lineage.chain, entry.Stored := by
  induction lineage with
  | nil => exact forall_mem_nil _
  | cons cache parents ih => exact forall_mem_append.2 ⟨ih whole.2, whole.1.sound.stored⟩

/-! ### Hashes -/

theorem getBlockInfo_eq (index : Nat) : lineage.getBlockInfo index = lineage.infos[index]? := by
  induction lineage with
  | nil => rfl
  | cons cache parents ih =>
    have start := whole.1.start
    rw [← length_infos] at start
    rw [getBlockInfo, infos_cons whole.1.sound, start]
    split
    · rename_i below
      rw [ih whole.2, getElem?_append_left below]
    · rename_i above
      rw [getElem?_append_right (Nat.le_of_not_lt above)]

theorem getBlockHash_eq (index : Nat) :
    lineage.getBlockHash index = lineage.infos[index]?.map (·.blockHash) := by
  rw [getBlockHash, getBlockInfo_eq whole]

/-- At most `maxCount` consecutive hashes. -/
theorem getBlockHashes_eq (startBlockIndex maxCount : Nat) :
    lineage.getBlockHashes startBlockIndex maxCount =
      (slice lineage.infos startBlockIndex (startBlockIndex + maxCount)).map (·.blockHash) := by
  induction lineage with
  | nil => simp [getBlockHashes, infos, chain, chainOf, slice]
  | cons cache parents ih =>
    cases cache with
    | database db =>
      rw [getBlockHashes, whole.infos_database, whole.topOfDatabase,
        ← length_map (f := (·.info)), slice_add_min]
    | memory cache =>
      have start : cache.startIndex = _ := whole.1.start
      rw [← length_infos] at start
      rw [infos_cons whole.1.sound]
      change _ = (slice (infos parents ++ cache.blockInfos) _ _).map _
      rw [getBlockHashes]
      split
      · rename_i below
        rw [ih whole.2, ← map_append, length_map, length_slice, slice_min]
        congr 1
        rcases Nat.le_total (startBlockIndex + maxCount) (infos parents).length with inside | across
        · rw [slice_append_left _ inside, min_eq_left inside, Nat.add_sub_cancel_left,
            Nat.sub_self, slice_zero, take_zero, append_nil]
        · rw [slice_append (by omega) across, slice_of_length_le across, slice_zero,
            min_eq_right across,
            show maxCount - ((infos parents).length - startBlockIndex) =
              startBlockIndex + maxCount - (infos parents).length by omega]
      · rename_i above
        dsimp only
        rw [slice_append_right _ (by omega), slice_add_min, start,
          show startBlockIndex - (infos parents).length + maxCount =
            startBlockIndex + maxCount - (infos parents).length by omega]

/-! ### Ranges of blocks -/

/-- A range that is not empty. -/
theorem getBlocksByHeight_eq (nonempty : lineage ≠ []) {startHeight endHeight : Nat}
    (lt : startHeight < endHeight) : lineage.getBlocksByHeight startHeight endHeight =
      some (slice lineage.raws startHeight endHeight) := by
  induction lineage generalizing endHeight with
  | nil => exact absurd rfl nonempty
  | cons cache parents ih =>
    cases cache with
    | database db =>
      rw [getBlocksByHeight, whole.raws_database, if_neg (not_le.2 lt)]
    | memory cache =>
      have start : cache.startIndex = _ := whole.1.start
      rw [← length_raws] at start
      rw [raws_cons whole.1.sound]
      change _ = some (slice (raws parents ++ cache.storage) _ _)
      have below_ne : startHeight < cache.startIndex → parents ≠ [] := by
        rintro below rfl
        rw [start] at below
        exact Nat.not_lt_zero _ below
      rw [getBlocksByHeight]
      split
      · rename_i before
        rw [ih whole.2 (below_ne (lt_trans lt before)) lt, slice_append_left _ (by omega)]
      · rename_i reaches
        have last : min endHeight (cache.startIndex + cache.storage.length) - cache.startIndex =
            min (endHeight - cache.startIndex) cache.storage.length := by omega
        by_cases below : startHeight < cache.startIndex
        · rw [if_pos below, ih whole.2 (below_ne below) below]
          apply congrArg some
          rw [max_eq_right (le_of_lt below), Nat.sub_self, slice_zero, last, start,
            slice_of_length_le (le_refl _), slice_append (by omega) (by omega),
            ← take_eq_take_min]
        · rw [if_neg below]
          apply congrArg some
          rw [max_eq_left (Nat.le_of_not_lt below), last, slice_min, nil_append, start,
            slice_append_right _ (by omega)]

end

variable {maxIndex minIndex : Nat}

/-- The blocks that the inner loop adds. -/
theorem collectBlocks_eq {raws : List RawBlock} {low : Nat}
    (found : ∀ i, low ≤ i → lineage.getBlockByIndex i = raws[i]?)
    (inside : maxIndex < raws.length) (blocks : List RawBlock) :
    lineage.collectBlocks low maxIndex blocks =
      some (blocks ++ (slice raws low (maxIndex + 1)).reverse, min maxIndex (low - 1)) := by
  induction maxIndex generalizing blocks with
  | zero =>
    rw [collectBlocks]
    split
    · rename_i zero
      rw [found 0 (by omega), getElem?_eq_getElem inside, zero, slice_succ (le_refl _) inside,
        slice_of_le (le_refl _), nil_append]
      simp
    · rw [slice_of_le (by omega)]
      simp
  | succ maxIndex ih =>
    rw [collectBlocks]
    split
    · rename_i reaches
      rw [found _ reaches, getElem?_eq_getElem inside, Option.bind_some, ih (by omega),
        slice_succ reaches inside, reverse_append, reverse_singleton, append_assoc,
        min_eq_right (by omega), min_eq_right (by omega)]
    · rw [slice_of_le (by omega), reverse_nil, append_nil, min_eq_left (by omega)]

/-- What a segment adds to the range, what is left of it for the parents, and the index from
which they go on. -/
theorem exists_collected (whole : Whole (cache :: parents))
    (reach : maxIndex < (raws (cache :: parents)).length ∨
      (raws (cache :: parents)).length ≤ minIndex) (blocks : List RawBlock) :
    ∃ found next, collectOwn minIndex cache parents maxIndex blocks =
        some (blocks ++ found.reverse, next) ∧
      slice (raws (cache :: parents)) minIndex (maxIndex + 1) =
        slice parents.raws minIndex (next + 1) ++ found ∧
      (next < parents.raws.length ∨ parents.raws.length ≤ minIndex) := by
  have start := whole.1.start
  have top := whole.getTopBlockIndex_eq
  have raws_eq : raws (cache :: parents) = parents.raws ++ cache.rawBlocks :=
    raws_cons whole.1.sound
  rw [← length_raws] at start top
  change cache.getTopBlockIndex + 1 = _ at top
  have lengths := congrArg length raws_eq
  rw [length_append] at lengths
  by_cases above : maxIndex ≤ cache.getTopBlockIndex
  · have own : ∀ i, max minIndex cache.getStartBlockIndex ≤ i →
        getBlockByIndex (cache :: parents) i = (raws (cache :: parents))[i]? := by
      intro i high
      rw [getBlockByIndex, if_neg (by omega), raws_eq, getElem?_append_right (by omega), start]
    refine ⟨_, _, by rw [collectOwn, if_pos above, collectBlocks_eq own (by omega)], ?_, by omega⟩
    rcases Nat.lt_or_ge minIndex parents.raws.length with below | past
    · have left := slice_append_left (a := minIndex) cache.rawBlocks (show min maxIndex
        (max minIndex cache.getStartBlockIndex - 1) + 1 ≤ parents.raws.length by omega)
      rw [← left, ← raws_eq, max_eq_right (by omega)]
      rcases Nat.lt_or_ge maxIndex parents.raws.length with low | high
      · rw [slice_of_le (a := cache.getStartBlockIndex) (by omega), append_nil,
          min_eq_left (by omega)]
      · rw [min_eq_right (by omega), Nat.sub_add_cancel (by omega),
          slice_append_slice _ (by omega) (by omega)]
    · rw [slice_eq_take_drop parents.raws, drop_eq_nil_of_le past, take_nil, nil_append,
        max_eq_left (by omega)]
  · refine ⟨[], maxIndex, by rw [collectOwn, if_neg above, reverse_nil, append_nil], ?_, by omega⟩
    simp only [slice_eq_take_drop, drop_eq_nil_of_le (show parents.raws.length ≤ minIndex by omega),
      drop_eq_nil_of_le (show (raws (cache :: parents)).length ≤ minIndex by omega), take_nil,
      append_nil]

/-- What is still missing of the range is collected, as long as it is asked for. -/
theorem collectDown_eq (whole : lineage.Whole) {count : Nat} {blocks : List RawBlock}
    (room : blocks.length + (slice lineage.raws minIndex (maxIndex + 1)).length ≤ count)
    (reach : maxIndex < lineage.raws.length ∨ lineage.raws.length ≤ minIndex) :
    lineage.collectDown minIndex count maxIndex blocks =
      some (blocks ++ (slice lineage.raws minIndex (maxIndex + 1)).reverse) := by
  induction lineage generalizing maxIndex blocks with
  | nil => simp [collectDown, raws, chain, chainOf, slice]
  | cons cache parents ih =>
    obtain ⟨found, next, turn, parts, reach'⟩ := exists_collected whole reach blocks
    rw [parts, length_append] at room
    rw [collectDown, turn, parts, reverse_append]
    change (if (blocks ++ found.reverse).length = count then _ else _) = _
    split
    · rename_i full
      rw [length_append, length_reverse] at full
      rw [length_eq_zero_iff.1 (show (slice (raws parents) minIndex (next + 1)).length = 0 by omega),
        reverse_nil, append_nil]
    · rw [ih whole.2 (by rw [length_append, length_reverse]; omega) reach', append_assoc]

/-- The main chain's blocks from an index on, as many as there are up to the number asked
for, each once and in order. -/
theorem getBlocks_eq (whole : lineage.Whole) (nonempty : lineage ≠ []) {minIndex count : Nat}
    (fits : minIndex + count < 2 ^ 32) :
    lineage.getBlocks minIndex count = some (slice lineage.raws minIndex (minIndex + count)) := by
  obtain ⟨cache, parents, rfl⟩ := exists_cons_of_ne_nil nonempty
  have top := whole.getTopBlockIndex_eq
  rw [← length_raws] at top
  rw [getBlocks]
  split
  · rename_i some_asked
    dsimp only
    rw [uint32_of_lt (by omega), collectDown_eq whole _ (by omega), nil_append, Option.map_some,
      reverse_reverse, ← slice_min _ _ (minIndex + count)]
    · congr 2
      omega
    · rw [length_slice, length_nil]
      omega
  · rename_i none_asked
    rw [slice_of_le (by omega)]

/-- After a fork above the database. -/
theorem getBlocks_eq_fork : let lineage := (Core.afterCalls Sample.env .insertion Sample.genesis
      (Sample.calls (Sample.trunk 3 ++ [Sample.next 103 2 3 [] 0]))).mainLineage
    lineage.length = 2 ∧ lineage.getBlocks 1 3 = some (slice lineage.raws 1 4) := by
  intro lineage
  have keeps : TransitionSystem.Along (Core.step Sample.env .insertion) (Core.KeepsRoot Sample.env)
      (Core.load Sample.genesis) (Sample.calls (Sample.trunk 3 ++ [Sample.next 103 2 3 [] 0])) := by
    decide +kernel
  have linear := Core.linear_afterCalls keeps
  have two : lineage.length = 2 := by decide +kernel
  have nonempty : lineage ≠ [] := fun empty => absurd two (by rw [empty]; decide)
  exact ⟨two, getBlocks_eq (linear.fits.lineageOk linear.shape.tree.wellFormed _) nonempty
    (by decide)⟩

end Lineage

/-! ### Blocks with transactions -/

/-- The blocks that carry transactions besides their coinbase. -/
def nonEmptyBlocks (blocks : List RawBlock) : List RawBlock :=
  blocks.filter fun block => decide (block.transactions ≠ [])

theorem nonEmptyBlocks_append (xs ys : List RawBlock) :
    nonEmptyBlocks (xs ++ ys) = nonEmptyBlocks xs ++ nonEmptyBlocks ys := filter_append _ _

theorem takeNonEmpty_eq (count : Nat) (rest : List RawBlock) : ∀ blocks : List RawBlock,
    takeNonEmpty count blocks rest =
      blocks ++ (nonEmptyBlocks rest).take (count - blocks.length) := by
  induction rest with
  | nil =>
    intro blocks
    simp [takeNonEmpty, nonEmptyBlocks]
  | cons block rest ih =>
    intro blocks
    rw [takeNonEmpty]
    split
    · rename_i room
      split
      · rename_i empty
        have passed_over : nonEmptyBlocks (block :: rest) = nonEmptyBlocks rest :=
          filter_cons_of_neg (by simp [empty])
        rw [ih, passed_over]
      · rename_i carries
        have kept : nonEmptyBlocks (block :: rest) = block :: nonEmptyBlocks rest :=
          filter_cons_of_pos (by simp [carries])
        rw [ih, kept, length_append, length_singleton, append_assoc,
          singleton_append, ← take_succ_cons]
        congr 2
        omega
    · rename_i full
      rw [Nat.sub_eq_zero_of_le (Nat.le_of_not_lt full), take_zero, append_nil]

/-- Going on from a portion is going through both lists. -/
theorem take_append_of_take {α : Type} (ordered xs ys : List α) (n : Nat) :
    (ordered ++ xs.take (n - ordered.length)) ++
        ys.take (n - (ordered ++ xs.take (n - ordered.length)).length) =
      ordered ++ (xs ++ ys).take (n - ordered.length) := by
  rw [append_assoc, take_append, length_append, length_take]
  congr 3
  omega

theorem DatabaseBlockchainCache.nonEmptyPortions_eq (rawBlocks : List RawBlock) (count : Nat)
    (rounds height : Nat) (orderedBlocks : List RawBlock)
    (enough : rawBlocks.length - height ≤ rounds) :
    nonEmptyPortions rawBlocks count rounds height orderedBlocks =
      orderedBlocks ++
        (nonEmptyBlocks (rawBlocks.drop height)).take (count - orderedBlocks.length) := by
  induction rounds generalizing height orderedBlocks with
  | zero =>
    rw [nonEmptyPortions, drop_eq_nil_of_le (by omega)]
    simp [nonEmptyBlocks]
  | succ rounds ih =>
    rw [nonEmptyPortions]
    split
    · rename_i goes_on
      have length_eq := length_slice rawBlocks height (height + count * 2)
      rw [ih _ _ (by omega), takeNonEmpty_eq, take_append_of_take, ← nonEmptyBlocks_append,
        slice_append_drop]
    · rename_i done
      rcases Nat.lt_or_ge orderedBlocks.length count with room | full
      · rw [drop_eq_nil_of_le (by omega)]
        simp [nonEmptyBlocks]
      · rw [Nat.sub_eq_zero_of_le full, take_zero, append_nil]

namespace Lineage

variable {lineage : Lineage}

theorem getNonEmptyBlocks_eq (whole : lineage.Whole) (startHeight blockCount : Nat) :
    lineage.getNonEmptyBlocks startHeight blockCount =
      (nonEmptyBlocks (lineage.raws.drop startHeight)).take blockCount := by
  induction lineage with
  | nil => simp [getNonEmptyBlocks, raws, chain, chainOf, nonEmptyBlocks]
  | cons cache parents ih =>
    cases cache with
    | database db =>
      rw [getNonEmptyBlocks, DatabaseBlockchainCache.getNonEmptyBlocks, whole.raws_database,
        DatabaseBlockchainCache.nonEmptyPortions_eq _ _ _ _ _ (by rw [length_map]; omega)]
      rfl
    | memory cache =>
      have start : cache.startIndex = _ := whole.1.start
      rw [← length_raws] at start
      rw [raws_cons whole.1.sound]
      change _ = (nonEmptyBlocks ((raws parents ++ cache.storage).drop _)).take _
      rw [getNonEmptyBlocks, start]
      split
      · rename_i below
        rw [ih whole.2, drop_append_of_le_length (le_of_lt below),
          nonEmptyBlocks_append, take_append]
        dsimp only
        split
        · rename_i full
          rw [length_take] at full
          rw [Nat.sub_eq_zero_of_le (by omega), take_zero, append_nil]
        · rename_i room
          rw [takeNonEmpty_eq]
          rw [length_take] at room ⊢
          congr 2
          omega
      · rename_i above
        rw [takeNonEmpty_eq, drop_append, drop_eq_nil_of_le (Nat.le_of_not_lt above), nil_append]
        rfl

end Lineage

/-! ### The newest infos -/

/-- Index of the first of the last `count` infos up to a block index; the genesis block
is left out unless it is to be used. -/
def firstUnit (count blockIndex : Nat) (useGenesis : Bool) : Nat :=
  max (blockIndex + 1 - count) (if useGenesis then 0 else 1)

/-- The last `count` infos up to a block index. -/
def lastUnits (infos : List CachedBlockInfo) (count blockIndex : Nat) (useGenesis : Bool) :
    List CachedBlockInfo :=
  slice infos (firstUnit count blockIndex useGenesis) (blockIndex + 1)

namespace DatabaseBlockchainCache

variable {cache : DatabaseBlockchainCache} {cacheStart index : Nat}

/-- The units cache serves the part of the request that lies in it. -/
theorem getLastCachedUnits_eq
    (units : cache.unitsCache = (cache.blocks.map (·.info)).drop cacheStart)
    (start_le : cacheStart ≤ cache.blocks.length) (inside : index < cache.blocks.length)
    (count : Nat) (useGenesis : Bool) : cache.getLastCachedUnits index count useGenesis =
      slice (cache.blocks.map (·.info)) (max cacheStart (firstUnit count index useGenesis))
        (index + 1) := by
  have length_eq : cache.unitsCache.length = cache.blocks.length - cacheStart := by
    rw [units, length_drop, length_map]
  have start_eq : cache.getTopBlockIndex + 1 - cache.unitsCache.length = cacheStart := by
    rw [getTopBlockIndex, length_eq]
    omega
  unfold getLastCachedUnits
  dsimp only
  rw [start_eq, length_eq, units]
  by_cases unserved : index < cacheStart ∨ min (cache.blocks.length - cacheStart) count = 0
  · have low : index + 1 - count ≤ firstUnit count index useGenesis := Nat.le_max_left _ _
    rw [if_pos unserved, slice_of_le (by omega)]
  · rw [if_neg unserved]
    have taken : min (index - cacheStart + 1) (min (cache.blocks.length - cacheStart) count) =
        min (index + 1 - cacheStart) count := by omega
    rw [taken]
    split
    · rename_i genesis
      obtain ⟨skips, rfl, whole⟩ := genesis
      have first_eq : firstUnit count index useGenesis = 1 := by
        simp only [Bool.not_eq_true'] at skips
        simp only [firstUnit, skips]
        simp
        omega
      rw [first_eq, slice_eq_take_drop, drop_zero]
      congr 1
      omega
    · rename_i other
      have first_eq : cacheStart +
          (index + 1 - min (index + 1 - cacheStart) count - cacheStart) =
            max cacheStart (firstUnit count index useGenesis) := by
        cases useGenesis with
        | true =>
          simp only [firstUnit, if_true]
          omega
        | false =>
          simp only [firstUnit, Bool.false_eq_true, if_false]
          simp only [Bool.not_false, true_and, not_and] at other
          omega
      rw [drop_drop, first_eq, slice_eq_take_drop, ← first_eq]
      congr 1
      omega

/-- What the database stores from a block index downwards. -/
theorem getLastDbUnits_eq (index : Nat) {count : Nat} (small : count < 2 ^ 32) (useGenesis : Bool) :
    cache.getLastDbUnits index count useGenesis =
      lastUnits (cache.blocks.map (·.info)) count index useGenesis := by
  have first_eq : (if index + 1 - min (index + 1) count = 0 ∧ (!useGenesis) = true then 1
      else index + 1 - min (index + 1) count) = firstUnit count index useGenesis := by
    cases useGenesis with
    | true =>
      simp only [firstUnit, Bool.not_true, Bool.false_eq_true, and_false, if_false, if_true]
      omega
    | false =>
      simp only [firstUnit, Bool.not_false, and_true, Bool.false_eq_true, if_false]
      split <;> omega
  unfold getLastDbUnits
  dsimp only
  rw [uint32_of_lt small, first_eq, lastUnits, slice_eq_take_drop]

/-- Cache and rows together serve the whole request. -/
theorem getLastUnits_eq (units : cache.unitsCache <:+ cache.blocks.map (·.info))
    (inside : index < cache.blocks.length) {count : Nat} (small : count < 2 ^ 32)
    (useGenesis : Bool) : cache.getLastUnits count index useGenesis =
      lastUnits (cache.blocks.map (·.info)) count index useGenesis := by
  obtain ⟨older, parts⟩ := units
  have units : cache.unitsCache = (cache.blocks.map (·.info)).drop older.length := by
    rw [← parts, drop_left]
  have start_le : older.length ≤ cache.blocks.length := by
    have lengths := congrArg length parts
    rw [length_append, length_map] at lengths
    omega
  unfold getLastUnits
  dsimp only
  rw [getLastCachedUnits_eq units start_le inside, length_slice, length_map,
    min_eq_left inside, getLastDbUnits_eq _ (by omega)]
  have available : (if useGenesis = true then index + 1 else index) =
      index + 1 - (if useGenesis = true then 0 else 1) := by
    cases useGenesis <;> rfl
  rw [available]
  simp only [lastUnits]
  have first_eq : ∀ count index, firstUnit count index useGenesis =
      max (index + 1 - count) (if useGenesis = true then 0 else 1) := fun _ _ => rfl
  generalize (if useGenesis = true then 0 else 1 : Nat) = lowest at first_eq
  simp only [first_eq]
  generalize cut_eq : max older.length (max (index + 1 - count) lowest) = cut
  rcases Nat.lt_or_ge index cut with unserved | served
  · -- nothing of the request lies in the cache
    rw [slice_of_le unserved, Nat.sub_eq_zero_of_le unserved, Nat.sub_zero, Nat.sub_zero,
      Nat.sub_zero, append_nil]
    split
    · rw [slice_of_le (by omega)]
    · rfl
  · split
    · -- the cache holds all of it
      rw [show max (index + 1 - count) lowest = cut by omega]
    · rw [show index - (index + 1 - cut) + 1 = cut by omega,
        show max (cut - (count - (index + 1 - cut))) lowest =
          max (index + 1 - count) lowest by omega,
        slice_append_slice _ (by omega) (by omega)]

end DatabaseBlockchainCache

namespace Lineage

/-- A segment without a parent. -/
theorem getLastUnits_root {cache : BlockchainCache} (start : cache.startIndex = 0)
    (count index : Nat) (useGenesis : Bool) :
    getLastUnits [.memory cache] count index useGenesis =
      lastUnits cache.blockInfos count index useGenesis := by
  have first_eq : (if (!useGenesis && decide (index + 1 - min count (index + 1) = 0)
      && decide (min count (index + 1) ≠ 0)) = true
      then index + 1 - min count (index + 1) + 1
      else index + 1 - min count (index + 1)) = firstUnit count index useGenesis := by
    cases useGenesis with
    | true =>
      simp only [firstUnit, Bool.not_true, Bool.false_and, Bool.false_eq_true, if_false, if_true]
      omega
    | false =>
      simp only [firstUnit, Bool.not_false, Bool.true_and, Bool.and_eq_true,
        decide_eq_true_eq, Bool.false_eq_true, if_false]
      split <;> omega
  simp only [getLastUnits, start, Nat.not_lt_zero, if_false, Nat.sub_zero, isEmpty_nil,
    Bool.and_true, not_true_eq_false, and_false, nil_append, first_eq]
  rw [lastUnits, slice_eq_take_drop]

/-- A segment serves its own part and asks the parent for the rest. -/
theorem getLastUnits_eq {lineage : Lineage} (whole : lineage.Whole)
    (units : ∀ cache ∈ lineage, cache.UnitsOk) {index : Nat}
    (inside : index < lineage.chain.length) {count : Nat} (small : count < 2 ^ 32)
    (useGenesis : Bool) : lineage.getLastUnits count index useGenesis =
      lastUnits lineage.infos count index useGenesis := by
  induction lineage generalizing index count with
  | nil => exact absurd inside (Nat.not_lt_zero _)
  | cons cache parents ih =>
    have unitsBelow := (forall_mem_cons.1 units).2
    rw [← length_infos] at inside
    cases cache with
    | database db =>
      rw [whole.infos_database] at inside ⊢
      rw [length_map] at inside
      exact DatabaseBlockchainCache.getLastUnits_eq (units _ mem_cons_self) inside small
        useGenesis
    | memory cache =>
      have start : cache.startIndex = _ := whole.1.start
      rw [← length_infos] at start
      rw [infos_cons whole.1.sound] at inside ⊢
      have own : (Cache.memory cache).blockInfos = cache.blockInfos := rfl
      rw [own, length_append] at inside
      rw [own, getLastUnits]
      cases parents with
      | nil =>
        exact getLastUnits_root start count index useGenesis
      | cons parent rest =>
        have top := Whole.getTopBlockIndex_eq whole.2
        have low : min index (getTopBlockIndex (parent :: rest)) <
          (chain (parent :: rest)).length := by omega
        rw [← length_infos] at top
        have low_eq : ∀ count index, firstUnit count index useGenesis =
          max (index + 1 - count) (if useGenesis then 0 else 1) := fun _ _ => rfl
        have lowest_le : (if useGenesis then 0 else 1 : Nat) ≤ 1 := by split <;> decide
        generalize (if useGenesis then 0 else 1 : Nat) = lowest at low_eq lowest_le
        simp only [isEmpty_cons, Bool.and_false, Bool.false_eq_true, if_false,
          not_false_eq_true, and_true, start]
        have below_eq : ∀ own, (getLastUnits (parent :: rest) (count - own)
            (min index (getTopBlockIndex (parent :: rest))) useGenesis) =
            slice (infos (parent :: rest)) (max (min index (getTopBlockIndex
              (parent :: rest)) + 1 - (count - own)) lowest)
              (min index (getTopBlockIndex (parent :: rest)) + 1) := by
          intro own
          rw [ih whole.2 unitsBelow low (by omega), lastUnits, low_eq]
        simp only [below_eq]
        clear ih below_eq low
        generalize getTopBlockIndex (parent :: rest) = parentTop at *
        generalize infos (parent :: rest) = below at *
        rw [lastUnits, low_eq]
        rcases Nat.lt_or_ge index below.length with under | past
        · -- the request ends below the segment
          simp only [if_pos under, Nat.min_zero, Nat.sub_zero, Nat.sub_self, take_zero,
            append_nil, drop_zero, min_eq_left (show index ≤ parentTop by omega)]
          rw [slice_append_left _ (by omega)]
          split
          · rfl
          · rw [slice_of_le (by omega)]
        · have reach : min index parentTop + 1 = below.length := by omega
          simp only [if_neg (not_lt.2 past), reach]
          rcases Nat.lt_or_ge (index - below.length + 1) count with more | enough
          · rw [min_eq_right (le_of_lt more), if_pos more, Nat.sub_self, drop_zero,
              Nat.sub_zero, slice_of_length_le (le_refl _),
              slice_append (by omega) (by omega),
              show index - below.length + 1 = index + 1 - below.length by omega,
              show below.length - (count - (index + 1 - below.length)) = index + 1 - count by omega]
          · rw [min_eq_left enough, if_neg (lt_irrefl _), nil_append,
              max_eq_left (by omega), slice_append_right _ (by omega), slice_eq_take_drop,
              show index - below.length + 1 = index + 1 - below.length by omega,
              show index + 1 - below.length - count = index + 1 - count - below.length by omega]

end Lineage

end DeroGold
