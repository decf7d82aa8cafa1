import DeroGold.CacheUpdate
import DeroGold.Lib.Slice
import Mathlib.Data.List.Chain

/-!
What a segment stores, block by block, and what pushing and splitting do to it.

`Cache.entries` pairs the raw blocks of a segment with their infos. `Cache.Sound`
says that a segment's own entries fit together; it mentions no parent, so it holds
of every segment at any time. `pushBlock` appends one entry (`entries_pushBlock`) and
`split` cuts the entries in two (`split_entries`), also for the database, whose upper
half is rebuilt from differences of running totals.
-/

namespace DeroGold

open List Option DatabaseBlockchainCache Cache

/-- A stored block and its info. -/
abbrev Entry := RawBlock × CachedBlockInfo

/-- The info repeats the block's hash and timestamp, and its totals are machine words. -/
structure Entry.Stored (entry : Entry) : Prop where
  hash : entry.2.blockHash = entry.1.block.blockHash
  timestamp : entry.2.timestamp = entry.1.block.timestamp
  difficulty_lt : entry.2.cumulativeDifficulty < 2 ^ 64
  coins_lt : entry.2.alreadyGeneratedCoins < 2 ^ 64
  size_lt : entry.2.blockSize < 2 ^ 32

/-- A stored block on top of another one. -/
structure Entry.Linked (below entry : Entry) : Prop where
  previous : entry.1.block.previousBlockHash = below.2.blockHash
  transactions : entry.2.alreadyGeneratedTransactions =
    uint64 (below.2.alreadyGeneratedTransactions + entry.1.cachedTransactions.length + 1)

namespace Cache

def entries (cache : Cache) : List Entry := cache.rawBlocks.zip cache.blockInfos

/-- A segment's own entries fit together. The claimed height of the genesis block is
not looked at. -/
structure Sound (cache : Cache) : Prop where
  aligned : cache.rawBlocks.length = cache.blockInfos.length
  nonempty : cache.blockInfos ≠ []
  stored : ∀ entry ∈ cache.entries, entry.Stored
  linked : cache.entries.IsChain Entry.Linked
  height : ∀ i entry, cache.entries[i]? = some entry → 0 < cache.getStartBlockIndex + i →
    entry.1.block.getBlockIndex = cache.getStartBlockIndex + i

variable {cache : Cache}

theorem map_fst_entries (h : cache.rawBlocks.length = cache.blockInfos.length) :
    cache.entries.map Prod.fst = cache.rawBlocks :=
  map_fst_zip (le_of_eq h)

theorem map_snd_entries (h : cache.rawBlocks.length = cache.blockInfos.length) :
    cache.entries.map Prod.snd = cache.blockInfos :=
  map_snd_zip (le_of_eq h.symm)

theorem length_entries (h : cache.rawBlocks.length = cache.blockInfos.length) :
    cache.entries.length = cache.blockInfos.length := by
  rw [entries, length_zip, h, Nat.min_self]

end Cache

/-! ### What a push appends -/

/-- A projection that every round of a loop keeps is kept by the loop. -/
theorem foldl_keeps {α β γ : Type} {f : β → α → β} {g : β → γ} (kept : ∀ b a, g (f b a) = g b)
    (xs : List α) (b : β) : g (xs.foldl f b) = g b := by
  induction xs generalizing b with
  | nil => rfl
  | cons x xs ih => rw [foldl_cons, ih, kept]

namespace BlockchainCache

variable (parents : Lineage) (cache : BlockchainCache) (pushed : PushedBlockInfo)

@[simp] theorem startIndex_pushBlock :
    (cache.pushBlock parents pushed).startIndex = cache.startIndex := by
  unfold pushBlock
  exact foldl_keeps (g := startIndex) (fun cache tx => by rfl) _ _

@[simp] theorem blockInfos_pushBlock : (cache.pushBlock parents pushed).blockInfos =
      cache.blockInfos ++ [cache.nextInfo parents pushed] := by
  unfold pushBlock
  exact foldl_keeps (g := blockInfos) (fun cache tx => by rfl) _ _

@[simp] theorem storage_pushBlock :
    (cache.pushBlock parents pushed).storage = cache.storage ++ [pushed.rawBlock] := by
  unfold pushBlock
  exact foldl_keeps (g := storage) (fun cache tx => by rfl) _ _

@[simp] theorem spentKeyImages_pushBlock : (cache.pushBlock parents pushed).spentKeyImages =
      pushed.spentKeyImages.foldl (fun table keyImage =>
        addSpentKeyImage table keyImage pushed.rawBlock.block.getBlockIndex)
        cache.spentKeyImages := by
  unfold pushBlock
  exact foldl_keeps (g := spentKeyImages) (fun cache tx => by rfl) _ _

end BlockchainCache

namespace DatabaseBlockchainCache

variable (cache : DatabaseBlockchainCache) (pushed : PushedBlockInfo)

/-- Info of the block pushed next. -/
def nextInfo : CachedBlockInfo :=
  match cache.blocks.getLast? with
  | some last => last.info.next pushed
  | none => nextBlockInfo 0 0 0 pushed

/-- Row of the block pushed next. -/
def nextRow : BlockRow where
  info := cache.nextInfo pushed
  rawBlock := pushed.rawBlock
  transactionHashes := pushed.rawBlock.block.baseTransaction.transactionHash ::
    pushed.rawBlock.block.transactionHashes
  spentKeyImages := pushed.spentKeyImages

@[simp] theorem blocks_pushBlock :
    (cache.pushBlock pushed).blocks = cache.blocks ++ [cache.nextRow pushed] := by
  unfold pushBlock
  exact foldl_keeps (g := blocks) (fun cache tx => by rfl) _ _

@[simp] theorem unitsCache_pushBlock : (cache.pushBlock pushed).unitsCache =
      if unitsCacheSize < (cache.unitsCache ++ [cache.nextInfo pushed]).length then
        (cache.unitsCache ++ [cache.nextInfo pushed]).drop 1
      else cache.unitsCache ++ [cache.nextInfo pushed] := by
  unfold pushBlock
  exact foldl_keeps (g := unitsCache) (fun cache tx => by rfl) _ _

@[simp] theorem spentKeyImages_pushBlock : (cache.pushBlock pushed).spentKeyImages =
      pushed.spentKeyImages.foldl (fun table keyImage =>
        Function.update table keyImage (some (cache.getTopBlockIndex + 1)))
        cache.spentKeyImages := by
  unfold pushBlock
  exact foldl_keeps (g := spentKeyImages) (fun cache tx => by rfl) _ _

end DatabaseBlockchainCache

namespace Cache

/-- Info that a push adds to a segment. -/
def nextInfo (parents : Lineage) (cache : Cache) (pushed : PushedBlockInfo) : CachedBlockInfo :=
  match cache with
  | .memory cache => cache.nextInfo parents pushed
  | .database cache => cache.nextInfo pushed

variable {parents : Lineage} {cache : Cache} {pushed : PushedBlockInfo}

@[simp] theorem getStartBlockIndex_pushBlock :
    (cache.pushBlock parents pushed).getStartBlockIndex = cache.getStartBlockIndex := by
  cases cache <;> simp [pushBlock, getStartBlockIndex]

@[simp] theorem blockInfos_pushBlock : (cache.pushBlock parents pushed).blockInfos =
      cache.blockInfos ++ [cache.nextInfo parents pushed] := by
  cases cache with
  | memory cache => exact cache.blockInfos_pushBlock parents pushed
  | database cache => simp [pushBlock, blockInfos, nextInfo, nextRow]

@[simp] theorem rawBlocks_pushBlock :
    (cache.pushBlock parents pushed).rawBlocks = cache.rawBlocks ++ [pushed.rawBlock] := by
  cases cache with
  | memory cache => exact cache.storage_pushBlock parents pushed
  | database cache => simp [pushBlock, rawBlocks, nextRow]

theorem entries_pushBlock (parents : Lineage) (pushed : PushedBlockInfo)
    (h : cache.rawBlocks.length = cache.blockInfos.length) :
    (cache.pushBlock parents pushed).entries =
      cache.entries ++ [(pushed.rawBlock, cache.nextInfo parents pushed)] := by
  rw [entries, rawBlocks_pushBlock, blockInfos_pushBlock, zip_append h]
  rfl

/-- Above a block of the same segment the totals of that block are continued. -/
theorem nextInfo_eq_next {last : CachedBlockInfo} (h : cache.blockInfos.getLast? = some last) :
    cache.nextInfo parents pushed = last.next pushed := by
  cases cache with
  | memory cache =>
    simp only [blockInfos] at h
    simp only [nextInfo, BlockchainCache.nextInfo, h]
  | database cache =>
    simp only [blockInfos, getLast?_map, map_eq_some_iff] at h
    obtain ⟨row, found, rfl⟩ := h
    simp only [nextInfo, DatabaseBlockchainCache.nextInfo, found]

/-! ### Pushing keeps a segment sound -/

theorem stored_nextInfo (parents : Lineage) (cache : Cache) (pushed : PushedBlockInfo) :
    Entry.Stored (pushed.rawBlock, cache.nextInfo parents pushed) := by
  have stored_nextBlockInfo : ∀ a b c,
      Entry.Stored (pushed.rawBlock, nextBlockInfo a b c pushed) := fun _ _ _ =>
    ⟨rfl, rfl, uint64_lt _, uint64_lt _, uint32_lt _⟩
  cases cache with
  | memory cache | database cache =>
    simp only [nextInfo, BlockchainCache.nextInfo, DatabaseBlockchainCache.nextInfo]
    split
    · exact ⟨rfl, rfl, uint64_lt _, uint64_lt _, uint32_lt _⟩
    · exact stored_nextBlockInfo _ _ _

theorem Sound.entries_ne_nil (sound : Sound cache) : cache.entries ≠ [] := by
  rw [← length_pos_iff, length_entries sound.aligned]
  exact length_pos_iff.2 sound.nonempty

theorem Sound.exists_last (sound : Sound cache) :
    ∃ last, cache.entries.getLast? = some last ∧ cache.blockInfos.getLast? = some last.2 := by
  have found := getLast?_eq_some_getLast sound.entries_ne_nil
  refine ⟨_, found, ?_⟩
  rw [← map_snd_entries sound.aligned, getLast?_map, found]
  rfl

theorem Sound.getTopBlockIndex_eq (sound : Sound cache) :
    cache.getTopBlockIndex + 1 = cache.getStartBlockIndex + cache.entries.length := by
  have length_pos := length_pos_iff.2 sound.nonempty
  rw [getTopBlockIndex, length_entries sound.aligned, sound.aligned]
  omega

theorem Sound.getTopBlockIndex_rawBlocks (sound : Sound cache) :
    cache.getTopBlockIndex + 1 = cache.getStartBlockIndex + cache.rawBlocks.length := by
  rw [sound.getTopBlockIndex_eq, length_entries sound.aligned, sound.aligned]

/-- A block found in a segment by its hash, with its entry. -/
theorem Sound.exists_entry (sound : Sound cache) {hash : Hash} (holds : cache.hasBlock hash = true) :
    ∃ entry, cache.entries[cache.getBlockIndex hash - cache.getStartBlockIndex]? = some entry ∧
      entry.2.blockHash = hash ∧ cache.getStartBlockIndex ≤ cache.getBlockIndex hash ∧
      cache.getBlockIndex hash ≤ cache.getTopBlockIndex := by
  have top := sound.getTopBlockIndex_eq
  rw [hasBlock, List.any_eq_true] at holds
  have inside := findIdx_lt_length_of_exists holds
  have length_eq := length_entries sound.aligned
  simp only [getBlockIndex]
  generalize position_eq : cache.blockInfos.findIdx (fun info => info.blockHash == hash) = position
    at inside
  have matching : (cache.blockInfos[position].blockHash == hash) = true := by
    subst position_eq
    exact findIdx_getElem (w := inside)
  refine ⟨cache.entries[position], ?_, ?_, by omega, by omega⟩
  · rw [Nat.add_sub_cancel_left]
    exact getElem?_eq_getElem (by omega)
  · have info_eq : cache.entries[position].2 = cache.blockInfos[position] := by
      simp only [entries, getElem_zip]
    rw [info_eq]
    exact eq_of_beq matching

/-- A block on top of a sound segment, at the next height. -/
theorem Sound.pushBlock (sound : Sound cache) {last : Entry}
    (top : cache.entries.getLast? = some last)
    (previous : pushed.rawBlock.block.previousBlockHash = last.2.blockHash)
    (index : pushed.rawBlock.block.getBlockIndex = cache.getTopBlockIndex + 1) :
    Sound (cache.pushBlock parents pushed) := by
  obtain ⟨last', top', lastInfo⟩ := sound.exists_last
  obtain rfl := some.inj (top.symm.trans top')
  have appended := entries_pushBlock parents pushed sound.aligned
  refine ⟨?_, ?_, ?_, ?_, ?_⟩
  · simp [sound.aligned]
  · simp
  · rw [appended]
    exact forall_mem_append.2
      ⟨sound.stored, forall_mem_singleton.2 (stored_nextInfo parents cache pushed)⟩
  · rw [appended]
    refine isChain_append.2 ⟨sound.linked, isChain_singleton _, ?_⟩
    intro below mem entry mem'
    cases top.symm.trans mem
    cases mem'
    rw [nextInfo_eq_next lastInfo]
    exact ⟨previous, rfl⟩
  · intro i entry found later
    rw [getStartBlockIndex_pushBlock] at later ⊢
    rw [appended] at found
    rcases Slice.getElem?_concat_eq_some.1 found with old | ⟨rfl, rfl⟩
    · exact sound.height i entry old later
    · have top_eq := sound.getTopBlockIndex_eq
      simp only
      omega

/-- The totals of a new segment's first block continue those of its predecessor. -/
theorem nextInfo_create {head : Cache} {rest : Lineage} {previous : Nat} {parent : Entry}
    (sound : head.Sound) (start_le : head.getStartBlockIndex ≤ previous)
    (parent_at : head.entries[previous - head.getStartBlockIndex]? = some parent)
    (index : pushed.rawBlock.block.getBlockIndex = previous + 1) (start : Nat) :
    (memory (.create start)).nextInfo (head :: rest) pushed = parent.2.next pushed := by
  have info_at : head.blockInfos[previous - head.getStartBlockIndex]? = some parent.2 := by
    rw [← map_snd_entries sound.aligned, getElem?_map, parent_at]
    rfl
  have not_lt : ¬ previous < head.getStartBlockIndex := Nat.not_lt.2 start_le
  simp only [nextInfo, BlockchainCache.nextInfo, BlockchainCache.create, getLast?_nil,
    Lineage.parentCumulativeDifficulty, Lineage.getAlreadyGeneratedCoins,
    Lineage.getAlreadyGeneratedTransactions, Lineage.getBlockInfo, getCachedBlockInfo,
    index, Nat.add_sub_cancel, if_neg not_lt, info_at, map_some, getD_some]
  rfl

/-- The first block of a new segment. -/
theorem sound_create_pushBlock {start : Nat} (index : pushed.rawBlock.block.getBlockIndex = start) :
    Sound ((memory (.create start)).pushBlock parents pushed) := by
  have appended := entries_pushBlock parents pushed
    (show (memory (.create start)).rawBlocks.length =
      (memory (.create start)).blockInfos.length from rfl)
  have empty : (memory (.create start)).entries = [] := rfl
  rw [empty, nil_append] at appended
  refine ⟨?_, ?_, ?_, ?_, ?_⟩
  · rw [rawBlocks_pushBlock, blockInfos_pushBlock]
    rfl
  · simp
  · rw [appended]
    exact forall_mem_singleton.2 (stored_nextInfo parents _ pushed)
  · rw [appended]
    exact isChain_singleton _
  · intro i entry found _
    rw [appended] at found
    cases i with
    | zero =>
      cases found
      rw [getStartBlockIndex_pushBlock]
      exact index
    | succ i => cases found

/-! ### Splitting cuts the entries -/

/-- Pushing a stored block again above its predecessor restores its info. -/
theorem next_restored {previous entry : Entry} (stored : entry.Stored)
    (linked : previous.Linked entry) (raw : pushed.rawBlock = entry.1)
    (size : pushed.blockSize = entry.2.blockSize) (coins : pushed.generatedCoins =
      subUInt64 entry.2.alreadyGeneratedCoins previous.2.alreadyGeneratedCoins)
    (difficulty : pushed.blockDifficulty =
      subUInt64 entry.2.cumulativeDifficulty previous.2.cumulativeDifficulty) :
    previous.2.next pushed = entry.2 := by
  simp only [CachedBlockInfo.next, nextBlockInfo]
  rw [difficulty, coins, raw, size, uint64_add_subUInt64 stored.difficulty_lt,
    uint64_add_subUInt64 stored.coins_lt, uint32_of_lt stored.size_lt, ← stored.hash,
    ← stored.timestamp, ← linked.transactions]

theorem next_getPushedBlockInfo {previous row : BlockRow}
    (stored : Entry.Stored (row.rawBlock, row.info))
    (linked : Entry.Linked (previous.rawBlock, previous.info) (row.rawBlock, row.info)) :
    previous.info.next (getPushedBlockInfo previous row) = row.info :=
  next_restored stored linked rfl rfl rfl rfl

end Cache

namespace DatabaseBlockchainCache

open Cache

variable {cache : DatabaseBlockchainCache}

theorem entries_eq :
    (database cache).entries = cache.blocks.map fun row => (row.rawBlock, row.info) := by
  simp only [entries, rawBlocks, blockInfos]
  rw [zip_map']

variable {row : BlockRow} {cut : Nat}

/-- Consecutive rows are linked. -/
theorem linked_rows (sound : (database cache).Sound) {i : Nat} {previous : BlockRow}
    (at_i : cache.blocks[i]? = some previous) (at_succ : cache.blocks[i + 1]? = some row) :
    Entry.Linked (previous.rawBlock, previous.info) (row.rawBlock, row.info) := by
  have linked := sound.linked
  rw [entries_eq, isChain_map] at linked
  obtain ⟨_, rfl⟩ := List.getElem?_eq_some_iff.1 at_i
  obtain ⟨bound, rfl⟩ := List.getElem?_eq_some_iff.1 at_succ
  exact isChain_iff_getElem.1 linked i bound

/-- Rows that follow each other, each stored properly. -/
def RowsLinked (rows : List BlockRow) : Prop :=
  rows.IsChain (fun previous row =>
    Entry.Linked (previous.rawBlock, previous.info) (row.rawBlock, row.info) ∧
      Entry.Stored (row.rawBlock, row.info))

theorem rowsLinked_of_sound (sound : (database cache).Sound) : RowsLinked cache.blocks := by
  refine isChain_iff_getElem.2 fun i bound => ⟨?_, ?_⟩
  · exact linked_rows sound (getElem?_eq_getElem (by omega)) (getElem?_eq_getElem bound)
  · apply sound.stored _
    rw [entries_eq]
    exact mem_map_of_mem (getElem_mem bound)

/-- Pushing restored blocks one after another on a segment that ends with their
predecessor appends exactly these blocks. -/
theorem foldl_pushBlock_restored (parents : Lineage) (rows : List BlockRow) (previous : BlockRow)
    (upper : BlockchainCache) (linked : RowsLinked (previous :: rows))
    (ends : upper.blockInfos.getLast? = some previous.info) :
    let restored := (List.zipWith getPushedBlockInfo (previous :: rows) rows).foldl
      (fun upper pushed => upper.pushBlock parents pushed) upper
    restored.blockInfos = upper.blockInfos ++ rows.map (·.info) ∧
      restored.storage = upper.storage ++ rows.map (·.rawBlock) := by
  induction rows generalizing previous upper with
  | nil => simp
  | cons row rows ih =>
    obtain ⟨⟨link, stored⟩, rest⟩ := isChain_cons_cons.1 linked
    have info : upper.nextInfo parents (getPushedBlockInfo previous row) = row.info := by
      simp only [BlockchainCache.nextInfo, ends]
      exact next_getPushedBlockInfo stored link
    have ends' : (upper.pushBlock parents (getPushedBlockInfo previous row)).blockInfos.getLast? =
        some row.info := by
      rw [BlockchainCache.blockInfos_pushBlock, info, getLast?_concat]
    obtain ⟨infos, storage⟩ := ih row _ rest ends'
    rw [BlockchainCache.blockInfos_pushBlock, info] at infos
    rw [BlockchainCache.storage_pushBlock] at storage
    simp only [zipWith_cons_cons, foldl_cons, map_cons]
    refine ⟨infos.trans ?_, storage.trans ?_⟩
    · simp
    · simp [getPushedBlockInfo]

/-- What holds at first and is kept by handling one restored row after another holds when
all rows from the split index on are handled. -/
theorem pushedBlocksFrom_induction {υ : Type} {handle : υ → PushedBlockInfo → υ}
    {Q : List BlockRow → υ → Prop} {init : υ} (base : Q [] init)
    (next : ∀ done previous row upper, done ++ [row] <+: cache.blocks.drop cut →
      Q done upper → Q (done ++ [row]) (handle upper (getPushedBlockInfo previous row))) :
    Q (cache.blocks.drop cut)
      ((cache.pushedBlocksFrom cut).foldl handle init) := by
  have loop : ∀ (rows previous done : List BlockRow) (upper : υ),
      rows.length ≤ previous.length → done ++ rows = cache.blocks.drop cut →
      Q done upper → Q (cache.blocks.drop cut)
        ((zipWith getPushedBlockInfo previous rows).foldl handle upper) := by
    intro rows previous done upper enough all holds
    induction rows generalizing previous done upper with
    | nil =>
      rw [append_nil] at all
      rw [zipWith_nil_right, ← all]
      exact holds
    | cons row rows ih =>
      cases previous with
      | nil => cases enough
      | cons before previous =>
        rw [zipWith_cons_cons, foldl_cons]
        have all' : (done ++ [row]) ++ rows = cache.blocks.drop cut := by
          rw [append_assoc]
          exact all
        exact ih previous (done ++ [row]) _ (Nat.le_of_succ_le_succ enough) all'
          (next done before row upper ⟨rows, all'⟩ holds)
  refine loop _ _ [] _ ?_ rfl base
  rw [length_drop, length_drop]
  omega

/-- What holds of an empty segment and is kept by pushing one restored row after
another holds of the rebuilt upper half. -/
theorem upperSegment_induction {Q : List BlockRow → BlockchainCache → Prop}
    (base : Q [] (.create cut))
    (push : ∀ done previous row upper, done ++ [row] <+: cache.blocks.drop cut →
      Q done upper → Q (done ++ [row])
        (upper.pushBlock [.database cache] (getPushedBlockInfo previous row))) :
    Q (cache.blocks.drop cut) (cache.upperSegment cut) :=
  pushedBlocksFrom_induction base push

/-- A row restored after others, in its place and with its height. -/
theorem restored_row (sound : (database cache).Sound) (pos : 0 < cut) {done : List BlockRow}
    (ahead : done ++ [row] <+: cache.blocks.drop cut) :
    cache.blocks[cut + done.length]? = some row ∧
      row.rawBlock.block.getBlockIndex = cut + done.length := by
  obtain ⟨rest, all⟩ := ahead
  have at_row : cache.blocks[cut + done.length]? = some row := by
    rw [← getElem?_drop, ← all, append_assoc, getElem?_append_right (le_refl _), Nat.sub_self]
    rfl
  have found : (database cache).entries[cut + done.length]? = some (row.rawBlock, row.info) := by
    rw [entries_eq, getElem?_map, at_row]
    rfl
  have height := sound.height _ _ found (by simp only [getStartBlockIndex]; omega)
  rw [getStartBlockIndex, zero_add] at height
  exact ⟨at_row, height⟩

theorem startIndex_upperSegment (cut : Nat) : (cache.upperSegment cut).startIndex = cut := by
  unfold upperSegment
  exact foldl_keeps (g := BlockchainCache.startIndex) (fun upper pushed => by simp) _ _

/-- The rebuilt upper half holds the rows from the split index on. -/
theorem upperSegment_eq (sound : (database cache).Sound) (pos : 0 < cut)
    (inside : cut < cache.blocks.length) : (cache.upperSegment cut).blockInfos =
        (cache.blocks.drop cut).map (·.info) ∧
      (cache.upperSegment cut).storage = (cache.blocks.drop cut).map (·.rawBlock) := by
  obtain ⟨index, rfl⟩ : ∃ index, cut = index + 1 := ⟨cut - 1, by omega⟩
  obtain ⟨previous, row, later, drop_index⟩ :
      ∃ previous row later, cache.blocks.drop index = previous :: row :: later :=
    ⟨_, _, _, by rw [drop_eq_getElem_cons (by omega), drop_eq_getElem_cons inside]⟩
  have drop_succ : cache.blocks.drop (index + 1) = row :: later := by
    rw [← tail_drop, drop_index]
    rfl
  have at_index : cache.blocks[index]? = some previous := by
    rw [← head?_drop, drop_index]
    rfl
  have linked : RowsLinked (previous :: row :: later) :=
    drop_index ▸ (rowsLinked_of_sound sound).drop index
  obtain ⟨⟨link, stored⟩, rest⟩ := isChain_cons_cons.1 linked
  -- the first block takes its totals from the database, as its parent
  have height : row.rawBlock.block.getBlockIndex = index + 1 := (restored_row sound pos
    (show [] ++ [row] <+: cache.blocks.drop (index + 1) from ⟨later, drop_succ.symm⟩)).2
  have info : (BlockchainCache.create (index + 1)).nextInfo [.database cache]
      (getPushedBlockInfo previous row) = row.info := by
    have parent_at : (database cache).entries[index]? = some (previous.rawBlock, previous.info) := by
      rw [entries_eq, getElem?_map, at_index]
      rfl
    rw [← next_getPushedBlockInfo stored link]
    exact nextInfo_create sound (Nat.zero_le index) parent_at height (index + 1)
  have ends : ((BlockchainCache.create (index + 1)).pushBlock [.database cache]
      (getPushedBlockInfo previous row)).blockInfos.getLast? = some row.info := by
    rw [BlockchainCache.blockInfos_pushBlock, info, getLast?_concat]
  obtain ⟨infos, storage⟩ := foldl_pushBlock_restored [.database cache] _ row _ rest ends
  rw [BlockchainCache.blockInfos_pushBlock, info] at infos
  rw [BlockchainCache.storage_pushBlock] at storage
  unfold upperSegment pushedBlocksFrom
  rw [Nat.add_sub_cancel, drop_index, drop_succ, zipWith_cons_cons, foldl_cons]
  exact ⟨infos, storage⟩

end DatabaseBlockchainCache

/-! ### Both halves of a split -/

namespace Cache

variable {cache lower upper : Cache} {cut : Nat}

/-- The entries of the two halves are the entries of the whole, cut at the split
index; the upper half starts there. -/
theorem split_entries (sound : cache.Sound) (above : cache.getStartBlockIndex < cut)
    (inside : cut ≤ cache.getTopBlockIndex) (halves : cache.split cut = some (lower, upper)) :
    lower.entries = cache.entries.take (cut - cache.getStartBlockIndex) ∧
      upper.entries = cache.entries.drop (cut - cache.getStartBlockIndex) ∧
      lower.getStartBlockIndex = cache.getStartBlockIndex ∧
      upper.getStartBlockIndex = cut ∧
      lower.rawBlocks.length = lower.blockInfos.length ∧
      upper.rawBlocks.length = upper.blockInfos.length := by
  have aligned := sound.aligned
  cases cache with
  | memory cache =>
    simp only [split, some.injEq, Prod.mk.injEq] at halves
    obtain ⟨rfl, rfl⟩ := halves
    simp only [rawBlocks, blockInfos] at aligned
    simp only [entries, rawBlocks, blockInfos, getStartBlockIndex, BlockchainCache.split,
      zip, take_zipWith, drop_zipWith, length_take, length_drop,
      aligned, and_self]
  | database cache =>
    simp only [split, map_eq_some_iff] at halves
    obtain ⟨parts, halves, same⟩ := halves
    cases same
    simp only [DatabaseBlockchainCache.split] at halves
    split at halves
    · cases halves
    · cases halves
      have top := sound.getTopBlockIndex_eq
      rw [length_entries sound.aligned] at top
      simp only [getStartBlockIndex, blockInfos, length_map] at top above inside
      obtain ⟨infos, storage⟩ := upperSegment_eq sound above (by omega)
      simp only [getStartBlockIndex, Nat.sub_zero, rawBlocks, blockInfos, length_map,
        startIndex_upperSegment, infos, storage]
      refine ⟨?_, ?_, trivial, trivial, trivial, trivial⟩
      · rw [entries_eq, entries_eq, map_take]
      · rw [entries_eq, entries, rawBlocks, blockInfos, infos, storage, zip_map', map_drop]

/-- The blocks are cut there, too. -/
theorem split_rawBlocks (sound : cache.Sound) (above : cache.getStartBlockIndex < cut)
    (inside : cut ≤ cache.getTopBlockIndex) (halves : cache.split cut = some (lower, upper)) :
    lower.entries.map Prod.fst = cache.rawBlocks.take (cut - cache.getStartBlockIndex) ∧
      upper.rawBlocks = cache.rawBlocks.drop (cut - cache.getStartBlockIndex) := by
  obtain ⟨lower_eq, upper_eq, -, -, -, aligned⟩ := split_entries sound above inside halves
  rw [lower_eq, ← map_fst_entries aligned, upper_eq, ← map_fst_entries sound.aligned]
  exact ⟨map_take, map_drop⟩

/-- A part of a sound segment's entries, at its place, is sound. -/
theorem Sound.of_infix {part : Cache} (sound : cache.Sound) (offset count : Nat)
    (aligned : part.rawBlocks.length = part.blockInfos.length)
    (entries_eq : part.entries = (cache.entries.drop offset).take count)
    (nonempty : part.entries ≠ [])
    (start : part.getStartBlockIndex = cache.getStartBlockIndex + offset) : part.Sound where
  aligned := aligned
  nonempty := by
    intro empty
    rw [← length_eq_zero_iff, ← length_entries aligned, length_eq_zero_iff] at empty
    exact nonempty empty
  stored := by
    intro entry mem
    rw [entries_eq] at mem
    exact sound.stored entry (mem_of_mem_drop (mem_of_mem_take mem))
  linked := by
    rw [entries_eq]
    exact (sound.linked.drop offset).take count
  height := by
    intro i entry found later
    rw [entries_eq, Slice.getElem?_take_eq_some, getElem?_drop] at found
    rw [start] at later ⊢
    rw [add_assoc] at later ⊢
    exact sound.height (offset + i) entry found.1 later

/-- Both halves of a split are sound again. -/
theorem Sound.split (sound : cache.Sound) (above : cache.getStartBlockIndex < cut)
    (inside : cut ≤ cache.getTopBlockIndex)
    (halves : cache.split cut = some (lower, upper)) : lower.Sound ∧ upper.Sound := by
  obtain ⟨lower_eq, upper_eq, lower_start, upper_start, lower_aligned, upper_aligned⟩ :=
    split_entries sound above inside halves
  have top := sound.getTopBlockIndex_eq
  constructor
  · refine sound.of_infix 0 (cut - cache.getStartBlockIndex) lower_aligned lower_eq ?_
      lower_start
    rw [lower_eq, ← length_pos_iff, length_take]
    omega
  · refine sound.of_infix (cut - cache.getStartBlockIndex) cache.entries.length
      upper_aligned ?_ ?_ ?_
    · rw [upper_eq, take_of_length_le (by rw [length_drop]; omega)]
    · rw [upper_eq, ← length_pos_iff, length_drop]
      omega
    · omega

theorem entries_addGenesisBlock (genesis : CachedBlock) :
    (database (.addGenesisBlock genesis)).entries =
      [(⟨genesis, []⟩, genesisBlockInfo genesis)] := rfl

theorem sound_addGenesisBlock (genesis : CachedBlock) :
    (database (.addGenesisBlock genesis)).Sound where
  aligned := rfl
  nonempty := by simp [addGenesisBlock, blockInfos,
    pushTransaction]
  stored := by
    rw [entries_addGenesisBlock]
    exact forall_mem_singleton.2 ⟨rfl, rfl, show 1 < 2 ^ 64 by decide,
      (foldl_uint64_add _ _ 0).trans_lt (uint64_lt _), uint32_lt _⟩
  linked := isChain_singleton _
  height := by
    intro i entry found later
    cases i with
    | zero => exact absurd later (lt_irrefl 0)
    | succ i => cases found

end Cache

end DeroGold
