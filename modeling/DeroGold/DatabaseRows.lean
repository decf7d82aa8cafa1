import DeroGold.DatabaseCounters
import DeroGold.DatabaseQueries
import DeroGold.Queries

/-!
What a completed push or split leaves in the store about the blocks.

The entries that are kept under block indexes describe a list of rows without gaps. A push
appends a row, a split keeps those below the split index, and what is kept in memory agrees
with the store each time (`Holds.pushBlock`, `Holds.split`).
-/

namespace DeroGold

open KeyValue List BlockchainWriteBatch Database Tables Function

/-! ### Batches that leave the blocks alone -/

/-- The part of a batch that is about blocks, key images and days. -/
def BlockchainWriteBatch.aboutBlocks (batch : BlockchainWriteBatch) : BlockchainWriteBatch :=
  { empty with
    version := batch.version
    spentKeyImages := batch.spentKeyImages
    transactionHashes := batch.transactionHashes
    rawBlocks := batch.rawBlocks
    blockIndexes := batch.blockIndexes
    blockInfos := batch.blockInfos
    spentAt := batch.spentAt
    lastBlockIndex := batch.lastBlockIndex
    closestTimestamps := batch.closestTimestamps }

namespace Database

variable (db : Database) (env : DatabaseEnv)

theorem aboutBlocks_pushTransaction (state : Collected)
    (tx : CachedTransaction) (index place : Nat) :
    (db.pushTransaction env state tx index place).2.aboutBlocks =
      state.2.aboutBlocks := by
  obtain ⟨kept, -⟩ := db.withoutOutputs_positioned (tx.info index place)
    tx.transaction.outputs state
  change (db.insertPaymentId env tx _).aboutBlocks = _
  rw [insertPaymentId_eq, insertNewAmounts_eq]
  exact (congrArg aboutBlocks kept :)

theorem aboutBlocks_pushTransactions (index : Nat) (txs : List CachedTransaction)
    (state : Collected) :
    (db.pushTransactions env index txs state).2.aboutBlocks = state.2.aboutBlocks := by
  unfold pushTransactions
  exact foldl_keeps (g := fun state : Collected => state.2.aboutBlocks)
    (fun state (tx : CachedTransaction × Nat) =>
      db.aboutBlocks_pushTransaction env state tx.1 index tx.2) _ _

theorem aboutBlocks_requestDeleteTransactions (hashes : List Hash) (state : Collected) :
    (db.requestDeleteTransactions hashes state).2.aboutBlocks = state.2.aboutBlocks := by
  unfold requestDeleteTransactions
  exact foldl_keeps (g := fun state : Collected => state.2.aboutBlocks)
    (fun _ _ => by rfl) _ _

theorem aboutBlocks_requestDeletePaymentIds (hashes : List Hash) (batch : BlockchainWriteBatch) :
    (db.requestDeletePaymentIds env hashes batch).aboutBlocks = batch.aboutBlocks := by
  unfold requestDeletePaymentIds
  exact foldl_keeps (g := aboutBlocks) (fun _ _ => by rfl) _ _

theorem aboutBlocks_requestDeleteKeyOutputs (deleted : List StoredTransaction) (state : Collected) :
    (db.requestDeleteKeyOutputs deleted state).2.aboutBlocks = state.2.aboutBlocks := by
  unfold requestDeleteKeyOutputs
  refine foldl_keeps (g := fun state : Collected => state.2.aboutBlocks)
    (fun state amount => ?_) _ _
  split
  · rw [requestDeleteKeyOutputsAmount, foldl_removeKeyOutputInfo]
    rfl
  · rfl

end Database

/-! ### Rows -/

/-- The entries under block indexes are those of the rows. The genesis block has none for
its key images. -/
structure Database.Stores (database : Database) (rows : List BlockRow) : Prop where
  version : database.version () ≠ none
  last : database.lastBlockIndex () = some (rows.length - 1)
  infos : ∀ i, database.blockInfos i = rows[i]?.map (·.info)
  raws : ∀ i, database.rawBlocks i = rows[i]?.map (·.rawBlock)
  hashes : ∀ i, database.transactionHashes i = rows[i]?.map (·.transactionHashes)
  images : ∀ i, database.spentKeyImages i =
    if i = 0 then none else rows[i]?.map (·.spentKeyImages)

/-- The store has the rows, and what is kept in memory about blocks agrees with it. -/
structure DatabaseSegment.Chained (segment : DatabaseSegment) (rows : List BlockRow) : Prop where
  nonempty : rows ≠ []
  stores : segment.database.Stores rows
  top : ∀ i, segment.topBlockIndex = some i → i = rows.length - 1
  hash : ∀ hash, segment.topBlockHash = some hash → rows.getLast?.map (·.info.blockHash) = some hash
  units : segment.unitsCache <:+ rows.map (·.info)

/-- The counters agree with the store as well. -/
structure DatabaseSegment.Holds (segment : DatabaseSegment) (rows : List BlockRow) : Prop
    extends segment.Chained rows where
  counters : Pending segment.database segment.toCounters .empty

/-- The row of a block pushed above another. -/
def BlockRow.next (last : BlockRow) (pushed : PushedBlockInfo) : BlockRow where
  info := last.info.next pushed
  rawBlock := pushed.rawBlock
  transactionHashes := pushed.rawBlock.block.baseTransaction.transactionHash ::
    pushed.rawBlock.block.transactionHashes
  spentKeyImages := pushed.spentKeyImages

theorem update_getElem? {α β : Type} (f : α → β) (xs : List α) (x : α) (i : Nat) :
    update (fun i => xs[i]?.map f) xs.length (some (f x)) i = (xs ++ [x])[i]?.map f := by
  rw [update_apply]
  split
  · subst i
    rw [getElem?_concat_length]
    rfl
  · rename_i other
    rw [getElem?_append]
    split
    · rfl
    · rw [getElem?_eq_none (by omega), getElem?_eq_none (by
        rw [length_singleton]
        omega)]

variable {batch : BlockchainWriteBatch}

/-- Rows are read from the tables about blocks, the days apart. -/
theorem Database.Stores.of_about {db : Database} {rows : List BlockRow}
    {other : BlockchainWriteBatch} {days : Changes Nat Nat}
    (about : batch.aboutBlocks = { other.aboutBlocks with closestTimestamps := days })
    (stores : (db.write other).Stores rows) : (db.write batch).Stores rows := by
  have same := congrArg db.write about
  exact ⟨(congrFun (congrArg Tables.version same) ()).trans_ne stores.version,
    (congrFun (congrArg lastBlockIndex same) ()).trans stores.last,
    fun i => (congrFun (congrArg blockInfos same) i).trans (stores.infos i),
    fun i => (congrFun (congrArg rawBlocks same) i).trans (stores.raws i),
    fun i => (congrFun (congrArg transactionHashes same) i).trans (stores.hashes i),
    fun i => (congrFun (congrArg spentKeyImages same) i).trans (stores.images i)⟩

/-- The batch of a block pushed above the last row. -/
theorem Database.Stores.append {db : Database} {rows : List BlockRow} {last : BlockRow}
    {pushed : PushedBlockInfo} (stores : db.Stores rows)
    (nonempty : rows ≠ []) (days : Changes Nat Nat) (about : batch.aboutBlocks =
      { (DatabaseSegment.blockBatch rows.length (last.info.next pushed) pushed).aboutBlocks with
        closestTimestamps := days }) : (db.write batch).Stores (rows ++ [last.next pushed]) := by
  refine .of_about about ⟨stores.version, ?_, fun i => ?_, fun i => ?_, fun i => ?_, fun i => ?_⟩
  · rw [length_append]
    rfl
  · rw [← update_getElem?, ← funext stores.infos]
    rfl
  · rw [← update_getElem?, ← funext stores.raws]
    rfl
  · rw [← update_getElem?, ← funext stores.hashes]
    rfl
  · rw [← update_getElem?]
    change update db.spentKeyImages rows.length (some pushed.spentKeyImages) i = _
    have pos := length_pos_of_ne_nil nonempty
    rw [update_apply, update_apply, stores.images]
    split
    · rw [if_neg (by omega)]
      rfl
    · rfl

namespace DatabaseSegment

variable {seg : DatabaseSegment} {rows : List BlockRow} {env : DatabaseEnv}
  {pushed : PushedBlockInfo}

theorem Chained.getTopBlockIndex_eq (holds : seg.Chained rows) :
    seg.getTopBlockIndex = rows.length - 1 := by
  unfold getTopBlockIndex
  cases cached : seg.topBlockIndex with
  | none => rw [holds.stores.last]; rfl
  | some i => exact holds.top i cached

theorem Chained.length_eq (holds : seg.Chained rows) : seg.getTopBlockIndex + 1 = rows.length := by
  rw [holds.getTopBlockIndex_eq]
  exact Nat.sub_add_cancel (length_pos_of_ne_nil holds.nonempty)

theorem Chained.blockInfos_top (holds : seg.Chained rows) :
    seg.database.blockInfos seg.getTopBlockIndex = rows.getLast?.map (·.info) := by
  rw [holds.stores.infos, holds.getTopBlockIndex_eq, getLast?_eq_getElem?]

theorem Chained.exists_last (holds : seg.Chained rows) : ∃ last, rows.getLast? = some last :=
  ⟨_, getLast?_eq_some_getLast holds.nonempty⟩

/-! ### Push -/

/-- The counters and the batch when the transactions of a block have been pushed. -/
def prepared (segment : DatabaseSegment) (env : DatabaseEnv) (blockInfo : CachedBlockInfo)
    (pushed : PushedBlockInfo) : Collected :=
  segment.database.pushTransactions env (segment.getTopBlockIndex + 1)
    pushed.rawBlock.allTransactions
    (segment.toCounters, blockBatch (segment.getTopBlockIndex + 1) blockInfo pushed)

/-- The segment after a push that completes. -/
def pushedSegment (segment : DatabaseSegment) (env : DatabaseEnv) (blockInfo : CachedBlockInfo)
    (pushed : PushedBlockInfo) : DatabaseSegment where
  toCounters := (segment.prepared env blockInfo pushed).1
  database := segment.database.write (segment.database.insertDay pushed.rawBlock.block.timestamp
    (segment.getTopBlockIndex + 1) (segment.prepared env blockInfo pushed).2)
  topBlockIndex := some (segment.getTopBlockIndex + 1)
  topBlockHash := some blockInfo.blockHash
  unitsCache := pushUnit segment.unitsCache blockInfo
  children := segment.children

/-- A push throws for a block that is too late in time or when the batch is refused; the
counters have moved all the same. -/
theorem pushBlock_eq {last : CachedBlockInfo}
    (found : seg.database.blockInfos seg.getTopBlockIndex = some last) (writes : Bool) :
    seg.pushBlock env writes pushed =
      if maxTime < pushed.rawBlock.block.timestamp then
        ⟨.error .timestampTooBig,
          { seg with toCounters := (seg.prepared env (last.next pushed) pushed).1 }⟩
      else if writes then ⟨.ok (), seg.pushedSegment env (last.next pushed) pushed⟩
      else ⟨.error .writeFailed,
        { seg with toCounters := (seg.prepared env (last.next pushed) pushed).1 }⟩ := by
  unfold pushBlock
  simp only [found]
  rfl

/-- Noting a day touches nothing else. -/
theorem insertDay_eq (db : Database) (timestamp index : Nat) (batch : BlockchainWriteBatch) :
    db.insertDay timestamp index batch = { batch with
      closestTimestamps := (db.insertDay timestamp index batch).closestTimestamps } := by
  unfold insertDay
  split
  · rfl
  · rfl

theorem suffix_pushUnit {units infos : List CachedBlockInfo} (suffix : units <:+ infos)
    (info : CachedBlockInfo) : pushUnit units info <:+ infos ++ [info] := by
  have grown : units ++ [info] <:+ infos ++ [info] := by
    obtain ⟨older, rfl⟩ := suffix
    exact ⟨older, (append_assoc _ _ _).symm⟩
  unfold pushUnit
  dsimp only
  split
  · exact (drop_suffix 1 _).trans grown
  · exact grown

theorem Chained.pushBlock (holds : seg.Chained rows) (last : BlockRow) :
    (seg.pushedSegment env (last.info.next pushed) pushed).Chained (rows ++ [last.next pushed]) := by
  have next_index := holds.length_eq
  refine ⟨append_ne_nil_of_right_ne_nil _ (cons_ne_nil _ _), ?_, ?_, ?_, ?_⟩
  · refine holds.stores.append holds.nonempty
      (seg.database.insertDay pushed.rawBlock.block.timestamp (seg.getTopBlockIndex + 1)
        (seg.prepared env (last.info.next pushed) pushed).2).closestTimestamps ?_
    rw [insertDay_eq]
    change ({ (seg.prepared env (last.info.next pushed) pushed).2.aboutBlocks with
      closestTimestamps := _ } : BlockchainWriteBatch) = _
    simp only [prepared, aboutBlocks_pushTransactions, next_index]
  · intro i at_top
    cases at_top
    rw [next_index, length_append]
    rfl
  · intro hash at_top
    cases at_top
    rw [getLast?_concat]
    rfl
  · rw [map_append]
    exact suffix_pushUnit holds.units _

/-- While the batch of a block is collected. -/
theorem Holds.ahead_pushTransactions (holds : seg.Holds rows) (env : DatabaseEnv)
    (blockInfo : CachedBlockInfo) (pushed : PushedBlockInfo) : seg.database.Ahead
      (seg.database.pushTransactions env (seg.getTopBlockIndex + 1) pushed.rawBlock.allTransactions
        (seg.toCounters, blockBatch (seg.getTopBlockIndex + 1) blockInfo pushed)) := by
  have empty : seg.database.Ahead (seg.toCounters, .empty) := ⟨holds.counters, rfl, rfl, rfl⟩
  have start : seg.database.Ahead
    (seg.toCounters, blockBatch (seg.getTopBlockIndex + 1) blockInfo pushed) := empty.congr rfl
  exact start.pushTransactions env _ _

theorem Holds.pushBlock (holds : seg.Holds rows) (last : BlockRow) :
    (seg.pushedSegment env (last.info.next pushed) pushed).Holds (rows ++ [last.next pushed]) := by
  have ahead := holds.ahead_pushTransactions env (last.info.next pushed) pushed
  refine ⟨holds.toChained.pushBlock last, Pending.commit (ahead.pending.congr ?_)⟩
  rw [insertDay_eq]
  rfl

/-! ### Split -/

/-- The counters and the batch when the deletions have been collected. -/
def cutDown (segment : DatabaseSegment) (env : DatabaseEnv) (batch : BlockchainWriteBatch)
    (deleting : List PushedBlockInfo) (splitBlockIndex : Nat) (deleted : List StoredTransaction) :
    Collected :=
  let transactionHashes := segment.requestTransactionHashesFromBlockIndex splitBlockIndex
  let counted := segment.database.requestDeleteTransactions transactionHashes
    (segment.toCounters, deleteBlocks deleting splitBlockIndex batch)
  segment.database.requestDeleteKeyOutputs deleted
    (counted.1, segment.database.requestDeletePaymentIds env transactionHashes counted.2)

/-- The segment after deletions that complete. -/
def cutSegment (segment : DatabaseSegment) (env : DatabaseEnv) (batch : BlockchainWriteBatch)
    (deleting : List PushedBlockInfo) (splitBlockIndex : Nat) (deleted : List StoredTransaction)
    (timestamp : Nat) : DatabaseSegment where
  toCounters := { (segment.cutDown env batch deleting splitBlockIndex deleted).1 with
    transactionsCount := none }
  database := segment.database.write (segment.database.deleteClosestTimestampBlockIndex env timestamp
    splitBlockIndex (segment.cutDown env batch deleting splitBlockIndex deleted).2)
  topBlockIndex := none
  topBlockHash := none
  unitsCache := DatabaseBlockchainCache.cutTail segment.unitsCache
    (segment.getTopBlockIndex + 1 - splitBlockIndex)
  children := segment.children + 1

variable {deleting : List PushedBlockInfo} {bound : Nat}
  {batch : BlockchainWriteBatch}

theorem deleteFrom_eq {deleted : List StoredTransaction}
    {info : CachedBlockInfo} (stored : seg.database.requestExtendedTransactionInfos
      (seg.requestTransactionHashesFromBlockIndex bound) = some deleted)
    (found : seg.database.blockInfos bound = some info) (writes : Bool) :
    seg.deleteFrom env writes batch deleting bound =
      if maxTime < info.timestamp then ⟨.error .timestampTooBig, { seg with
        toCounters := (seg.cutDown env batch deleting bound deleted).1 }⟩ else if writes then
        ⟨.ok (), seg.cutSegment env batch deleting bound deleted info.timestamp⟩
      else ⟨.error .writeFailed, { seg with
        toCounters := (seg.cutDown env batch deleting bound deleted).1 }⟩ := by
  unfold deleteFrom
  simp only [stored, found]
  rfl

/-- What deletions that complete have found. -/
structure Cuts (segment : DatabaseSegment) (splitBlockIndex : Nat)
    (deleting : List PushedBlockInfo) (deleted : List StoredTransaction) (info : CachedBlockInfo) :
    Prop where
  inside : splitBlockIndex ≤ segment.getTopBlockIndex
  blocks : (segment.indexesFrom splitBlockIndex).mapM segment.database.getPushedBlockInfo =
    some deleting
  transactions : segment.database.requestExtendedTransactionInfos
    (segment.requestTransactionHashesFromBlockIndex splitBlockIndex) = some deleted
  found : segment.database.blockInfos splitBlockIndex = some info
  time : info.timestamp ≤ maxTime

theorem deleteFrom_ok (done : (seg.deleteFrom env true batch deleting bound).result = .ok ()) :
    ∃ deleted info, seg.database.requestExtendedTransactionInfos
        (seg.requestTransactionHashesFromBlockIndex bound) = some deleted ∧
      seg.database.blockInfos bound = some info ∧ info.timestamp ≤ maxTime ∧
      (seg.deleteFrom env true batch deleting bound).segment =
        seg.cutSegment env batch deleting bound deleted info.timestamp := by
  cases stored : seg.database.requestExtendedTransactionInfos
      (seg.requestTransactionHashesFromBlockIndex bound) with
  | none =>
    unfold deleteFrom at done
    simp [stored] at done
  | some deleted =>
    cases found : seg.database.blockInfos bound with
    | none =>
      unfold deleteFrom at done
      simp [stored, found] at done
    | some info =>
      rw [deleteFrom_eq stored found] at done ⊢
      by_cases late : maxTime < info.timestamp
      · rw [if_pos late] at done
        cases done
      · rw [if_neg late]
        exact ⟨deleted, info, rfl, rfl, Nat.le_of_not_lt late, rfl⟩

theorem split_ok (done : (seg.split env true bound).result = .ok deleting) :
    ∃ deleted info, seg.Cuts bound deleting deleted info ∧
      (seg.split env true bound).segment =
        seg.cutSegment env .empty deleting bound deleted info.timestamp := by
  unfold split at done ⊢
  split at done
  · cases done
  · rename_i read blocks
    split at done
    · cases done
    · rename_i inside
      rw [if_neg inside]
      cases outcome : (seg.deleteFrom env true .empty read bound).result with
      | error _ =>
        dsimp only at done
        rw [outcome] at done
        cases done
      | ok _ =>
        dsimp only at done
        rw [outcome] at done
        cases done
        obtain ⟨deleted, info, stored, found, time, left⟩ := deleteFrom_ok outcome
        exact ⟨deleted, info, ⟨Nat.le_of_not_lt inside, blocks, stored, found, time⟩, left⟩

end DatabaseSegment

namespace Database

variable {rows : List BlockRow}

/-- The batch that deletes blocks, table by table. -/
theorem deleteBlocks_eq (deleting : List PushedBlockInfo) (bound : Nat)
    (batch : BlockchainWriteBatch) :
    let entries := (deleting.zipIdx bound).reverse
    deleteBlocks deleting bound batch = { batch with
      spentKeyImages := batch.spentKeyImages.removeAll (entries.map (·.2))
      transactionHashes := batch.transactionHashes.removeAll (entries.map (·.2))
      rawBlocks := batch.rawBlocks.removeAll (entries.map (·.2))
      blockIndexes := batch.blockIndexes.removeAll (entries.map (·.1.rawBlock.block.blockHash))
      blockInfos := batch.blockInfos.removeAll (entries.map (·.2))
      spentAt := batch.spentAt.removeAll (entries.flatMap (·.1.spentKeyImages))
      lastBlockIndex :=
        batch.lastBlockIndex.insertAll (entries.map fun entry => ((), entry.2 - 1)) } := by
  intro entries
  change entries.foldl _ batch = _
  generalize entries = entries
  induction entries generalizing batch with
  | nil => simp [Changes.removeAll, Changes.insertAll]
  | cons entry entries ih =>
    rw [foldl_cons, ih]
    simp [removeCachedBlock, removeRawBlock,
      removeSpentKeyImages, Changes.removeAll, Changes.insertAll,
      Changes.remove, Changes.insert]

variable {deleting : List PushedBlockInfo} {bound : Nat}

theorem mem_indexes {i : Nat} : i ∈ (deleting.zipIdx bound).reverse.map (·.2) ↔
      bound ≤ i ∧ i < bound + deleting.length := by
  rw [map_reverse, mem_reverse, zipIdx_map_snd, mem_range'_1]

/-- What is left under block indexes when the blocks from an index on are removed. -/
theorem removed_eq {α : Type} (f : BlockRow → α) (reaches : bound + deleting.length = rows.length)
    {table : Table Nat α} (i : Nat) (stored : table i = rows[i]?.map f) : KeyValue.write table
        (Changes.none.removeAll ((deleting.zipIdx bound).reverse.map (·.2))) i =
      (rows.take bound)[i]?.map f := by
  rw [write_removeAll_apply, write_none, stored]
  by_cases above : bound ≤ i
  · rw [getElem?_eq_none (l := rows.take bound) (by
      rw [length_take]
      omega)]
    split
    · rfl
    · rename_i outside
      rw [mem_indexes] at outside
      rw [getElem?_eq_none (by omega)]
  · rw [if_neg (fun mem => above (mem_indexes.1 mem).1), getElem?_take_of_lt (by omega)]

/-- The batch of a split. -/
theorem Stores.cut {db : Database} {batch : BlockchainWriteBatch} (stores : db.Stores rows)
    (inside : bound < rows.length) (reaches : bound + deleting.length = rows.length)
    (days : Changes Nat Nat)
    (about : batch.aboutBlocks = { (deleteBlocks deleting bound .empty).aboutBlocks with
      closestTimestamps := days }) : (db.write batch).Stores (rows.take bound) := by
  refine .of_about about ?_
  rw [deleteBlocks_eq]
  refine ⟨stores.version, ?_, fun i => removed_eq _ reaches i (stores.infos i),
    fun i => removed_eq _ reaches i (stores.raws i),
    fun i => removed_eq _ reaches i (stores.hashes i), fun i => ?_⟩
  · rw [length_take, Nat.min_eq_left inside.le]
    cases deleting with
    | nil =>
      rw [length_nil] at reaches
      omega
    | cons block blocks =>
      -- the block at the split index is the last one to be removed
      change KeyValue.write db.lastBlockIndex (Changes.none.insertAll _) () = _
      rw [write_insertAll_apply rfl, zipIdx_cons, reverse_cons, map_append, latest_append]
      rfl
  · by_cases zero : i = 0
    · subst zero
      change KeyValue.write _ (Changes.none.removeAll _) 0 = _
      rw [write_removeAll_apply, write_none, stores.images]
      simp
    · rw [if_neg zero]
      apply removed_eq _ reaches i
      rw [stores.images, if_neg zero]

end Database

namespace DatabaseSegment

variable {seg : DatabaseSegment} {rows : List BlockRow} {env : DatabaseEnv}

/-- Deleting days touches nothing else. -/
theorem deleteClosestTimestampBlockIndex_eq (db : Database) (env : DatabaseEnv)
    (timestamp bound : Nat) (batch : BlockchainWriteBatch) :
    db.deleteClosestTimestampBlockIndex env timestamp bound batch = { batch with
      closestTimestamps := (db.deleteClosestTimestampBlockIndex env timestamp bound
        batch).closestTimestamps } := by
  unfold deleteClosestTimestampBlockIndex
  dsimp only
  generalize daysFrom _ _ _ = days
  induction days generalizing batch with
  | nil => rfl
  | cons day days ih =>
    rw [foldl_cons, ih]
    rfl

section Cut

variable {bound : Nat} {deleting : List PushedBlockInfo} {deleted : List StoredTransaction}
  {info : CachedBlockInfo}

theorem aboutBlocks_cutDown (seg : DatabaseSegment) (env : DatabaseEnv)
    (deleted : List StoredTransaction) (batch : BlockchainWriteBatch) :
    (seg.cutDown env batch deleting bound deleted).2.aboutBlocks =
      (deleteBlocks deleting bound batch).aboutBlocks := by
  unfold cutDown
  rw [aboutBlocks_requestDeleteKeyOutputs, aboutBlocks_requestDeletePaymentIds,
    aboutBlocks_requestDeleteTransactions]

theorem pending_cutDown (counters : Pending seg.database seg.toCounters .empty) :
    Pending seg.database (seg.cutDown env .empty deleting bound deleted).1
      (seg.cutDown env .empty deleting bound deleted).2 := by
  have empty : seg.database.Ahead (seg.toCounters, .empty) := ⟨counters, rfl, rfl, rfl⟩
  have start : seg.database.Ahead (seg.toCounters, deleteBlocks deleting bound .empty) :=
    empty.congr (by rw [deleteBlocks_eq]; rfl)
  have payments : ∀ hashes batch,
      (seg.database.requestDeletePaymentIds env hashes batch).aboutCounters = batch.aboutCounters := by
    intro hashes batch
    unfold requestDeletePaymentIds
    exact foldl_keeps (g := aboutCounters) (fun _ _ => by rfl) _ _
  have counted := start.requestDeleteTransactions (seg.requestTransactionHashesFromBlockIndex bound)
  refine ((counted.congr (payments _ _)).requestDeleteKeyOutputs ?_ deleted).pending
  have untouched : (seg.database.requestDeleteTransactions
      (seg.requestTransactionHashesFromBlockIndex bound)
      (seg.toCounters, deleteBlocks deleting bound .empty)).2.outputCounts = Changes.none := by
    unfold requestDeleteTransactions
    rw [foldl_keeps (g := fun state : Collected => state.2.outputCounts)
      (fun _ _ => by rfl)]
    dsimp only
    rw [deleteBlocks_eq]
    rfl
  exact congrArg (write seg.database.outputCounts)
    ((congrArg (·.outputCounts) (payments _ _)).trans untouched)

theorem Cuts.length_deleting (cuts : seg.Cuts bound deleting deleted info) :
    bound + deleting.length = seg.getTopBlockIndex + 1 := by
  have lengths : deleting.length = (seg.indexesFrom bound).length :=
    (forall₂_of_mapM cuts.blocks).length_eq.symm
  have inside := cuts.inside
  rw [lengths, indexesFrom, length_range']
  omega

theorem Cuts.pos (cuts : seg.Cuts bound deleting deleted info)
    (holds : seg.Chained rows) : 0 < bound := by
  refine Nat.pos_of_ne_zero fun zero => ?_
  subst zero
  have read := cuts.blocks
  -- the genesis block has no key images to read
  have unread : seg.database.getPushedBlockInfo 0 = none := by
    unfold getPushedBlockInfo
    rw [holds.stores.images, if_pos rfl]
    simp
  rw [indexesFrom, Nat.sub_zero, range'_succ, mapM_cons, unread] at read
  cases read

theorem Chained.cut (holds : seg.Chained rows) (cuts : seg.Cuts bound deleting deleted info) :
    (seg.cutSegment env .empty deleting bound deleted info.timestamp).Chained
      (rows.take bound) := by
  have pos := cuts.pos holds
  have inside := cuts.inside
  have rows_pos := length_pos_of_ne_nil holds.nonempty
  have reaches : bound + deleting.length = rows.length := by
    rw [cuts.length_deleting, holds.getTopBlockIndex_eq]
    omega
  rw [holds.getTopBlockIndex_eq] at inside
  have days := deleteClosestTimestampBlockIndex_eq seg.database env info.timestamp
    bound (seg.cutDown env .empty deleting bound deleted).2
  refine ⟨?_, holds.stores.cut (by omega) reaches (seg.database.deleteClosestTimestampBlockIndex
    env info.timestamp bound
      (seg.cutDown env .empty deleting bound deleted).2).closestTimestamps ?_,
    fun _ at_top => (Option.some_ne_none _ at_top.symm).elim,
    fun _ at_top => (Option.some_ne_none _ at_top.symm).elim, ?_⟩
  · apply ne_nil_of_length_pos
    rw [length_take]
    omega
  · rw [← aboutBlocks_cutDown seg env deleted, days]
    rfl
  · rw [map_take]
    change DatabaseBlockchainCache.cutTail seg.unitsCache
      (seg.getTopBlockIndex + 1 - bound) <:+ _
    rw [holds.length_eq, ← length_map (·.info)]
    exact DatabaseBlockchainCache.suffix_cutTail holds.units bound

theorem Holds.cut (holds : seg.Holds rows) (cuts : seg.Cuts bound deleting deleted info) :
    (seg.cutSegment env .empty deleting bound deleted info.timestamp).Holds
      (rows.take bound) := by
  have days := deleteClosestTimestampBlockIndex_eq seg.database env info.timestamp
    bound (seg.cutDown env .empty deleting bound deleted).2
  have pending : Pending seg.database
      (seg.cutDown env .empty deleting bound deleted).1
      (seg.database.deleteClosestTimestampBlockIndex env info.timestamp bound
        (seg.cutDown env .empty deleting bound deleted).2) :=
    (pending_cutDown holds.counters).congr (by rw [days]; rfl)
  have committed := pending.commit
  exact ⟨holds.toChained.cut cuts, committed.counts, committed.amounts, rfl, committed.known⟩

end Cut

end DatabaseSegment

end DeroGold
