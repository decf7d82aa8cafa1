import DeroGold.DatabaseRuns

/-!
Undoing pushes with `rewind`.

Between the height one and the top, `rewind` does what `split` does: its additional round of
deletions is superseded by the one that follows (`Holds.rewind_eq`). So the chain below the
height is left, but the segment has a child more than before, and at the top `rewind` returns
without doing anything. It never restores the segment as it was before the blocks were pushed
(`rewind_neverRestores`).
-/

namespace DeroGold

open KeyValue List TransitionSystem Sample DatabaseSegment BlockchainWriteBatch Option Tables

/-! ### Batches one after another -/

namespace BlockchainWriteBatch

/-- A batch continued by another. -/
def append (first batch : BlockchainWriteBatch) : BlockchainWriteBatch where
  version := first.version.append batch.version
  spentKeyImages := first.spentKeyImages.append batch.spentKeyImages
  transactionHashes := first.transactionHashes.append batch.transactionHashes
  rawBlocks := first.rawBlocks.append batch.rawBlocks
  blockIndexes := first.blockIndexes.append batch.blockIndexes
  blockInfos := first.blockInfos.append batch.blockInfos
  spentAt := first.spentAt.append batch.spentAt
  lastBlockIndex := first.lastBlockIndex.append batch.lastBlockIndex
  transactions := first.transactions.append batch.transactions
  transactionsCount := first.transactionsCount.append batch.transactionsCount
  outputCounts := first.outputCounts.append batch.outputCounts
  outputs := first.outputs.append batch.outputs
  closestTimestamps := first.closestTimestamps.append batch.closestTimestamps
  paymentCounts := first.paymentCounts.append batch.paymentCounts
  payments := first.payments.append batch.payments
  amountsCount := first.amountsCount.append batch.amountsCount
  amounts := first.amounts.append batch.amounts
  outputInfos := first.outputInfos.append batch.outputInfos

/-- Counters with a batch continued. -/
def continued (first : BlockchainWriteBatch) (state : Collected) : Collected :=
  (state.1, first.append state.2)

variable (first batch : BlockchainWriteBatch)

theorem append_empty : first.append .empty = first := by
  simp [append, empty, Tables.replicate]

end BlockchainWriteBatch

/-! The deletions are collected the same way after another batch. -/

namespace Database

variable (db : Database) (env : DatabaseEnv) (first : BlockchainWriteBatch)

theorem append_deleteBlocks (deleting : List PushedBlockInfo) (cut : Nat)
    (batch : BlockchainWriteBatch) : deleteBlocks deleting cut (first.append batch) =
      first.append (deleteBlocks deleting cut batch) := by
  refine foldl_hom first.append fun batch entry => ?_
  simp [append, removeCachedBlock, removeRawBlock, removeSpentKeyImages]

theorem append_requestDeleteTransactions (hashes : List Hash) (state : Collected) :
    db.requestDeleteTransactions hashes (first.continued state) =
      first.continued (db.requestDeleteTransactions hashes state) := by
  refine foldl_hom first.continued fun state hash => ?_
  simp [continued, append, removeCachedTransaction]

theorem append_requestDeleteKeyOutputsAmount (amount : Amount) (boundary outputsCount : Nat)
    (state : Collected) :
    db.requestDeleteKeyOutputsAmount amount boundary outputsCount (first.continued state) =
      first.continued
        (db.requestDeleteKeyOutputsAmount amount boundary outputsCount state) := by
  unfold requestDeleteKeyOutputsAmount
  have counts (removed : Nat) :
      (first.append state.2).removeKeyOutputGlobalIndexes amount removed boundary =
        first.append (state.2.removeKeyOutputGlobalIndexes amount removed boundary) := by
    simp [append, removeKeyOutputGlobalIndexes]
  dsimp only [continued]
  rw [counts]
  exact congrArg (Prod.mk _)
    (foldl_hom first.append fun _ _ => by simp [append, removeKeyOutputInfo])

theorem append_requestDeleteKeyOutputs (deleted : List StoredTransaction) (state : Collected) :
    db.requestDeleteKeyOutputs deleted (first.continued state) =
      first.continued (db.requestDeleteKeyOutputs deleted state) := by
  refine foldl_hom first.continued fun state amount => ?_
  split
  · exact db.append_requestDeleteKeyOutputsAmount first amount _ _ state
  · rfl

theorem append_deleteClosestTimestampBlockIndex (timestamp cut : Nat)
    (batch : BlockchainWriteBatch) :
    db.deleteClosestTimestampBlockIndex env timestamp cut (first.append batch) =
      first.append (db.deleteClosestTimestampBlockIndex env timestamp cut batch) :=
  foldl_hom first.append fun _ _ => by simp [append, removeClosestTimestampBlockIndex]

end Database

namespace DatabaseSegment

variable {seg : DatabaseSegment} {rows : List BlockRow} {env : DatabaseEnv}

theorem append_cutDown (seg : DatabaseSegment) (env : DatabaseEnv)
    (first batch : BlockchainWriteBatch) (deleting : List PushedBlockInfo) (cut : Nat)
    (deleted : List StoredTransaction) : seg.cutDown env (first.append batch) deleting cut deleted =
      first.continued (seg.cutDown env batch deleting cut deleted) := by
  let hashes := seg.requestTransactionHashesFromBlockIndex cut
  let blocks := Database.deleteBlocks deleting cut batch
  let counted := seg.database.requestDeleteTransactions hashes (seg.toCounters, blocks)
  have transactions : seg.database.requestDeleteTransactions hashes
      (seg.toCounters, Database.deleteBlocks deleting cut (first.append batch)) =
        first.continued counted := by
    rw [Database.append_deleteBlocks]
    exact seg.database.append_requestDeleteTransactions first hashes (seg.toCounters, blocks)
  have ids : seg.database.requestDeletePaymentIds env hashes (first.continued counted).2 =
      first.append (seg.database.requestDeletePaymentIds env hashes counted.2) :=
    foldl_hom first.append fun _ _ => by simp [append, removePaymentId]
  unfold cutDown
  dsimp only
  rw [transactions, ids]
  exact seg.database.append_requestDeleteKeyOutputs first deleted
    (counted.1, seg.database.requestDeletePaymentIds env hashes counted.2)

/-- The first round of deletions, table by table. -/
theorem deleteAllButTop_eq (seg : DatabaseSegment) (height : Nat) :
    let entries := ((seg.indexesFrom height).dropLast.filterMap
      seg.database.blockInfos).zipIdx height
    seg.deleteAllButTop height = { empty with
      transactionHashes := Changes.none.removeAll (entries.map (·.2))
      rawBlocks := Changes.none.removeAll (entries.map (·.2))
      blockIndexes := Changes.none.removeAll (entries.map (·.1.blockHash))
      blockInfos := Changes.none.removeAll (entries.map (·.2))
      lastBlockIndex := Changes.none.insertAll (entries.map fun entry => ((), entry.2 - 1)) } := by
  intro entries
  change entries.foldl _ empty = _
  generalize entries = entries
  -- from the end, so that the batch before is always the empty one
  induction entries using reverseRecOn with
  | nil => rfl
  | append_singleton entries entry ih =>
    rw [foldl_append, ih]
    simp [removeCachedBlock, removeRawBlock,
      Changes.removeAll, Changes.insertAll, Changes.remove, Changes.insert]

section Superseded

variable {height : Nat} {deleting : List PushedBlockInfo} {deleted : List StoredTransaction}
  {info : CachedBlockInfo}

/-- The infos carry the hashes of the blocks. -/
def Hashed (rows : List BlockRow) : Prop :=
  ∀ row ∈ rows, row.info.blockHash = row.rawBlock.block.blockHash

section

variable (cuts : seg.Cuts height deleting deleted info) (holds : seg.Holds rows)
  (hashed : Hashed rows)
include cuts holds hashed

/-- The block of an index that is deleted is deleted under its hash. -/
theorem Cuts.exists_deleting {i : Nat} (mem : i ∈ seg.indexesFrom height) {found : CachedBlockInfo}
    (stored : seg.database.blockInfos i = some found) :
    ∃ pushed ∈ deleting, pushed.rawBlock.block.blockHash = found.blockHash := by
  obtain ⟨pushed, listed, read⟩ := exists_of_mapM_eq_some cuts.blocks mem
  refine ⟨pushed, listed, ?_⟩
  rw [holds.stores.infos, map_eq_some_iff] at stored
  obtain ⟨row, at_i, rfl⟩ := stored
  have raw : seg.database.rawBlocks i = some pushed.rawBlock := by
    unfold Database.getPushedBlockInfo at read
    simp only [bind_eq_bind, bind_eq_some_iff, some.injEq] at read
    obtain ⟨_, -, _, -, raw, found, _, -, rfl⟩ := read
    exact found
  rw [holds.stores.raws, at_i, map_some] at raw
  rw [← some.inj raw]
  exact (hashed row (mem_of_getElem? at_i)).symm

/-- What the first round of deletions does is done again by the batch that follows. -/
theorem Cuts.write_append {batch : BlockchainWriteBatch} {days : Changes Nat Nat}
    (about : batch.aboutBlocks = { (Database.deleteBlocks deleting height .empty).aboutBlocks with
      closestTimestamps := days }) :
    seg.database.write ((seg.deleteAllButTop height).append batch) = seg.database.write batch := by
  rw [Database.deleteBlocks_eq] at about
  rw [deleteAllButTop_eq]
  generalize entries_eq : ((seg.indexesFrom height).dropLast.filterMap
    seg.database.blockInfos).zipIdx height = entries
  have indexes : ∀ i ∈ entries.map (·.2), i ∈ (deleting.zipIdx height).reverse.map (·.2) := by
    intro i mem
    rw [← entries_eq, zipIdx_map_snd, mem_range'_1] at mem
    have first_length := length_filterMap_le seg.database.blockInfos
      (seg.indexesFrom height).dropLast
    have length_eq := cuts.length_deleting
    have indexes_length : (seg.indexesFrom height).length =
        seg.getTopBlockIndex + 1 - height := length_range'
    rw [length_dropLast, indexes_length] at first_length
    rw [Database.mem_indexes]
    omega
  have hashes : ∀ hash ∈ entries.map (·.1.blockHash),
      hash ∈ (deleting.zipIdx height).reverse.map (·.1.rawBlock.block.blockHash) := by
    intro hash mem
    obtain ⟨entry, listed, rfl⟩ := mem_map.1 mem
    rw [← entries_eq] at listed
    obtain ⟨i, mem_i, stored⟩ := mem_filterMap.1 (fst_mem_of_mem_zipIdx listed)
    obtain ⟨pushed, held, same⟩ := cuts.exists_deleting holds hashed
      (mem_of_mem_dropLast mem_i) stored
    rw [← same, map_reverse, mem_reverse]
    rw [Slice.map_zipIdx_fst fun pushed : PushedBlockInfo => pushed.rawBlock.block.blockHash]
    exact mem_map_of_mem held
  have last : ∀ entry : Unit × Nat, latest entry.1
      ((deleting.zipIdx height).reverse.map fun entry => ((), entry.2 - 1)) ≠ none := by
    intro entry
    have some_deleted : (deleting.zipIdx height).reverse ≠ [] := by
      have length_eq := cuts.length_deleting
      have inside := cuts.inside
      rw [reverse_ne_nil_iff, ← length_pos_iff, length_zipIdx]
      omega
    rw [← dropLast_append_getLast some_deleted, map_append, latest_append]
    exact some_ne_none _
  have txs : Changes.SupersededBy _ batch.transactionHashes :=
    .removeAll (congrArg transactionHashes about) indexes
  have raws : Changes.SupersededBy _ batch.rawBlocks :=
    .removeAll (congrArg rawBlocks about) indexes
  have infos : Changes.SupersededBy _ batch.blockInfos :=
    .removeAll (congrArg blockInfos about) indexes
  have by_hash : Changes.SupersededBy _ batch.blockIndexes :=
    .removeAll (congrArg blockIndexes about) hashes
  have by_last : (Changes.none.insertAll (entries.map fun entry => ((), entry.2 - 1))).SupersededBy
      batch.lastBlockIndex := by
    have table := congrArg lastBlockIndex about
    change batch.lastBlockIndex = Changes.none.insertAll _ at table
    rw [table]
    exact ⟨fun _ mem => (nomatch mem), fun entry _ => last entry⟩
  unfold Database.write append
  dsimp only
  rw [write_append_eq txs, write_append_eq raws, write_append_eq infos, write_append_eq by_hash,
    write_append_eq by_last]
  rfl

theorem Cuts.cutSegment_eq :
    seg.cutSegment env (seg.deleteAllButTop height) deleting height deleted info.timestamp =
      seg.cutSegment env .empty deleting height deleted info.timestamp := by
  have same := seg.append_cutDown env (seg.deleteAllButTop height) .empty deleting height deleted
  rw [append_empty] at same
  have days := deleteClosestTimestampBlockIndex_eq seg.database env info.timestamp height
    (seg.cutDown env .empty deleting height deleted).2
  unfold cutSegment
  rw [same]
  dsimp only [continued]
  rw [Database.append_deleteClosestTimestampBlockIndex, cuts.write_append holds hashed]
  rw [← aboutBlocks_cutDown seg env deleted, days]
  rfl

end

/-- The deletions of `rewind` are those of `split`, whether they complete or not. -/
theorem Holds.deleteFrom_eq (holds : seg.Holds rows) (hashed : Hashed rows)
    (inside : height ≤ seg.getTopBlockIndex)
    (blocks : (seg.indexesFrom height).mapM seg.database.getPushedBlockInfo = some deleting)
    (writes : Bool) : seg.deleteFrom env writes (seg.deleteAllButTop height) deleting height =
      seg.deleteFrom env writes .empty deleting height := by
  have same := seg.append_cutDown env (seg.deleteAllButTop height) .empty deleting height
  rw [append_empty] at same
  cases stored : seg.database.requestExtendedTransactionInfos
      (seg.requestTransactionHashesFromBlockIndex height) with
  | none =>
    have counted := seg.database.append_requestDeleteTransactions
      (seg.deleteAllButTop height)
      (seg.requestTransactionHashesFromBlockIndex height)
      (seg.toCounters, Database.deleteBlocks deleting height .empty)
    rw [continued, ← Database.append_deleteBlocks, append_empty] at counted
    unfold deleteFrom
    simp only [stored]
    rw [counted]
    rfl
  | some deleted =>
    obtain ⟨row, at_height⟩ : ∃ row, rows[height]? = some row := by
      have pos := length_pos_of_ne_nil holds.nonempty
      rw [holds.getTopBlockIndex_eq] at inside
      exact ⟨_, getElem?_eq_getElem (by omega)⟩
    have found : seg.database.blockInfos height = some row.info := by
      rw [holds.stores.infos, at_height]
      rfl
    rw [DatabaseSegment.deleteFrom_eq stored found, DatabaseSegment.deleteFrom_eq stored found]
    have counters : (seg.cutDown env (seg.deleteAllButTop height) deleting height deleted).1 =
        (seg.cutDown env .empty deleting height deleted).1 := by
      rw [same]
      rfl
    rw [counters]
    by_cases late : maxTime < row.info.timestamp
    · rw [if_pos late, if_pos late]
    · have cuts : seg.Cuts height deleting deleted row.info :=
        ⟨inside, blocks, stored, found, Nat.le_of_not_lt late⟩
      rw [cuts.cutSegment_eq holds hashed]

end Superseded

/-- Between the height one and the top, `rewind` is a `split`. -/
theorem Holds.rewind_eq (holds : seg.Holds rows) (hashed : Hashed rows) {height : Nat}
    (low : 1 < height) (high : height < seg.getTopBlockIndex) (writes : Bool) :
    seg.rewind env writes height =
      ⟨(seg.split env writes height).result.map fun _ => (),
        (seg.split env writes height).segment⟩ := by
  unfold rewind split
  rw [if_neg (not_le.2 low), if_neg (not_le.2 high)]
  cases blocks : (seg.indexesFrom height).mapM seg.database.getPushedBlockInfo with
  | none => rfl
  | some deleting =>
    dsimp only
    rw [if_neg (not_lt.2 high.le), holds.deleteFrom_eq hashed high.le blocks]
    generalize seg.deleteFrom env writes .empty deleting height = outcome
    obtain ⟨result, left⟩ := outcome
    cases result with
    | error _ | ok _ => rfl

/-! ### Runs -/

variable {genesis : CachedBlock}

/-- The pushes of some blocks, one after another. -/
def pushAll (blocks : List PushedBlockInfo) : List DatabaseCall := blocks.map .pushBlock

theorem hashed_append {last : BlockRow} {pushed : PushedBlockInfo} (hashed : Hashed rows) :
    Hashed (rows ++ [last.next pushed]) := by
  exact forall_mem_append.2 ⟨hashed, forall_mem_singleton.2 rfl⟩

/-- After calls that complete the segment holds a chain whose infos carry the block hashes. -/
theorem exists_hashed_afterCalls {calls : List DatabaseCall} (time : genesis.timestamp ≤ maxTime)
    (completes : Along (step env) (Completes env) (create env genesis .empty).segment calls) :
    ∃ rows, (afterCalls env genesis calls).Holds rows ∧ Hashed rows := by
  refine invariant_run (I := fun seg => ∃ rows, seg.Holds rows ∧ Hashed rows)
    (fun seg call held completes => ?_) ?_ completes
  · obtain ⟨rows, holds, hashed⟩ := held
    exact exists_rows_step (P := fun seg rows => seg.Holds rows ∧ Hashed rows) holds.toChained
      completes (fun last _ _ _ => ⟨holds.pushBlock last, hashed_append hashed⟩)
      fun _ cuts => ⟨holds.cut cuts, fun row mem => hashed row (mem_of_mem_take mem)⟩
  · exact ⟨_, holds_create time, forall_mem_singleton.2 rfl⟩

/-- Pushes that complete add rows and leave the children alone. -/
theorem Holds.pushAll (holds : seg.Holds rows) (hashed : Hashed rows)
    {blocks : List PushedBlockInfo}
    (completes : Along (step env) (Completes env) seg (pushAll blocks)) :
    ∃ added, added.length = blocks.length ∧
      (run (step env) seg (pushAll blocks)).Holds (rows ++ added) ∧
      Hashed (rows ++ added) ∧
      (run (step env) seg (pushAll blocks)).children = seg.children := by
  induction blocks generalizing seg rows with
  | nil => exact ⟨[], rfl, (append_nil rows).symm ▸ holds, (append_nil rows).symm ▸ hashed, rfl⟩
  | cons pushed blocks ih =>
    obtain ⟨first, later⟩ := completes
    obtain ⟨last, -, -, same⟩ := holds.step_pushBlock first
    rw [same] at later
    obtain ⟨added, length_eq, held, hashed', children⟩ :=
      ih (holds.pushBlock _) (hashed_append hashed) later
    have run_eq : run (step env) seg (pushAll (pushed :: blocks)) =
        run (step env) (seg.pushedSegment env (last.info.next pushed) pushed)
          (pushAll blocks) := by
      rw [← same]
      rfl
    rw [← append_cons] at held hashed'
    rw [run_eq]
    exact ⟨last.next pushed :: added, congrArg Nat.succ length_eq, held, hashed', children⟩

/-- The rewind completes, and every question is answered as before. -/
def Restores (env : DatabaseEnv) (before after : DatabaseSegment) (height : Nat) : Prop :=
  (after.rewind env true height).result = .ok () ∧
    ∀ query : DatabaseQuery, query.Asks before →
      (after.rewind env true height).segment.answer query = before.answer query

/-- A rewind to the top does nothing. -/
theorem rewind_top {height : Nat} (low : 1 < height) (top : seg.getTopBlockIndex = height) :
    seg.rewind env true height = ⟨.ok (), seg⟩ := by
  unfold rewind
  rw [if_neg (not_le.2 low), if_pos top.le]

/-- A rewind that deletes two blocks or more leaves the chain below them and a child. -/
theorem Holds.rewind_below {added : List BlockRow} (held : seg.Holds (rows ++ added))
    (hashed : Hashed (rows ++ added)) (low : 1 < rows.length) (many : 1 < added.length)
    (done : (seg.rewind env true rows.length).result = .ok ()) :
    (seg.rewind env true rows.length).segment.Holds rows ∧
      (seg.rewind env true rows.length).segment.children = seg.children + 1 := by
  have high : rows.length < seg.getTopBlockIndex := by
    rw [held.getTopBlockIndex_eq, length_append]
    omega
  rw [held.rewind_eq hashed low high] at done ⊢
  cases result : (seg.split env true rows.length).result with
  | error _ =>
    rw [result] at done
    cases done
  | ok deleting =>
    obtain ⟨deleted, info, cuts, left⟩ := split_ok result
    have holds : (seg.cutSegment env .empty deleting rows.length deleted info.timestamp).Holds
        ((rows ++ added).take rows.length) := held.cut cuts
    rw [take_left] at holds
    rw [left]
    exact ⟨holds, rfl⟩

/-- Either the top or the number of children is another one than before. -/
theorem Holds.not_restores {before : DatabaseSegment} {added : List BlockRow}
    (holds : before.Holds rows) (held : seg.Holds (rows ++ added)) (hashed : Hashed (rows ++ added))
    (children : seg.children = before.children) (some_added : added ≠ []) (low : 1 < rows.length) :
    ¬ Restores env before seg rows.length := by
  rintro ⟨done, answers⟩
  have pos := length_pos_of_ne_nil some_added
  have top := holds.getTopBlockIndex_eq
  have top' := held.getTopBlockIndex_eq
  rw [length_append] at top'
  by_cases single : added.length = 1
  · -- the block is still there
    have same := answers .getTopBlockIndex trivial
    rw [rewind_top low (by omega)] at same
    change seg.getTopBlockIndex = before.getTopBlockIndex at same
    omega
  · have same : _ = before.children := answers .getChildCount trivial
    have more := (held.rewind_below hashed low (by omega) done).2
    exact Nat.succ_ne_self _ (more.symm.trans (same.trans children.symm))

/-- Whatever blocks have been pushed on a chain of two blocks or more, the rewind to the
height of the first of them does not restore the segment. If they are two or more and the
rewind completes, the chain is the one from before, and the children are one more. -/
theorem rewind_neverRestores (env : DatabaseEnv) (genesis : CachedBlock) (calls : List DatabaseCall)
    (time : genesis.timestamp ≤ maxTime) (completes : Along (step env) (Completes env)
      (create env genesis .empty).segment calls) (blocks : List PushedBlockInfo)
    (pushes : Along (step env) (Completes env) (afterCalls env genesis calls)
      (pushAll blocks)) (some_pushed : blocks ≠ [])
    (above : 0 < (afterCalls env genesis calls).getTopBlockIndex) :
    let before := afterCalls env genesis calls
    let after := run (step env) before (pushAll blocks)
    let height := before.getTopBlockIndex + 1
    ¬ Restores env before after height ∧
      (blocks.length = 1 → after.rewind env true height = ⟨.ok (), after⟩) ∧
      (1 < blocks.length → (after.rewind env true height).result = .ok () →
        ∃ rows, before.Holds rows ∧ (after.rewind env true height).segment.Holds rows ∧
          (after.rewind env true height).segment.children = before.children + 1) := by
  intro before after height
  obtain ⟨rows, holds, hashed⟩ := exists_hashed_afterCalls time completes
  obtain ⟨added, length_eq, held, hashed', children⟩ := holds.pushAll hashed pushes
  have some_added : added ≠ [] := by
    rw [← length_pos_iff, length_eq]
    exact length_pos_of_ne_nil some_pushed
  have top : after.getTopBlockIndex = _ := held.getTopBlockIndex_eq
  have height_eq : height = rows.length := holds.length_eq
  rw [length_append, length_eq] at top
  rw [holds.getTopBlockIndex_eq] at above
  rw [height_eq]
  refine ⟨holds.not_restores held hashed' children some_added (by omega), ?_, ?_⟩
  · intro single
    exact rewind_top (by omega) (by omega)
  · intro several done
    rw [← length_eq] at several
    exact ⟨rows, holds, children ▸ held.rewind_below hashed' (by omega) several done⟩

end DatabaseSegment

namespace Sample

/-- One block more. -/
def threeBlocks : DatabaseSegment := run (step databaseEnv) twoBlocks
  (pushAll [pushed (next 3 2 3 [] 0)])

/-- Two blocks more. -/
def fourBlocks : DatabaseSegment := run (step databaseEnv) twoBlocks
  (pushAll [pushed (next 3 2 3 [] 0), pushed (next 4 3 4 [] 0)])

end Sample

namespace DatabaseSegment

theorem rewind_neverRestores_two :
    (fourBlocks.rewind databaseEnv true 3).result = .ok () ∧
      ¬ Restores databaseEnv twoBlocks fourBlocks 3 ∧
      ∃ rows, twoBlocks.Holds rows ∧ (fourBlocks.rewind databaseEnv true 3).segment.Holds rows := by
  have done : (fourBlocks.rewind databaseEnv true 3).result = .ok () := by
    decide +kernel
  obtain ⟨never, -, many⟩ := rewind_neverRestores databaseEnv genesis
    (pushes (trunk 2)) (by decide +kernel) (by decide +kernel)
    [pushed (next 3 2 3 [] 0), pushed (next 4 3 4 [] 0)]
    (by decide +kernel) (by decide) (by decide +kernel)
  obtain ⟨rows, holds, restored, -⟩ := many (by decide) done
  exact ⟨done, never, rows, holds, restored⟩

/-- The newest block stays, or there is a child. -/
theorem not_restores_top : (twoBlocks.getTopBlockIndex = 2 ∧
      (threeBlocks.rewind databaseEnv true 3).segment.getTopBlockIndex = 3 ∧
      ¬ Restores databaseEnv twoBlocks threeBlocks 3) ∧
    twoBlocks.children = 0 ∧
      (fourBlocks.rewind databaseEnv true 3).segment.children = 1 ∧
      ¬ Restores databaseEnv twoBlocks fourBlocks 3 := by
  refine ⟨⟨by decide +kernel, by decide +kernel, fun restores => ?_⟩, by decide +kernel,
    by decide +kernel, fun restores => ?_⟩
  · have same : (threeBlocks.rewind databaseEnv true 3).segment.getTopBlockIndex =
        twoBlocks.getTopBlockIndex := restores.2 .getTopBlockIndex trivial
    revert same
    decide +kernel
  · have same : (fourBlocks.rewind databaseEnv true 3).segment.children =
        twoBlocks.children := restores.2 .getChildCount trivial
    revert same
    decide +kernel

end DatabaseSegment

end DeroGold
