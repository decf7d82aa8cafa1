import DeroGold.Split

/-!
Global indexes recorded with the transactions of a segment.

An output of an amount gets the number of outputs of that amount before it on its chain.
The index is handed out once, when the block is pushed, and then recorded with the
transaction: the database keeps it in the transaction's row, an in-memory segment next to
the transaction's info, and a split distributes what was recorded without looking at it
again. `IndexedSegment` adds these records to a segment.

* `RecordsOk.pushBlock`, `RecordsOk.halves`: an in-memory segment records the numbers of its
  outputs, after a push and in both halves of a split.
* `recordsOk_upperSegment`: so does the segment that a split of the database fills.
-/

namespace DeroGold

open SegmentTree KeyIndex Grouped List RawBlock CachedTransactionInfo
  BlockchainCache

/-! ### Segments with recorded indexes -/

namespace BlockchainCache

/-- What `insertKeyOutputToGlobalIndex` returns: the index of the output it added. -/
def lastGlobalIndex (table : Amount → Option OutputGlobalIndexesForAmount) (amount : Amount) :
    Nat :=
  match table amount with
  | some own => own.startIndex + own.outputs.length - 1
  | none => 0

/-- One turn of the loop over the outputs of a transaction. -/
def insertKeyOutput (parents : Lineage) (blockIndex transactionIndex : Nat)
    (state : (Amount → Option OutputGlobalIndexesForAmount) × List Nat)
    (output : TransactionOutput × Nat) :
    (Amount → Option OutputGlobalIndexesForAmount) × List Nat :=
  let table := insertKeyOutputToGlobalIndex parents state.1 output.1.amount
    ⟨blockIndex, transactionIndex, output.2⟩
  (table, state.2 ++ [lastGlobalIndex table output.1.amount])

/-- `pushTransaction` with the records: the indexes of the outputs are stored with the info. -/
def pushTransactionRecorded (parents : Lineage) (blockIndex : Nat)
    (state : BlockchainCache × List (CachedTransactionInfo × List Nat))
    (tx : CachedTransaction × Nat) : BlockchainCache × List (CachedTransactionInfo × List Nat) :=
  let info := of blockIndex tx
  let inserted := tx.1.transaction.outputs.zipIdx.foldl
    (insertKeyOutput parents blockIndex tx.2) (state.1.keyOutputsGlobalIndexes, [])
  let taken := state.1.transactions.any info.conflicts
  (state.1.pushTransaction parents tx.1 blockIndex tx.2,
    if taken then state.2 else state.2 ++ [(info, inserted.2)])

/-- Records of a segment after a push. -/
def pushRecords (parents : Lineage) (cache : BlockchainCache)
    (recorded : List (CachedTransactionInfo × List Nat)) (pushed : PushedBlockInfo) :
    List (CachedTransactionInfo × List Nat) :=
  (pushed.rawBlock.allTransactions.zipIdx.foldl
    (pushTransactionRecorded parents pushed.rawBlock.block.getBlockIndex) (cache, recorded)).2

end BlockchainCache

/-- A segment and, for an in-memory one, the global indexes recorded with each transaction
info. The database records them in its transaction rows. -/
structure IndexedSegment where
  cache : Cache
  recorded : List (CachedTransactionInfo × List Nat)

namespace IndexedSegment

def entries (segment : IndexedSegment) : List Entry := segment.cache.entries

def pushBlock (parents : Lineage) (segment : IndexedSegment) (pushed : PushedBlockInfo) :
    IndexedSegment :=
  match segment.cache with
  | .memory cache =>
    ⟨.memory (cache.pushBlock parents pushed), cache.pushRecords parents segment.recorded pushed⟩
  | .database cache => ⟨.database (cache.pushBlock pushed), segment.recorded⟩

/-- An empty in-memory segment. -/
def create (startIndex : Nat) : IndexedSegment := ⟨.memory (.create startIndex), []⟩

/-- The new segment of a database's split, filled push by push. -/
def upperSegment (cache : DatabaseBlockchainCache) (splitBlockIndex : Nat) : IndexedSegment :=
  (cache.pushedBlocksFrom splitBlockIndex).foldl (pushBlock [.database cache])
    (create splitBlockIndex)

/-- Records go with their infos. -/
def split (segment : IndexedSegment) (splitBlockIndex : Nat) :
    Option (IndexedSegment × IndexedSegment) :=
  match segment.cache with
  | .memory cache =>
    let halves := cache.split splitBlockIndex
    some (⟨.memory halves.1, segment.recorded.filter fun record =>
        decide (record.1.blockIndex < splitBlockIndex)⟩,
      ⟨.memory halves.2, segment.recorded.filter fun record =>
        decide (splitBlockIndex ≤ record.1.blockIndex)⟩)
  | .database cache =>
    (cache.split splitBlockIndex).map fun halves =>
      (⟨.database halves.1, segment.recorded⟩, upperSegment cache splitBlockIndex)

/-- Indexes recorded for the outputs of a transaction of the segment. -/
def getTransactionGlobalIndexes (segment : IndexedSegment) (transactionHash : Hash) :
    Option (List Nat) :=
  match segment.cache with
  | .memory _ =>
    (segment.recorded.find? fun record => record.1.transactionHash == transactionHash).map (·.2)
  | .database cache =>
    (cache.transactions transactionHash).map fun info => info.amountToKeyIndexes.map Prod.snd

end IndexedSegment

/-! ### Recorded indexes number the outputs -/

namespace BlockchainCache

/-- The table before an output of the block is inserted: positions of the given rows, counted
from the given numbers. -/
structure Counts (parents : Lineage) (blockIndex : Nat) (first : Amount → Nat)
    (rows : Amount → List KeyOutputRow) (table : Amount → Option OutputGlobalIndexesForAmount) :
    Prop where
  held : ∀ amount, table amount = globalIndexesOf (first amount) (rows amount)
  asked : ∀ amount, rows amount = [] →
    parents.getKeyOutputsCountForAmount amount blockIndex = first amount

variable {parents : Lineage} {blockIndex : Nat} {first : Amount → Nat}
  {rows : Amount → List KeyOutputRow} {table : Amount → Option OutputGlobalIndexesForAmount}

section

variable (counts : Counts parents blockIndex first rows table)
include counts

theorem Counts.insert (news : List (Amount × KeyOutputRow))
    (inBlock : ∀ row ∈ news, row.2.position.blockIndex = blockIndex) :
    Counts parents blockIndex first (fun amount => rows amount ++ group amount news)
      (news.foldl (fun table row => insertKeyOutputToGlobalIndex parents table row.1 row.2.position)
        table) where
  held amount := foldl_insertKeyOutput parents news table (rows amount) inBlock (counts.held amount)
    (counts.asked amount)
  asked amount empty := counts.asked amount (append_eq_nil_iff.1 empty).1

/-- The loop over the outputs of a transaction notes their numbers. -/
theorem Counts.noted (place : Nat) (outputs : List (TransactionOutput × Nat)) :
    (outputs.foldl (insertKeyOutput parents blockIndex place) (table, [])).2 =
      (number (fun amount => first amount + (rows amount).length)
        (outputs.map (·.1.amount))).map Prod.snd := by
  let rowOf (output : TransactionOutput × Nat) : Amount × KeyOutputRow :=
    (output.1.amount, ⟨⟨blockIndex, place, output.2⟩, output.1.key, 0⟩)
  have tables : ∀ outputs : List (TransactionOutput × Nat),
      (outputs.map rowOf).foldl (fun table row =>
        insertKeyOutputToGlobalIndex parents table row.1 row.2.position) table =
        (outputs.foldl (insertKeyOutput parents blockIndex place) (table, [])).1 := by
    intro outputs
    rw [foldl_map]
    exact @foldl_hom _ _ _ Prod.fst (insertKeyOutput parents blockIndex place) _ _ (_, [])
      fun _ _ => rfl
  -- From the end: an output's number is read off the table after it.
  induction outputs using reverseRecOn with
  | nil => rfl
  | append_singleton outputs output ih =>
    have held := (counts.insert ((outputs ++ [output]).map rowOf)
      (forall_mem_map.2 fun _ _ => rfl)).held output.1.amount
    have last : lastGlobalIndex ((outputs ++ [output]).foldl
        (insertKeyOutput parents blockIndex place) (table, [])).1 output.1.amount =
        first output.1.amount + (rows output.1.amount).length +
          (outputs.map (·.1.amount)).count output.1.amount := by
      rw [lastGlobalIndex, ← tables, held, map_append, group_append, map_singleton,
        group_cons_self]
      simp [globalIndexesOf, length_group, Function.comp_def, rowOf]
      omega
    rw [foldl_append] at last ⊢
    rw [map_append, number_append, map_append, ← ih]
    exact congrArg (_ ++ [·]) last

end

end BlockchainCache

/-- Infos of the transactions of blocks from an index on. -/
def infosFrom (start : Nat) (blocks : List RawBlock) : List CachedTransactionInfo :=
  (blocks.zipIdx start).flatMap fun block => block.1.allTransactions.zipIdx.map (.of block.2)

/-- Indexes of the outputs of transactions, when those before are counted by `count`. -/
def indexesFrom (count : Amount → Nat) (txs : List CachedTransaction) : List (List Nat) :=
  (recordsFrom count txs).map fun record => record.2.amountToKeyIndexes.map Prod.snd

theorem indexesFrom_append (count : Amount → Nat) (xs ys : List CachedTransaction) :
    indexesFrom count (xs ++ ys) = indexesFrom count xs ++ indexesFrom (fun amount =>
      count amount + (xs.flatMap CachedTransaction.amounts).count amount) ys := by
  rw [indexesFrom, recordsFrom_append, map_append]
  rfl

@[simp] theorem length_indexesFrom (count : Amount → Nat) (txs : List CachedTransaction) :
    (indexesFrom count txs).length = txs.length := by
  have same := congrArg length (map_fst_recordsFrom count txs)
  rw [length_map, length_map] at same
  rw [indexesFrom, length_map, same]

theorem infosFrom_append (start : Nat) (xs ys : List RawBlock) :
    infosFrom start (xs ++ ys) = infosFrom start xs ++ infosFrom (start + xs.length) ys := by
  rw [infosFrom, zipIdx_append, flatMap_append]
  rfl

theorem infosFrom_singleton (start : Nat) (raw : RawBlock) :
    infosFrom start [raw] = raw.allTransactions.zipIdx.map (.of start) := by
  simp [infosFrom]

theorem map_hash_infosFrom (start : Nat) (blocks : List RawBlock) :
    (infosFrom start blocks).map (·.transactionHash) = keysOf allHashes blocks := by
  have block : ∀ (blockIndex : Nat) (raw : RawBlock),
      (raw.allTransactions.zipIdx.map (of blockIndex)).map
        (·.transactionHash) = raw.allHashes := by
    intro blockIndex raw
    rw [map_map]
    exact Slice.map_zipIdx_fst CachedTransaction.transactionHash _ 0
  rw [infosFrom, map_flatMap]
  simp only [block]
  exact Slice.flatMap_zipIdx_fst _ _ start

variable {start : Nat} {blocks : List RawBlock}

theorem blockIndex_of_mem_infosFrom
    {info : CachedTransactionInfo} (mem : info ∈ infosFrom start blocks) :
    start ≤ info.blockIndex ∧ info.blockIndex < start + blocks.length := by
  obtain ⟨block, at_block, held⟩ := mem_flatMap.1 mem
  obtain ⟨tx, -, rfl⟩ := mem_map.1 held
  have bounds := mem_zipIdx at_block
  exact ⟨bounds.1, bounds.2.1⟩

/-- No two infos share a position. -/
theorem pairwise_position_infosFrom (start : Nat) (blocks : List RawBlock) :
    (infosFrom start blocks).Pairwise fun info other =>
      ¬ (info.blockIndex = other.blockIndex ∧ info.transactionIndex = other.transactionIndex) := by
  have increasing : ∀ {α : Type} (start : Nat) (xs : List α),
      (xs.zipIdx start).Pairwise fun x y => x.2 < y.2 := by
    intro α start xs
    rw [← pairwise_map (f := Prod.snd) (R := (· < ·)), zipIdx_map_snd]
    exact pairwise_lt_range'
  refine pairwise_flatMap.2 ⟨?_, ?_⟩
  · intro block _
    rw [pairwise_map]
    apply (increasing 0 _).imp
    intro tx tx' lt same
    exact ne_of_lt lt same.2
  · refine (increasing start blocks).imp fun lt info mem other mem' same => ?_
    obtain ⟨tx, -, rfl⟩ := mem_map.1 mem
    obtain ⟨tx', -, rfl⟩ := mem_map.1 mem'
    exact ne_of_lt lt same.1

/-- The container takes all infos of blocks with different transaction hashes. -/
theorem pairwise_conflicts_infosFrom (start : Nat) (distinct : (keysOf allHashes blocks).Nodup) :
    (infosFrom start blocks).Pairwise fun info other => other.conflicts info = false := by
  rw [← map_hash_infosFrom start, List.Nodup, pairwise_map] at distinct
  apply (distinct.and (pairwise_position_infosFrom start blocks)).imp
  rintro info other ⟨hash, position⟩
  simp only [conflicts, Bool.or_eq_false_iff, Bool.and_eq_false_iff, beq_eq_false_iff_ne]
  exact ⟨hash, Decidable.not_and_iff_not_or_not.1 position⟩

/-! ### Records of a segment -/

/-- An in-memory segment above the given blocks has an info and the numbers of the outputs
for each of its transactions, in order. -/
structure RecordsOk (below : List RawBlock) (cache : BlockchainCache)
    (recorded : List (CachedTransactionInfo × List Nat)) : Prop where
  stored : cache.transactions = infosFrom below.length cache.storage
  infos : recorded.map Prod.fst = infosFrom below.length cache.storage
  indexes : recorded.map Prod.snd =
    indexesFrom (fun amount => (outputsOf amount below).length)
      (cache.storage.flatMap allTransactions)

namespace BlockchainCache

variable {parents : Lineage} {blockIndex : Nat} {first : Amount → Nat}

/-- The loop over the transactions of a block appends a record for each, as long as none
conflicts with one before. -/
theorem foldl_pushTransactionRecorded (txs : List (CachedTransaction × Nat))
    {cache : BlockchainCache} {rows : Amount → List KeyOutputRow}
    (recorded : List (CachedTransactionInfo × List Nat))
    (counts : Counts parents blockIndex first rows cache.keyOutputsGlobalIndexes)
    (apart : (cache.transactions ++ txs.map (of blockIndex)).Pairwise
      fun info other => other.conflicts info = false) :
    ∃ news : List (CachedTransactionInfo × List Nat),
      (txs.foldl (pushTransactionRecorded parents blockIndex) (cache, recorded)).2 =
          recorded ++ news ∧
        (txs.foldl (fun cache tx => cache.pushTransaction parents tx.1 blockIndex tx.2)
          cache).transactions = cache.transactions ++ news.map Prod.fst ∧
        news.map Prod.fst = txs.map (.of blockIndex) ∧
        news.map Prod.snd = indexesFrom (fun amount => first amount + (rows amount).length)
          (txs.map Prod.fst) := by
  induction txs generalizing cache rows recorded with
  | nil => exact ⟨[], by simp, by simp, rfl, rfl⟩
  | cons tx txs ih =>
    obtain ⟨-, -, separate⟩ := pairwise_append.1 apart
    have free : cache.transactions.any (of blockIndex tx).conflicts = false := by
      rw [any_eq_false]
      intro info mem
      rw [separate info mem _ mem_cons_self]
      exact Bool.false_ne_true
    have added : (cache.pushTransaction parents tx.1 blockIndex tx.2).transactions =
        cache.transactions ++ [.of blockIndex tx] := if_neg (Bool.eq_false_iff.1 free)
    have counts' := counts.insert (tx.1.outputRows blockIndex tx.2)
      (forall_mem_map.2 fun _ _ => rfl)
    rw [CachedTransaction.outputRows, foldl_map] at counts'
    have noted := counts.noted tx.2 tx.1.transaction.outputs.zipIdx
    rw [show tx.1.transaction.outputs.zipIdx.map (·.1.amount) = tx.1.amounts from
      Slice.map_zipIdx_fst _ _ 0] at noted
    generalize own_eq : (number (fun amount => first amount + (rows amount).length)
      tx.1.amounts).map Prod.snd = own at noted
    have turn : pushTransactionRecorded parents blockIndex (cache, recorded) tx =
        (cache.pushTransaction parents tx.1 blockIndex tx.2,
          recorded ++ [(.of blockIndex tx, own)]) := by
      rw [pushTransactionRecorded, free, noted]
      rfl
    obtain ⟨news, records, stored, infos, indexes⟩ := ih (recorded ++ [(.of blockIndex tx, own)])
      counts' (by rw [added, append_assoc]; exact apart)
    refine ⟨(.of blockIndex tx, own) :: news, ?_, ?_, ?_, ?_⟩
    · rw [foldl_cons, turn, records, append_assoc]
      rfl
    · rw [foldl_cons, stored, added, append_assoc]
      rfl
    · rw [map_cons, map_cons, infos]
    · rw [map_cons, map_cons, indexes, ← own_eq, ← CachedTransaction.outputRows]
      simp only [length_append, length_group, map_fst_outputRows_transaction, ← add_assoc]
      rfl

end BlockchainCache

/-- Outputs of a segment after those below it. -/
theorem countBelow_eq (below blocks : List RawBlock) :
    (fun amount => (outputsOf amount below).length +
        (group amount (outputsFrom below.length blocks)).length) = fun amount =>
      (outputsOf amount below).length +
        ((blocks.flatMap allTransactions).flatMap CachedTransaction.amounts).count
          amount := by
  funext amount
  rw [length_group, map_fst_outputsFrom]

namespace RecordsOk

variable {below : List RawBlock} {cache : BlockchainCache}
  {recorded : List (CachedTransactionInfo × List Nat)}

theorem create (below : List RawBlock) (start : Nat) : RecordsOk below (.create start) [] :=
  ⟨rfl, rfl, rfl⟩

/-- A block of new transactions. -/
theorem pushBlock (ok : RecordsOk below cache recorded)
    (positions : PositionsOk below cache.storage cache.keyOutputsGlobalIndexes)
    {parents : Lineage} {pushed : PushedBlockInfo}
    (index : pushed.rawBlock.block.getBlockIndex = below.length + cache.storage.length)
    (counted : ∀ amount, group amount (outputsFrom below.length cache.storage) = [] →
      parents.getKeyOutputsCountForAmount amount (below.length + cache.storage.length) =
        (outputsOf amount below).length)
    (distinct : (keysOf allHashes (cache.storage ++ [pushed.rawBlock])).Nodup) :
    RecordsOk below (cache.pushBlock parents pushed)
      (cache.pushRecords parents recorded pushed) := by
  have counts : BlockchainCache.Counts parents (below.length + cache.storage.length)
      (fun amount => (outputsOf amount below).length)
      (fun amount => group amount (outputsFrom below.length cache.storage))
      cache.keyOutputsGlobalIndexes := ⟨positions, counted⟩
  have apart := pairwise_conflicts_infosFrom below.length distinct
  rw [infosFrom_append, infosFrom_singleton, ← ok.stored] at apart
  obtain ⟨news, records, stored, infos, indexes⟩ :=
    foldl_pushTransactionRecorded pushed.rawBlock.allTransactions.zipIdx recorded
      counts apart
  rw [← index] at records stored infos
  have storage := storage_pushBlock parents cache pushed
  have whole : infosFrom below.length (cache.storage ++ [pushed.rawBlock]) =
      infosFrom below.length cache.storage ++ news.map Prod.fst := by
    rw [infosFrom_append, infosFrom_singleton, infos, index]
  refine ⟨?_, ?_, ?_⟩
  · rw [storage, whole, ← ok.stored, ← stored, transactions_pushBlock,
      transactions_foldl_pushTransaction]
  · rw [pushRecords, records, map_append, storage, whole, ok.infos]
  · rw [pushRecords, records, map_append, storage, ok.indexes, indexes,
      flatMap_append, flatMap_singleton, indexesFrom_append, zipIdx_map_fst,
      countBelow_eq]

end RecordsOk

theorem length_infosFrom (start : Nat) (blocks : List RawBlock) :
    (infosFrom start blocks).length = (blocks.flatMap allTransactions).length := by
  have same := congrArg length (map_hash_infosFrom start blocks)
  rw [← map_hash_flatMap, length_map, length_map] at same
  exact same

/-- Records on both sides of a split index. -/
theorem exists_records_cut {recorded : List (CachedTransactionInfo × List Nat)}
    {xs ys : List RawBlock} (infos : recorded.map Prod.fst = infosFrom start (xs ++ ys)) :
    ∃ low high, recorded = low ++ high ∧ low.map Prod.fst = infosFrom start xs ∧
      high.map Prod.fst = infosFrom (start + xs.length) ys ∧
      recorded.filter (fun record => decide (record.1.blockIndex < start + xs.length)) = low ∧
      recorded.filter (fun record => decide (start + xs.length ≤ record.1.blockIndex)) = high := by
  rw [infosFrom_append] at infos
  obtain ⟨low, high, rfl, lows, highs⟩ := map_eq_append_iff.1 infos
  have below : ∀ record ∈ low, record.1.blockIndex < start + xs.length := by
    intro record mem
    have info : record.1 ∈ infosFrom start xs := lows ▸ mem_map_of_mem mem
    exact (blockIndex_of_mem_infosFrom info).2
  have above : ∀ record ∈ high, start + xs.length ≤ record.1.blockIndex := by
    intro record mem
    have info : record.1 ∈ infosFrom (start + xs.length) ys := highs ▸ mem_map_of_mem mem
    exact (blockIndex_of_mem_infosFrom info).1
  refine ⟨low, high, rfl, lows, highs, ?_, ?_⟩
  · rw [filter_append, filter_eq_self.2 fun record mem => decide_eq_true (below record mem),
      filter_eq_nil_iff.2 fun record mem => by simpa using above record mem, append_nil]
  · rw [filter_append, filter_eq_self.2 fun record mem => decide_eq_true (above record mem),
      filter_eq_nil_iff.2 fun record mem => by simpa using below record mem, nil_append]

namespace RecordsOk

variable {below : List RawBlock} {cache : BlockchainCache}
  {recorded : List (CachedTransactionInfo × List Nat)}

/-- A split gives each half the records of its transactions; the upper half's numbers go on
where the lower half's end. -/
theorem halves (ok : RecordsOk below cache recorded) (start : cache.startIndex = below.length)
    {n : Nat} (inside : n ≤ cache.storage.length) :
    RecordsOk below (cache.split (below.length + n)).1 (recorded.filter fun record =>
        decide (record.1.blockIndex < below.length + n)) ∧
      RecordsOk (below ++ cache.storage.take n) (cache.split (below.length + n)).2
        (recorded.filter fun record => decide (below.length + n ≤ record.1.blockIndex)) := by
  have length_eq : (cache.storage.take n).length = n := length_take_of_le inside
  obtain ⟨stored, infos, indexes⟩ := ok
  have lower_storage : (cache.split (below.length + n)).1.storage = cache.storage.take n := by
    simp only [BlockchainCache.split, start, Nat.add_sub_cancel_left]
  have upper_storage : (cache.split (below.length + n)).2.storage = cache.storage.drop n := by
    simp only [BlockchainCache.split, start, Nat.add_sub_cancel_left]
  rw [← take_append_drop n cache.storage] at infos indexes
  obtain ⟨low, high, rfl, lows, highs, low_eq, high_eq⟩ := exists_records_cut infos
  rw [length_eq] at highs low_eq high_eq
  rw [flatMap_append, indexesFrom_append, map_append] at indexes
  obtain ⟨lowIndexes, highIndexes⟩ := append_inj indexes (by
    rw [length_indexesFrom, ← length_infosFrom below.length, ← lows, length_map, length_map])
  have transactions : cache.transactions = (low ++ high).map Prod.fst := by
    rw [stored, infos, take_append_drop]
  refine ⟨⟨?_, ?_, ?_⟩, ⟨?_, ?_, ?_⟩⟩
  · rw [lower_storage, ← lows, ← low_eq]
    simp only [BlockchainCache.split, transactions, filter_map]
    rfl
  · rw [lower_storage, low_eq, lows]
  · rw [lower_storage, low_eq, lowIndexes]
  · rw [upper_storage, length_append, length_eq, ← highs, ← high_eq]
    simp only [BlockchainCache.split, transactions, filter_map]
    rfl
  · rw [upper_storage, length_append, length_eq, high_eq, highs]
  · rw [upper_storage, high_eq, highIndexes]
    simp only [outputsOf_append, length_append, countBelow_eq]

end RecordsOk

/-! ### Segments and their halves -/

namespace IndexedSegment

@[simp] theorem cache_pushBlock (parents : Lineage) (seg : IndexedSegment)
    (pushed : PushedBlockInfo) :
    (seg.pushBlock parents pushed).cache = seg.cache.pushBlock parents pushed := by
  obtain ⟨cache, recorded⟩ := seg
  cases cache <;> rfl

theorem cache_upperSegment (cache : DatabaseBlockchainCache) (cut : Nat) :
    (upperSegment cache cut).cache = .memory (cache.upperSegment cut) :=
  (foldl_hom IndexedSegment.cache fun seg pushed =>
    (cache_pushBlock [.database cache] seg pushed).symm).symm.trans
      (foldl_hom Cache.memory fun _ _ => rfl)

/-- The records of a segment above the given chain are in order; those of the database are
its rows. -/
def RecordsOk (below : List Entry) (segment : IndexedSegment) : Prop :=
  ∀ cache, segment.cache = .memory cache →
    DeroGold.RecordsOk (below.map Prod.fst) cache segment.recorded

theorem recordsOk_upperSegment {cache : DatabaseBlockchainCache} (rows : RowsOk cache)
    (sound : (Cache.database cache).Sound)
    (distinct : (keysOf allHashes (cache.blocks.map (·.rawBlock))).Nodup)
    {cut : Nat} (pos : 0 < cut) (inside : cut ≤ cache.blocks.length) :
    DeroGold.RecordsOk ((cache.blocks.take cut).map (·.rawBlock))
      (cache.upperSegment cut) (upperSegment cache cut).recorded := by
  generalize below_eq : (cache.blocks.take cut).map (·.rawBlock) = below
  have filled := @DatabaseBlockchainCache.pushedBlocksFrom_induction cache cut _
    (pushBlock [.database cache]) (fun done segment => ∃ upper, segment.cache = .memory upper ∧
      upper.storage = done.map (·.rawBlock) ∧
      PositionsOk below upper.storage upper.keyOutputsGlobalIndexes ∧
      DeroGold.RecordsOk below upper segment.recorded) (create cut)
    ⟨_, rfl, rfl, positionsOk_create _ _, .create _ _⟩ (by
    rintro done previous row ⟨-, recorded⟩ ahead ⟨upper, rfl, storage, positions, records⟩
    obtain ⟨index, counted⟩ := rows.restored_counts sound pos inside ahead rfl storage
    rw [below_eq] at index counted
    have pushedStorage := storage_pushBlock [.database cache] upper
      (DatabaseBlockchainCache.getPushedBlockInfo previous row)
    have here : (keysOf allHashes (upper.storage ++ [row.rawBlock])).Nodup := by
      have part : (done ++ [row]).map (·.rawBlock) <:+: cache.blocks.map (·.rawBlock) :=
        (ahead.isInfix.trans (drop_suffix _ _).isInfix).map _
      obtain ⟨before, after, all⟩ := part
      rw [← all, keysOf_append, keysOf_append, map_append, ← storage] at distinct
      exact (nodup_append.1 (nodup_append.1 distinct).1).2.1
    refine ⟨_, rfl, ?_, ?_, records.pushBlock positions index counted here⟩
    · rw [pushedStorage, storage, map_append]
      rfl
    · rw [pushedStorage]
      exact positions.pushBlock index counted)
  obtain ⟨upper, same, -, -, records⟩ := filled
  rw [← upperSegment, cache_upperSegment] at same
  cases same
  exact records

end IndexedSegment

end DeroGold
