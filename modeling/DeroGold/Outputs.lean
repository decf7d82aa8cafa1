import DeroGold.Transactions
import DeroGold.Lib.Grouped

/-!
The outputs of a chain and the tables that number them.

`outputsFrom` lists the outputs of a sequence of blocks as the database stores them. The
global index of an output is its place among the outputs of its amount, so the tables of
a segment are groups of this list: `OutputsOk` says so of the database's rows and of the
positions an in-memory segment keeps, which begin where the chain below ends. It needs the
transactions of a chain to have different hashes, and the blocks to claim the hashes of the
transactions they carry: the database finds the outputs to delete in a split by them.

* `outputsOk_afterCalls`: the tables are in order along a run of such blocks.
* `extractKeyOutputs_eq`: indexes of existing outputs are looked up on the whole chain of
  the segment asked, whatever block index is given.
-/

namespace DeroGold

open SegmentTree KeyIndex Grouped Search List Function DatabaseBlockchainCache CachedTransaction

/-! ### Outputs of a chain -/

/-- Rows of the outputs of a transaction at its position, with their amounts. -/
def CachedTransaction.outputRows (blockIndex transactionIndex : Nat) (tx : CachedTransaction) :
    List (Amount × KeyOutputRow) :=
  tx.transaction.outputs.zipIdx.map fun output =>
    (output.1.amount,
      ⟨⟨blockIndex, transactionIndex, output.2⟩, output.1.key, tx.transaction.unlockTime⟩)

def CachedTransaction.amounts (tx : CachedTransaction) : List Amount :=
  tx.transaction.outputs.map (·.amount)

def RawBlock.outputRows (blockIndex : Nat) (raw : RawBlock) : List (Amount × KeyOutputRow) :=
  raw.allTransactions.zipIdx.flatMap fun tx => tx.1.outputRows blockIndex tx.2

/-- Rows of the outputs of blocks from an index on. -/
def outputsFrom (start : Nat) (blocks : List RawBlock) : List (Amount × KeyOutputRow) :=
  (blocks.zipIdx start).flatMap fun block => block.1.outputRows block.2

/-- Outputs of an amount on a chain, by global index. -/
def outputsOf (amount : Amount) (chain : List RawBlock) : List KeyOutputRow :=
  group amount (outputsFrom 0 chain)

@[simp] theorem outputsFrom_singleton (start : Nat) (raw : RawBlock) :
    outputsFrom start [raw] = raw.outputRows start := by
  simp [outputsFrom]

theorem outputsFrom_append (start : Nat) (xs ys : List RawBlock) :
    outputsFrom start (xs ++ ys) = outputsFrom start xs ++ outputsFrom (start + xs.length) ys := by
  rw [outputsFrom, zipIdx_append, flatMap_append]
  rfl

theorem outputsOf_append (amount : Amount) (xs ys : List RawBlock) : outputsOf amount (xs ++ ys) =
      outputsOf amount xs ++ group amount (outputsFrom xs.length ys) := by
  rw [outputsOf, outputsFrom_append, group_append, zero_add]
  rfl

variable {start index : Nat} {amount : Amount} {row : KeyOutputRow} {parents : Lineage}

/-- Every row describes an output at its position. -/
theorem exists_of_mem_outputsFrom {blocks : List RawBlock}
    (mem : (amount, row) ∈ outputsFrom start blocks) :
    ∃ (p : Nat) (raw : RawBlock) (tx : CachedTransaction) (output : TransactionOutput),
      blocks[p]? = some raw ∧ row.position.blockIndex = start + p ∧
      raw.allTransactions[row.position.transactionIndex]? = some tx ∧
      tx.transaction.outputs[row.position.outputIndex]? = some output ∧
      output.amount = amount ∧ output.key = row.publicKey ∧
      tx.transaction.unlockTime = row.unlockTime := by
  simp only [outputsFrom, RawBlock.outputRows, outputRows, mem_flatMap,
    mem_map, Prod.exists, Prod.mk.injEq] at mem
  obtain ⟨raw, index, at_raw, tx, i, at_tx, output, j, at_output, rfl, rfl⟩ := mem
  obtain ⟨le, at_raw⟩ := mem_zipIdx_iff_le_and_getElem?_sub.1 at_raw
  exact ⟨index - start, raw, tx, output, at_raw, by simp only; omega,
    mem_zipIdx_iff_getElem?.1 at_tx, mem_zipIdx_iff_getElem?.1 at_output, rfl, rfl, rfl⟩

/-- Rows lie in the blocks they are listed for. -/
theorem blockIndex_of_mem_group {blocks : List RawBlock}
    (mem : row ∈ group amount (outputsFrom start blocks)) :
    start ≤ row.position.blockIndex ∧ row.position.blockIndex < start + blocks.length := by
  obtain ⟨p, raw, tx, output, at_raw, index, -⟩ := exists_of_mem_outputsFrom (mem_group.1 mem)
  have inside := (List.getElem?_eq_some_iff.1 at_raw).1
  omega

theorem map_fst_outputRows_transaction (index place : Nat) (tx : CachedTransaction) :
    (tx.outputRows index place).map Prod.fst = tx.amounts := by
  rw [outputRows, map_map]
  exact Slice.map_zipIdx_fst TransactionOutput.amount _ 0

theorem map_fst_outputRows (index : Nat) (txs : List CachedTransaction) :
    (txs.zipIdx.flatMap fun tx => tx.1.outputRows index tx.2).map Prod.fst =
      txs.flatMap amounts := by
  rw [map_flatMap]
  simp only [map_fst_outputRows_transaction, Slice.flatMap_zipIdx_fst]

/-- Amounts of the outputs, in order. -/
theorem map_fst_outputsFrom (start : Nat) (blocks : List RawBlock) :
    (outputsFrom start blocks).map Prod.fst =
      (blocks.flatMap RawBlock.allTransactions).flatMap amounts := by
  rw [outputsFrom, map_flatMap, flatMap_assoc, ← Slice.flatMap_zipIdx_fst _ blocks start]
  simp only [RawBlock.outputRows, map_fst_outputRows]

/-! ### Tables after a push -/

namespace DatabaseBlockchainCache

/-- The loop over the outputs of a transaction: each is appended to the rows of its amount,
and the indexes noted are the places within the amount. -/
theorem foldl_pushOutput (index place unlockTime : Nat) (outputs : List (TransactionOutput × Nat))
    (table : Amount → List KeyOutputRow) (noted : List (Amount × Nat)) :
    outputs.foldl (pushOutput index place unlockTime) (table, noted) =
      (fun amount => table amount ++ group amount (outputs.map fun output =>
          (output.1.amount, ⟨⟨index, place, output.2⟩, output.1.key, unlockTime⟩)),
        noted ++ number (fun amount => (table amount).length)
          (outputs.map fun output => output.1.amount)) := by
  induction outputs generalizing table noted with
  | nil => simp [number]
  | cons output outputs ih =>
    have counted : ∀ row, (fun amount => (update table output.1.amount
        (table output.1.amount ++ [row]) amount).length) =
          update (fun amount => (table amount).length) output.1.amount
            ((table output.1.amount).length + 1) := by
      intro row
      exact (comp_update length table _ _).trans (by rw [length_append]; rfl)
    rw [foldl_cons, pushOutput, ih]
    simp only [map_cons, number, counted]
    congr 1
    · funext amount
      by_cases same : output.1.amount = amount
      · subst same
        rw [update_self, group_cons_self, append_assoc]
        rfl
      · rw [update_of_ne (fun h => same h.symm), group_cons_of_ne same]
    · rw [append_assoc]
      rfl

theorem keyOutputs_pushTransaction (cache : DatabaseBlockchainCache) (tx : CachedTransaction)
    (index place : Nat) : (cache.pushTransaction tx index place).keyOutputs =
      fun amount => cache.keyOutputs amount ++ group amount (tx.outputRows index place) := by
  rw [pushTransaction, foldl_pushOutput]
  rfl

theorem transactions_pushTransaction (cache : DatabaseBlockchainCache) (tx : CachedTransaction)
    (index place : Nat) : (cache.pushTransaction tx index place).transactions =
      update cache.transactions tx.transactionHash
        (some ⟨number (fun amount => (cache.keyOutputs amount).length) tx.amounts⟩) := by
  rw [pushTransaction, foldl_pushOutput]
  simp only [nil_append, amounts, Slice.map_zipIdx_fst TransactionOutput.amount]

end DatabaseBlockchainCache

/-- What the database notes for each transaction when the outputs before them are counted by
`count`. -/
def recordsFrom (count : Amount → Nat) :
    List CachedTransaction → List (Hash × ExtendedTransactionInfo)
  | [] => []
  | tx :: txs =>
    (tx.transactionHash, ⟨number count tx.amounts⟩) ::
      recordsFrom (fun amount => count amount + tx.amounts.count amount) txs

theorem recordsFrom_append (count : Amount → Nat) (xs ys : List CachedTransaction) :
    recordsFrom count (xs ++ ys) = recordsFrom count xs ++ recordsFrom (fun amount =>
      count amount + (xs.flatMap amounts).count amount) ys := by
  induction xs generalizing count with
  | nil => simp [recordsFrom]
  | cons tx xs ih =>
    rw [cons_append, recordsFrom, recordsFrom, ih, cons_append, flatMap_cons]
    simp only [count_append, add_assoc]

theorem map_fst_recordsFrom (count : Amount → Nat) (txs : List CachedTransaction) :
    (recordsFrom count txs).map Prod.fst = txs.map (·.transactionHash) := by
  induction txs generalizing count with
  | nil => rfl
  | cons tx txs ih => rw [recordsFrom, map_cons, ih, map_cons]

/-- Together the records number all outputs. -/
theorem flatMap_recordsFrom (count : Amount → Nat) (txs : List CachedTransaction) :
    ((recordsFrom count txs).map Prod.snd).flatMap (·.amountToKeyIndexes) =
      number count (txs.flatMap amounts) := by
  induction txs generalizing count with
  | nil => rfl
  | cons tx txs ih =>
    rw [recordsFrom, map_cons, flatMap_cons, ih, flatMap_cons, number_append]

namespace DatabaseBlockchainCache

theorem keyOutputs_foldl_pushTransaction (index : Nat) (txs : List (CachedTransaction × Nat))
    (cache : DatabaseBlockchainCache) :
    (txs.foldl (fun cache tx => cache.pushTransaction tx.1 index tx.2) cache).keyOutputs =
      fun amount => cache.keyOutputs amount ++
        group amount (txs.flatMap fun tx => tx.1.outputRows index tx.2) := by
  induction txs generalizing cache with
  | nil => simp
  | cons tx txs ih =>
    rw [foldl_cons, ih, keyOutputs_pushTransaction, flatMap_cons]
    simp only [group_append, append_assoc]

theorem transactions_foldl_pushTransaction (index : Nat)
    (txs : List (CachedTransaction × Nat)) (cache : DatabaseBlockchainCache) :
    (txs.foldl (fun cache tx => cache.pushTransaction tx.1 index tx.2) cache).transactions =
      writeAll cache.transactions
        (recordsFrom (fun amount => (cache.keyOutputs amount).length) (txs.map Prod.fst)) := by
  induction txs generalizing cache with
  | nil => rfl
  | cons tx txs ih =>
    rw [foldl_cons, ih, map_cons, recordsFrom, writeAll, writeAll, foldl_cons,
      transactions_pushTransaction, keyOutputs_pushTransaction]
    simp only [length_append, length_group, map_fst_outputRows_transaction]

theorem transactions_pushBlock (cache : DatabaseBlockchainCache) (pushed : PushedBlockInfo) :
    (cache.pushBlock pushed).transactions =
      writeAll cache.transactions (recordsFrom (fun amount => (cache.keyOutputs amount).length)
        pushed.rawBlock.allTransactions) := by
  have filled := transactions_foldl_pushTransaction (cache.getTopBlockIndex + 1)
    pushed.rawBlock.allTransactions.zipIdx
  rw [zipIdx_map_fst] at filled
  exact filled _

end DatabaseBlockchainCache

/-- Positions of the outputs of an amount and the number of outputs before them; an empty
list is not kept. -/
def globalIndexesOf (startIndex : Nat) (rows : List KeyOutputRow) :
    Option OutputGlobalIndexesForAmount :=
  if rows = [] then none else some ⟨startIndex, rows.map (·.position)⟩

namespace BlockchainCache

theorem keyOutputsGlobalIndexes_pushBlock (parents : Lineage) (cache : BlockchainCache)
    (pushed : PushedBlockInfo) : (cache.pushBlock parents pushed).keyOutputsGlobalIndexes =
      (pushed.rawBlock.outputRows pushed.rawBlock.block.getBlockIndex).foldl
        (fun table row => insertKeyOutputToGlobalIndex parents table row.1 row.2.position)
        cache.keyOutputsGlobalIndexes := by
  rw [RawBlock.outputRows, foldl_flatMap]
  refine (foldl_hom keyOutputsGlobalIndexes fun cache tx => ?_).symm
  rw [outputRows, foldl_map]
  rfl

variable {amount : Amount} {startIndex : Nat}

/-- The table of an amount after one of its outputs is added. -/
theorem insertKeyOutput_self {parents : Lineage}
    {table : Amount → Option OutputGlobalIndexesForAmount}
    {rows : List KeyOutputRow} (held : table amount = globalIndexesOf startIndex rows)
    {row : KeyOutputRow} (counted : rows = [] →
      parents.getKeyOutputsCountForAmount amount row.position.blockIndex = startIndex) :
    insertKeyOutputToGlobalIndex parents table amount row.position amount =
      globalIndexesOf startIndex (rows ++ [row]) := by
  unfold insertKeyOutputToGlobalIndex
  by_cases empty : rows = []
  · subst empty
    rw [held]
    simp [globalIndexesOf, counted rfl]
  · rw [held]
    simp [globalIndexesOf, empty]

theorem insertKeyOutput_of_ne (parents : Lineage)
    (table : Amount → Option OutputGlobalIndexesForAmount) {other : Amount}
    (ne : other ≠ amount) (position : PackedOutIndex) :
    insertKeyOutputToGlobalIndex parents table other position amount = table amount := by
  unfold insertKeyOutputToGlobalIndex
  cases table other with
  | none | some own => exact update_of_ne (fun h => ne h.symm) ..

/-- Positions of the outputs of one block, indexed after those that are there. -/
theorem foldl_insertKeyOutput (parents : Lineage) {blockIndex : Nat}
    (news : List (Amount × KeyOutputRow)) (table : Amount → Option OutputGlobalIndexesForAmount)
    (rows : List KeyOutputRow) (inBlock : ∀ row ∈ news, row.2.position.blockIndex = blockIndex)
    (held : table amount = globalIndexesOf startIndex rows)
    (counted : rows = [] → parents.getKeyOutputsCountForAmount amount blockIndex = startIndex) :
    news.foldl (fun table row => insertKeyOutputToGlobalIndex parents table row.1 row.2.position)
      table amount = globalIndexesOf startIndex (rows ++ group amount news) := by
  induction news generalizing table rows with
  | nil =>
    rw [foldl_nil, group_nil, append_nil]
    exact held
  | cons new news ih =>
    have rest := (forall_mem_cons.1 inBlock).2
    rw [foldl_cons]
    by_cases same : new.1 = amount
    · obtain ⟨amount', row⟩ := new
      cases same
      have index : row.position.blockIndex = blockIndex := inBlock _ mem_cons_self
      rw [group_cons_self, append_cons]
      refine ih _ _ rest (insertKeyOutput_self held ?_) fun empty => by simp at empty
      rw [index]
      exact counted
    · rw [group_cons_of_ne same]
      exact ih _ _ rest ((insertKeyOutput_of_ne parents table same _).trans held) counted

end BlockchainCache

/-! ### Tables that describe a chain -/

/-- Hashes of a block's transactions, the coinbase's first. -/
def RawBlock.allHashes (raw : RawBlock) : List Hash := raw.allTransactions.map (·.transactionHash)

def Entry.allHashes (entry : Entry) : List Hash := entry.1.allHashes

/-- Positions that a segment with the given blocks above a chain keeps. -/
def PositionsOk (below blocks : List RawBlock)
    (table : Amount → Option OutputGlobalIndexesForAmount) : Prop :=
  ∀ amount, table amount = globalIndexesOf (outputsOf amount below).length
    (group amount (outputsFrom below.length blocks))

/-- Rows of a database: all outputs by amount, a record for each transaction, and the true
hashes with each block. -/
structure RowsOk (cache : DatabaseBlockchainCache) : Prop where
  outputs : ∀ amount, cache.keyOutputs amount = outputsOf amount (cache.blocks.map (·.rawBlock))
  records : Tabulates cache.transactions (recordsFrom (fun _ => 0)
    ((cache.blocks.map (·.rawBlock)).flatMap RawBlock.allTransactions))
  claimed : ∀ row ∈ cache.blocks, row.transactionHashes = row.rawBlock.allHashes

def Cache.OutputTables (below : List Entry) : Cache → Prop
  | .memory cache => PositionsOk (below.map Prod.fst) cache.storage cache.keyOutputsGlobalIndexes
  | .database cache => RowsOk cache

/-- The tables of a segment describe its part of the chain, on which no transaction hash
occurs twice. -/
structure OutputsOk (below : List Entry) (cache : Cache) : Prop where
  distinct : (keysOf Entry.allHashes (below ++ cache.entries)).Nodup
  tables : cache.OutputTables below

theorem keysOf_map_fst (entries : List Entry) :
    keysOf RawBlock.allHashes (entries.map Prod.fst) = keysOf Entry.allHashes entries :=
  keysOf_map Prod.fst entries

theorem OutputsOk.distinct_raw {below : List Entry} {cache : Cache} (ok : OutputsOk below cache)
    (sound : cache.Sound) :
    (keysOf RawBlock.allHashes (below.map Prod.fst ++ cache.rawBlocks)).Nodup := by
  rw [← Cache.map_fst_entries sound.aligned, ← map_append, keysOf_map_fst]
  exact ok.distinct

/-- What a segment keeps of an amount that its blocks have outputs of. -/
abbrev ownTable (amount : Amount) (below blocks : List RawBlock) : OutputGlobalIndexesForAmount :=
  ⟨(outputsOf amount below).length, (group amount (outputsFrom below.length blocks)).map (·.position)⟩

theorem PositionsOk.cases {below blocks : List RawBlock}
    {table : Amount → Option OutputGlobalIndexesForAmount} (ok : PositionsOk below blocks table)
    (amount : Amount) :
    (table amount = none ∧ outputsOf amount (below ++ blocks) = outputsOf amount below) ∨
      table amount = some (ownTable amount below blocks) := by
  rw [ok amount, outputsOf_append]
  by_cases empty : group amount (outputsFrom below.length blocks) = []
  · exact .inl ⟨by rw [empty]; rfl, by rw [empty, append_nil]⟩
  · exact .inr (if_neg empty)

/-! ### Counting -/

/-- A search for a block index cuts the outputs of a chain there. -/
theorem lowerBound_outputs (low high : List KeyOutputRow)
    (lows : ∀ row ∈ low, row.position.blockIndex < index)
    (highs : ∀ row ∈ high, index ≤ row.position.blockIndex) :
    lowerBound (fun position => decide (position.blockIndex < index))
      ((low ++ high).map (·.position)) = low.length := by
  rw [map_append, lowerBound_append, length_map]
  · intro position mem
    obtain ⟨row, held, rfl⟩ := mem_map.1 mem
    exact decide_eq_true (lows row held)
  · intro position mem
    obtain ⟨row, held, rfl⟩ := mem_map.1 mem
    rw [decide_eq_true_eq, not_lt]
    exact highs row held

theorem RowsOk.getKeyOutputsCountForAmount {cache : DatabaseBlockchainCache} (ok : RowsOk cache)
    (parents : Lineage) (amount : Amount) (index : Nat) :
    Lineage.getKeyOutputsCountForAmount (.database cache :: parents) amount index =
      (outputsOf amount ((cache.blocks.map (·.rawBlock)).take index)).length := by
  have cut := ok.outputs amount
  generalize cache.blocks.map (·.rawBlock) = blocks at cut ⊢
  rw [← take_append_drop index blocks, outputsOf_append] at cut
  rw [Lineage.getKeyOutputsCountForAmount, cut, lowerBound_append]
  · intro row mem
    have inside := (blockIndex_of_mem_group mem).2
    rw [length_take] at inside
    exact decide_eq_true (by omega)
  · intro row mem
    obtain ⟨from_take, inside⟩ := blockIndex_of_mem_group mem
    rw [length_take] at from_take inside
    rw [length_drop] at inside
    rw [decide_eq_true_eq]
    omega

theorem map_fst_chain_cons {cache : Cache} (sound : cache.Sound) :
    (chainOf Cache.entries (cache :: parents)).map Prod.fst =
      (chainOf Cache.entries parents).map Prod.fst ++ cache.rawBlocks := by
  rw [chainOf, map_append, Cache.map_fst_entries sound.aligned]

/-- Above the chain all its outputs are counted. -/
theorem getKeyOutputsCountForAmount_eq (amount : Amount) (index : Nat) {lineage : Lineage}
    (fits : LineageOk Cache.entries Fits lineage) (ok : LineageOk Cache.entries OutputsOk lineage)
    (above : ((chainOf Cache.entries lineage).map Prod.fst).length ≤ index) :
    lineage.getKeyOutputsCountForAmount amount index =
      (outputsOf amount ((chainOf Cache.entries lineage).map Prod.fst)).length := by
  rw [length_map] at above
  induction lineage with
  | nil => rfl
  | cons cache parents ih =>
    obtain ⟨fits, fitsBelow⟩ := fits
    obtain ⟨ok, okBelow⟩ := ok
    have rest := ih fitsBelow okBelow (by
      rw [chainOf, length_append] at above
      omega)
    rw [map_fst_chain_cons fits.sound]
    have blocks_length : cache.rawBlocks.length = cache.entries.length := by
      rw [Cache.length_entries fits.sound.aligned, fits.sound.aligned]
    rw [chainOf, length_append, ← blocks_length] at above
    cases cache with
    | database cache =>
      have root : chainOf Cache.entries parents = [] := length_eq_zero_iff.1 fits.start.symm
      have tables : RowsOk cache := ok.tables
      rw [tables.getKeyOutputsCountForAmount, root, map_nil, nil_append, take_of_length_le]
      · rfl
      · exact le_trans (Nat.le_add_left _ _) above
    | memory cache =>
      have tables : PositionsOk _ cache.storage cache.keyOutputsGlobalIndexes := ok.tables
      have own_eq : (Cache.memory cache).rawBlocks = cache.storage := rfl
      rw [own_eq] at above ⊢
      rcases tables.cases amount with ⟨held, same⟩ | held
      · rw [same, Lineage.getKeyOutputsCountForAmount, held]
        exact rest
      · rw [outputsOf_append, length_append, Lineage.getKeyOutputsCountForAmount, held]
        have inside : ∀ row ∈ group amount (outputsFrom
            ((chainOf Cache.entries parents).map Prod.fst).length cache.storage),
            row.position.blockIndex < index := by
          intro row mem
          have lt := (blockIndex_of_mem_group mem).2
          rw [length_map] at lt
          omega
        have all := lowerBound_outputs _ [] inside (forall_mem_nil _)
        rw [append_nil] at all
        simp only [all]

/-! ### Pushing and splitting keep the tables -/

theorem positionsOk_create (below : List RawBlock) (start : Nat) :
    PositionsOk below [] (BlockchainCache.create start).keyOutputsGlobalIndexes := fun _ => rfl

theorem blockIndex_of_mem_outputRows {raw : RawBlock} {row : Amount × KeyOutputRow}
    (mem : row ∈ raw.outputRows index) : row.2.position.blockIndex = index := by
  rw [← outputsFrom_singleton] at mem
  have inside := blockIndex_of_mem_group (mem_group.2 mem)
  rw [length_singleton] at inside
  omega

/-- A push asks the parents for the outputs before it only while the segment has none of
the amount. -/
theorem PositionsOk.pushBlock {below : List RawBlock} {cache : BlockchainCache}
    (ok : PositionsOk below cache.storage cache.keyOutputsGlobalIndexes) {pushed : PushedBlockInfo}
    (index : pushed.rawBlock.block.getBlockIndex = below.length + cache.storage.length)
    (counted : ∀ amount, group amount (outputsFrom below.length cache.storage) = [] →
      parents.getKeyOutputsCountForAmount amount (below.length + cache.storage.length) =
        (outputsOf amount below).length) : PositionsOk below (cache.storage ++ [pushed.rawBlock])
      (cache.pushBlock parents pushed).keyOutputsGlobalIndexes := by
  intro amount
  rw [BlockchainCache.keyOutputsGlobalIndexes_pushBlock, index, outputsFrom_append, group_append,
    outputsFrom_singleton]
  exact BlockchainCache.foldl_insertKeyOutput parents _ _ _
    (fun row mem => blockIndex_of_mem_outputRows mem) (ok amount) (counted amount)

section Split

variable {below blocks : List RawBlock} {table : Amount → Option OutputGlobalIndexesForAmount}

/-- Outputs of a segment on both sides of a cut. -/
theorem outputs_cut (amount : Amount) (start : Nat) (blocks : List RawBlock) {n : Nat}
    (inside : n ≤ blocks.length) : group amount (outputsFrom start blocks) =
        group amount (outputsFrom start (blocks.take n)) ++
          group amount (outputsFrom (start + n) (blocks.drop n)) ∧
      (∀ row ∈ group amount (outputsFrom start (blocks.take n)),
        row.position.blockIndex < start + n) ∧
      ∀ row ∈ group amount (outputsFrom (start + n) (blocks.drop n)),
        start + n ≤ row.position.blockIndex := by
  have length_eq : (blocks.take n).length = n := length_take_of_le inside
  refine ⟨?_, ?_, fun row mem => (blockIndex_of_mem_group mem).1⟩
  · conv_lhs => rw [← take_append_drop n blocks, outputsFrom_append, group_append, length_eq]
  · intro row mem
    have lt := (blockIndex_of_mem_group mem).2
    rwa [length_eq] at lt

theorem PositionsOk.halves (ok : PositionsOk below blocks table) {n : Nat}
    (inside : n ≤ blocks.length) :
    PositionsOk below (blocks.take n) (fun amount =>
        (table amount).bind (BlockchainCache.lowerOutputs (below.length + n))) ∧
      PositionsOk (below ++ blocks.take n) (blocks.drop n) fun amount =>
        (table amount).bind (BlockchainCache.upperOutputs (below.length + n)) := by
  refine forall_and.1 fun amount => ?_
  obtain ⟨whole, lows, highs⟩ := outputs_cut amount below.length blocks inside
  simp only [ok amount, whole, outputsOf_append, length_append, length_take_of_le inside]
  generalize group amount (outputsFrom below.length (blocks.take n)) = low at lows ⊢
  generalize group amount (outputsFrom (below.length + n) (blocks.drop n)) = high at highs ⊢
  by_cases empty : low ++ high = []
  · rw [append_eq_nil_iff] at empty
    rw [empty.1, empty.2]
    exact ⟨rfl, rfl⟩
  · rw [globalIndexesOf, if_neg empty, Option.bind_some, Option.bind_some,
      BlockchainCache.lowerOutputs, BlockchainCache.upperOutputs,
      lowerBound_outputs low high lows highs, map_append, take_left' (length_map _),
      drop_left' (length_map _)]
    simp [globalIndexesOf, ← add_assoc]

end Split

/-! ### The database's rows -/

theorem map_hash_flatMap (blocks : List RawBlock) :
    (blocks.flatMap RawBlock.allTransactions).map (·.transactionHash) =
      keysOf RawBlock.allHashes blocks := by
  rw [map_flatMap]
  rfl

namespace RowsOk

variable {cache : DatabaseBlockchainCache}

theorem addGenesisBlock (genesis : CachedBlock) : RowsOk (.addGenesisBlock genesis) where
  outputs := by
    intro amount
    simp only [DatabaseBlockchainCache.addGenesisBlock, keyOutputs_pushTransaction, nil_append]
    simp [outputsOf, outputsFrom, RawBlock.outputRows, RawBlock.allTransactions,
      RawBlock.cachedTransactions, pushTransaction]
  records := by
    have distinct : (([] ++ recordsFrom (fun _ => 0) [genesis.baseTransaction]).map
        Prod.fst).Nodup := nodup_singleton _
    have table_eq : (DatabaseBlockchainCache.addGenesisBlock genesis).transactions =
        writeAll (fun _ => none) (recordsFrom (fun _ => 0) [genesis.baseTransaction]) := by
      rw [DatabaseBlockchainCache.addGenesisBlock, transactions_pushTransaction]
      rfl
    rw [table_eq]
    exact Tabulates.nil.writeAll distinct
  claimed := forall_mem_singleton.2 rfl

/-- A block that claims the hashes of its transactions, all new. -/
theorem pushBlock (ok : RowsOk cache) (nonempty : cache.blocks ≠ []) {pushed : PushedBlockInfo}
    (claims : pushed.rawBlock.block.transactionHashes =
      pushed.rawBlock.cachedTransactions.map (·.transactionHash))
    (distinct : (keysOf RawBlock.allHashes
      (cache.blocks.map (·.rawBlock) ++ [pushed.rawBlock])).Nodup) :
    RowsOk (cache.pushBlock pushed) := by
  have blocks_eq : (cache.pushBlock pushed).blocks.map (·.rawBlock) =
      cache.blocks.map (·.rawBlock) ++ [pushed.rawBlock] := by
    rw [blocks_pushBlock, map_append]
    rfl
  have height : cache.getTopBlockIndex + 1 = (cache.blocks.map (·.rawBlock)).length := by
    have pos := length_pos_iff.2 nonempty
    rw [getTopBlockIndex, length_map]
    omega
  refine ⟨?_, ?_, ?_⟩
  · intro amount
    rw [blocks_eq, outputsOf_append, outputsFrom_singleton, ← height, ← ok.outputs amount]
    exact congrFun (keyOutputs_foldl_pushTransaction _ _ _) amount
  · have counted : (fun amount => (cache.keyOutputs amount).length) = fun amount =>
        0 + (((cache.blocks.map (·.rawBlock)).flatMap RawBlock.allTransactions).flatMap
          amounts).count amount := by
      funext amount
      rw [ok.outputs amount, outputsOf, length_group, map_fst_outputsFrom, zero_add]
    rw [blocks_eq, transactions_pushBlock, counted, flatMap_append,
      flatMap_singleton, recordsFrom_append]
    apply ok.records.writeAll
    rw [← recordsFrom_append, map_fst_recordsFrom, ← flatMap_singleton RawBlock.allTransactions,
      ← flatMap_append, map_hash_flatMap]
    exact distinct
  · rw [blocks_pushBlock]
    refine forall_mem_append.2 ⟨ok.claimed, forall_mem_singleton.2 ?_⟩
    simp only [nextRow, claims, RawBlock.allHashes, RawBlock.allTransactions, map_cons]

/-- The records, cut at a block; the later ones count the outputs before the cut. -/
theorem records_cut (blocks : List BlockRow) (n : Nat) :
    recordsFrom (fun _ => 0) ((blocks.map (·.rawBlock)).flatMap RawBlock.allTransactions) =
      recordsFrom (fun _ => 0)
          (((blocks.take n).map (·.rawBlock)).flatMap RawBlock.allTransactions) ++
        recordsFrom (fun amount => (outputsOf amount ((blocks.take n).map (·.rawBlock))).length)
          (((blocks.drop n).map (·.rawBlock)).flatMap RawBlock.allTransactions) := by
  conv_lhs => rw [← take_append_drop n blocks, map_append, flatMap_append, recordsFrom_append]
  simp only [outputsOf, length_group, map_fst_outputsFrom, zero_add]

/-- The first global index among the records of the blocks cut off. -/
theorem splitBoundary_eq (count : Amount → Nat) (txs : List CachedTransaction) (amount : Amount) :
    splitBoundary ((recordsFrom count txs).map Prod.snd) amount =
      if (txs.flatMap amounts).count amount = 0 then none
      else some (count amount) := by
  have indexes := flatMap_recordsFrom count txs
  have consecutive := group_number count (txs.flatMap amounts) amount
  rw [group] at consecutive
  rw [splitBoundary, indexes, consecutive]
  generalize (txs.flatMap amounts).count amount = outputs
  cases outputs with
  | zero => rfl
  | succ outputs =>
    rw [if_neg (Nat.succ_ne_zero _), min?_eq_some_iff]
    refine ⟨mem_range'_1.2 (by omega), fun index mem => (mem_range'_1.1 mem).1⟩

/-- A split finds all records, so it does not throw, and keeps the rows of the lower
blocks. -/
theorem exists_split (ok : RowsOk cache)
    (distinct : (keysOf RawBlock.allHashes (cache.blocks.map (·.rawBlock))).Nodup)
    (splitBlockIndex : Nat) :
    ∃ lower, cache.split splitBlockIndex = some (lower, cache.upperSegment splitBlockIndex) ∧
      RowsOk lower := by
  have records := ok.records
  have claimed : (cache.blocks.drop splitBlockIndex).flatMap (·.transactionHashes) =
      (recordsFrom (fun amount =>
          (outputsOf amount ((cache.blocks.take splitBlockIndex).map (·.rawBlock))).length)
        (((cache.blocks.drop splitBlockIndex).map (·.rawBlock)).flatMap
          RawBlock.allTransactions)).map Prod.fst := by
    rw [map_fst_recordsFrom, map_hash_flatMap, keysOf, flatMap_map]
    exact flatMap_congr fun row mem => ok.claimed row (mem_of_mem_drop mem)
  have keys : ((recordsFrom (fun _ => 0) ((cache.blocks.map (·.rawBlock)).flatMap
      RawBlock.allTransactions)).map Prod.fst).Nodup := by
    rw [map_fst_recordsFrom, map_hash_flatMap]
    exact distinct
  rw [records_cut cache.blocks splitBlockIndex] at records keys
  have found := records.mapM (subset_append_right _ _)
  rw [← claimed] at found
  simp only [DatabaseBlockchainCache.split, found]
  refine ⟨_, rfl, ?_, ?_, ?_⟩
  · intro amount
    have cut := ok.outputs amount
    rw [← take_append_drop splitBlockIndex cache.blocks, map_append, outputsOf_append] at cut
    have later := length_group amount (outputsFrom
      ((cache.blocks.take splitBlockIndex).map (·.rawBlock)).length
      ((cache.blocks.drop splitBlockIndex).map (·.rawBlock)))
    rw [map_fst_outputsFrom] at later
    simp only [splitBoundary_eq, ← later, cut]
    split
    · rename_i none_eq
      split at none_eq
      · rename_i empty
        rw [length_eq_zero_iff] at empty
        rw [empty, append_nil]
      · cases none_eq
    · rename_i boundary some_eq
      split at some_eq
      · cases some_eq
      · cases some_eq
        exact take_left
  · simp only [claimed]
    exact records.erase keys
  · intro row mem
    exact ok.claimed row (mem_of_mem_take mem)

/-- A row pushed again above the lower blocks, in its place: the database that is asked for
the outputs before it still holds all rows, but the search stops at the block in question. -/
theorem restored_counts (ok : RowsOk cache) (sound : (Cache.database cache).Sound) {cut : Nat}
    (pos : 0 < cut) (inside : cut ≤ cache.blocks.length) {done : List BlockRow} {row : BlockRow}
    (ahead : done ++ [row] <+: cache.blocks.drop cut) {below storage : List RawBlock}
    (below_eq : below = (cache.blocks.take cut).map (·.rawBlock))
    (storage_eq : storage = done.map (·.rawBlock)) :
    row.rawBlock.block.getBlockIndex = below.length + storage.length ∧
      ∀ amount, group amount (outputsFrom below.length storage) = [] →
        Lineage.getKeyOutputsCountForAmount [.database cache] amount
          (below.length + storage.length) = (outputsOf amount below).length := by
  have below_length : below.length = cut := by
    rw [below_eq, length_map, length_take_of_le inside]
  have storage_length : storage.length = done.length := by
    rw [storage_eq, length_map]
  have lower_eq : (cache.blocks.map (·.rawBlock)).take (cut + done.length) = below ++ storage := by
    obtain ⟨rest, all⟩ := ahead
    rw [below_eq, storage_eq, ← map_take, take_add, ← all, append_assoc, take_left, map_append]
  rw [storage_length]
  constructor
  · rw [below_length]
    exact (restored_row sound pos ahead).2
  · intro amount unseen
    rw [ok.getKeyOutputsCountForAmount, below_length, lower_eq, outputsOf_append, unseen,
      append_nil]

/-- The rebuilt upper half numbers its outputs after those of the lower blocks. -/
theorem positionsOk_upperSegment (ok : RowsOk cache) (sound : (Cache.database cache).Sound)
    {cut : Nat} (pos : 0 < cut) (inside : cut ≤ cache.blocks.length) :
    PositionsOk ((cache.blocks.take cut).map (·.rawBlock))
      ((cache.blocks.drop cut).map (·.rawBlock))
      (cache.upperSegment cut).keyOutputsGlobalIndexes := by
  refine (upperSegment_induction
    (Q := fun done upper => upper.storage = done.map (·.rawBlock) ∧
      PositionsOk ((cache.blocks.take cut).map (·.rawBlock)) (done.map (·.rawBlock))
        upper.keyOutputsGlobalIndexes) ⟨rfl, positionsOk_create _ _⟩ ?_).2
  rintro done previous row upper ahead ⟨storage, positions⟩
  obtain ⟨index, counted⟩ := ok.restored_counts sound pos inside ahead rfl storage
  rw [← storage] at positions
  rw [map_append, ← storage]
  exact ⟨BlockchainCache.storage_pushBlock .., positions.pushBlock index counted⟩

end RowsOk

namespace Cache

variable {below : List Entry} {cache lower upper : Cache}
  {cut : Nat} {pushed : PushedBlockInfo}

theorem outputTables_split (fits : Fits below cache) (ok : OutputsOk below cache)
    (above : cache.getStartBlockIndex < cut) (inside : cut ≤ cache.getTopBlockIndex)
    (halves : cache.split cut = some (lower, upper)) :
    lower.OutputTables below ∧ upper.OutputTables (below ++ lower.entries) := by
  obtain ⟨sound, start, -⟩ := fits
  obtain ⟨lower_raw, upper_raw⟩ := split_rawBlocks sound above inside halves
  have top_eq := sound.getTopBlockIndex_rawBlocks
  cases cache with
  | memory cache =>
    have tables : PositionsOk _ cache.storage cache.keyOutputsGlobalIndexes := ok.tables
    have start' : cache.startIndex = (below.map Prod.fst).length := by
      rw [length_map]
      exact start
    obtain ⟨n, rfl⟩ : ∃ n, cut = cache.startIndex + n := Nat.exists_eq_add_of_le (le_of_lt above)
    simp only [getStartBlockIndex, rawBlocks, Nat.add_sub_cancel_left] at top_eq lower_raw
    have short : n ≤ cache.storage.length := by omega
    cases halves
    have halvesOk := tables.halves short
    rw [← start'] at halvesOk
    obtain ⟨lowerOk, upperOk⟩ := halvesOk
    constructor
    · simpa [OutputTables, BlockchainCache.split] using lowerOk
    · rw [OutputTables, map_append, lower_raw]
      simpa [BlockchainCache.split] using upperOk
  | database cache =>
    have rows : RowsOk cache := ok.tables
    obtain rfl : below = [] := length_eq_zero_iff.1 start.symm
    have distinct := ok.distinct
    rw [nil_append, entries_eq, keysOf_map] at distinct
    obtain ⟨kept, parts, keptOk⟩ := rows.exists_split (by rw [keysOf_map]; exact distinct)
      cut
    simp only [Cache.split, parts, Option.map_some, Option.some.injEq, Prod.mk.injEq] at halves
    obtain ⟨rfl, rfl⟩ := halves
    refine ⟨keptOk, ?_⟩
    simp only [getStartBlockIndex, Nat.sub_zero, rawBlocks, ← map_take,
      ← map_drop] at lower_raw upper_raw
    rw [OutputTables, nil_append, lower_raw, upper_raw]
    apply rows.positionsOk_upperSegment sound above
    simp only [getStartBlockIndex, rawBlocks, length_map] at top_eq inside
    omega

/-- Both halves of a split. -/
theorem outputsOk_split (fits : Fits below cache) (ok : OutputsOk below cache)
    (above : cache.getStartBlockIndex < cut) (inside : cut ≤ cache.getTopBlockIndex)
    (halves : cache.split cut = some (lower, upper)) :
    OutputsOk below lower ∧ OutputsOk (below ++ lower.entries) upper := by
  obtain ⟨lowerTables, upperTables⟩ := outputTables_split fits ok above inside halves
  have all := ok.distinct
  rw [(fits.split above inside halves).1, ← append_assoc] at all
  exact ⟨⟨(nodup_parts all).1, lowerTables⟩, ⟨all, upperTables⟩⟩

/-- A block of new transactions on top of a segment. -/
theorem outputsOk_pushBlock {parents : Lineage}
    (fits : LineageOk Cache.entries Fits (cache :: parents))
    (ok : LineageOk Cache.entries OutputsOk (cache :: parents))
    (index : pushed.rawBlock.block.getBlockIndex = cache.getTopBlockIndex + 1)
    (claims : pushed.rawBlock.block.transactionHashes =
      pushed.rawBlock.cachedTransactions.map (·.transactionHash))
    (distinct : (keysOf Entry.allHashes (chainOf Cache.entries (cache :: parents)) ++
      pushed.rawBlock.allHashes).Nodup) :
    OutputsOk (chainOf Cache.entries parents) (cache.pushBlock parents pushed) := by
  obtain ⟨⟨sound, start, -⟩, fitsBelow⟩ := fits
  obtain ⟨⟨-, tables⟩, okBelow⟩ := ok
  have top_eq := sound.getTopBlockIndex_rawBlocks
  constructor
  · rw [entries_pushBlock parents pushed sound.aligned, ← append_assoc, keysOf_append,
      keysOf_singleton]
    exact distinct
  cases cache with
  | memory cache =>
    have positions : PositionsOk _ cache.storage cache.keyOutputsGlobalIndexes := tables
    have height : pushed.rawBlock.block.getBlockIndex =
        ((chainOf Cache.entries parents).map Prod.fst).length + cache.storage.length := by
      rw [index, top_eq, start, length_map]
      rfl
    rw [Cache.pushBlock, OutputTables, BlockchainCache.storage_pushBlock]
    refine positions.pushBlock height fun amount _ => ?_
    exact getKeyOutputsCountForAmount_eq amount _ fitsBelow okBelow (Nat.le_add_right _ _)
  | database cache =>
    have rows : RowsOk cache := tables
    refine rows.pushBlock ?_ claims ?_
    · intro empty
      exact sound.nonempty (by rw [blockInfos, empty]; rfl)
    · have root : chainOf Cache.entries parents = [] := length_eq_zero_iff.1 start.symm
      rw [chainOf, root, nil_append, entries_eq, keysOf_map]
        at distinct
      rw [keysOf_append, keysOf_singleton, keysOf_map]
      exact distinct

/-- The first block of a segment above a lineage. -/
theorem outputsOk_create {lineage : Lineage} (fits : LineageOk Cache.entries Fits lineage)
    (ok : LineageOk Cache.entries OutputsOk lineage)
    (index : pushed.rawBlock.block.getBlockIndex = (chainOf Cache.entries lineage).length)
    (distinct : (keysOf Entry.allHashes (chainOf Cache.entries lineage) ++
      pushed.rawBlock.allHashes).Nodup) (start : Nat) : OutputsOk (chainOf Cache.entries lineage)
      ((Cache.memory (.create start)).pushBlock lineage pushed) := by
  constructor
  · rw [entries_pushBlock lineage pushed rfl]
    change (keysOf _ (chainOf _ lineage ++ [_])).Nodup
    rw [keysOf_append, keysOf_singleton]
    exact distinct
  · have created := positionsOk_create ((chainOf Cache.entries lineage).map Prod.fst) start
    rw [Cache.pushBlock, OutputTables, BlockchainCache.storage_pushBlock]
    refine PositionsOk.pushBlock created ?_ fun amount _ => ?_
    · rw [index, length_map]
      rfl
    · exact getKeyOutputsCountForAmount_eq amount _ fits ok (Nat.le_add_right _ _)

end Cache

namespace Core

variable {env : Env} {order : HashOrder} {now : Nat} {core core' : Core} {raw : RawBlock}
  {seg previous : Nat} {pushed : PushedBlockInfo} {result : AddBlockResult}
  {genesis : CachedBlock}

/-- The block claims the hashes of the transactions it carries, and these are new to the
chain. -/
structure FreshOn (chain : List Entry) (raw : RawBlock) : Prop where
  claims : raw.block.transactionHashes = raw.cachedTransactions.map (·.transactionHash)
  distinct : raw.allHashes.Nodup
  fresh : ∀ hash ∈ raw.allHashes, hash ∉ keysOf Entry.allHashes chain

instance (chain : List Entry) (raw : RawBlock) : Decidable (FreshOn chain raw) :=
  decidable_of_iff (_ ∧ _ ∧ _)
    ⟨fun h => ⟨h.1, h.2.1, h.2.2⟩, fun h => ⟨h.claims, h.distinct, h.fresh⟩⟩

/-- The call brings no block whose transactions were seen on its chain before or are not
those it claims. -/
def FreshTransactions (core : Core) : Call → Prop
  | .addBlock _ raw => FreshOn (core.ancestors raw.block.previousBlockHash) raw
  | .addTransactionToPool _ _ => True
  | .cleanPool _ => True

instance (core : Core) : DecidablePred core.FreshTransactions
  | .addBlock _ _ => inferInstanceAs (Decidable (FreshOn _ _))
  | .addTransactionToPool _ _ | .cleanPool _ => isTrue trivial

theorem FreshOn.nodup {chain : List Entry} (fresh : FreshOn chain raw)
    (distinct : (keysOf Entry.allHashes chain).Nodup) :
    (keysOf Entry.allHashes chain ++ raw.allHashes).Nodup :=
  nodup_append.2 ⟨distinct, fresh.distinct, fun _ old hash new same =>
    fresh.fresh hash new (same ▸ old)⟩

theorem outputsOk_step (linear : core.Linear)
    (ok : Consistent Cache.entries OutputsOk core.chainsStorage)
    (passed : core.checkBlock env now raw = .ok (seg, previous, pushed))
    (keeps : core.KeepsRoot env (.addBlock now raw))
    (fresh : core.FreshTransactions (.addBlock now raw))
    (committed : Committed env order now core seg previous pushed core' result) :
    Consistent Cache.entries OutputsOk core'.chainsStorage := by
  have shape := linear.shape
  obtain ⟨nd, parents, parent, placed, same⟩ := shape.placed passed
  have index := placed.index_pushed same
  have fits := placed.holds shape linear.fits
  have own := placed.holds shape ok
  have freshHere : FreshOn (chainTo nd parents previous) pushed.rawBlock := by
    rw [same, ← linear.ancestors_of_checkBlock passed placed]
    exact fresh
  have distinct : (keysOf Entry.allHashes (chainTo nd parents previous) ++
      pushed.rawBlock.allHashes).Nodup := freshHere.nodup (nodup_chainTo own.distinct)
  refine (consistent_step shape linear.fits ok placed same committed
    (fun below => placed.not_sharedRoot shape passed below keeps) ?_ ?_ ?_).2
  · intro lineageFits lineageOk top chain_eq _
    rw [chain_eq] at distinct
    rw [← top] at index
    exact Cache.outputsOk_pushBlock lineageFits lineageOk index freshHere.claims distinct
  · intro lineage lineageFits lineageOk chain_eq _
    rw [← placed.length_chainTo fits] at index
    rw [← chain_eq] at distinct index ⊢
    exact Cache.outputsOk_create lineageFits lineageOk index distinct _
  · intro lower upper above inside halves _ _
    exact Cache.outputsOk_split fits own above inside halves

theorem outputsOk_genesis (genesis : CachedBlock) :
    OutputsOk [] (.database (.addGenesisBlock genesis)) where
  distinct := nodup_singleton _
  tables := RowsOk.addGenesisBlock genesis

/-- The tables are in order after every run of calls that keep the root whole and bring new
transactions. -/
theorem outputsOk_afterCalls {calls : List Call} (ok : TransitionSystem.Along (step env order)
      (fun core call => core.KeepsRoot env call ∧ core.FreshTransactions call) (load genesis) calls) :
    Consistent Cache.entries OutputsOk (afterCalls env order genesis calls).chainsStorage :=
  consistent_afterCalls (fun _ _ ok => ok.1) (outputsOk_genesis genesis)
    (fun linear tables ok passed committed =>
      outputsOk_step linear tables passed ok.1 ok.2 committed) ok

end Core

end DeroGold
