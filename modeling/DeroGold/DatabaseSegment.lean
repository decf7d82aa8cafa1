import DeroGold.Database

/-!
`DatabaseBlockchainCache` over its key-value store: construction, `pushBlock`, `split`,
`rewind` and the questions it answers.
-/

namespace DeroGold

open KeyValue DatabaseBlockchainCache

/-- What the segment gets from elsewhere: the payment id found in the extra field of a
transaction, and the value that reading an absent day entry gives. The assertion against
the latter is not part of a release build. -/
structure DatabaseEnv where
  paymentId : CachedTransaction → Option Hash
  undefinedIndex : Nat

/-- Numbers kept in memory that an operation adjusts before it writes. -/
structure Counters where
  transactionsCount : Option Nat
  keyOutputAmountsCount : Option Nat
  keyOutputCountsForAmounts : Amount → Option Nat

/-- The store and what is kept in memory beside it. `children` counts the child segments. -/
structure DatabaseSegment extends Counters where
  database : Database
  topBlockIndex : Option Nat
  topBlockHash : Option Hash
  unitsCache : List CachedBlockInfo
  children : Nat

inductive DatabaseError where
  | notFound
  | timestampTooBig
  | readFailed
  | writeFailed
  deriving DecidableEq

/-- Result of an operation and the segment it leaves behind, also when it throws. -/
structure Outcome (α : Type) where
  result : Except DatabaseError α
  segment : DatabaseSegment

/-! ### Counters -/

namespace Counters

variable (database : Database) (counters : Counters)

def getCachedTransactionsCount : Nat :=
  counters.transactionsCount.getD ((database.transactionsCount ()).getD 0)

def getKeyOutputAmountsCount : Nat :=
  counters.keyOutputAmountsCount.getD ((database.amountsCount ()).getD 0)

/-- Number of outputs of an amount, as the next output is numbered. -/
def keyOutputCount (amount : Amount) : Nat :=
  (counters.keyOutputCountsForAmounts amount).getD ((database.outputCounts amount).getD 0)

/-- The first time that an amount without stored outputs is met, it is counted as a new
amount. -/
def updateKeyOutputCount (amount : Amount) (diff : Int) : Nat × Counters :=
  let amountsCount := counters.getKeyOutputAmountsCount database
  let value := counters.keyOutputCount database amount
  let count := (value + diff).toNat
  (count, { counters with
    keyOutputAmountsCount :=
      match counters.keyOutputCountsForAmounts amount with
      | some _ => some amountsCount
      | none => if value = 0 then some (amountsCount + 1) else counters.keyOutputAmountsCount
    keyOutputCountsForAmounts :=
      Function.update counters.keyOutputCountsForAmounts amount (some count) })

end Counters

/-! ### Pushing transactions -/

/-- What the loop over the outputs of a transaction has collected. -/
structure PushedOutputs where
  counters : Counters
  batch : BlockchainWriteBatch
  keyIndexes : List (Amount × PackedOutIndex)
  newKeyAmounts : List Amount
  amountToKeyIndexes : List (Amount × Nat)

/-- The counters in memory and the batch collected so far. -/
abbrev Collected := Counters × BlockchainWriteBatch

/-- What is stored of a transaction, apart from the global indexes. -/
def CachedTransaction.info (tx : CachedTransaction) (blockIndex transactionIndex : Nat) :
    CachedTransactionInfo :=
  ⟨blockIndex, transactionIndex, tx.transactionHash, tx.transaction.unlockTime,
    tx.transaction.outputs.map (·.key)⟩

namespace Database

variable (database : Database)

def pushOutput (info : CachedTransactionInfo) (state : PushedOutputs)
    (output : TransactionOutput × Nat) : PushedOutputs :=
  let amount := output.1.amount
  let updated := state.counters.updateKeyOutputCount database amount 1
  let globalIndex := updated.1 - 1
  { counters := updated.2
    batch := state.batch.insertKeyOutputInfo amount globalIndex
      ⟨output.1.key, info.transactionHash, info.unlockTime, output.2⟩
    keyIndexes := state.keyIndexes ++ [(amount, ⟨info.blockIndex, info.transactionIndex, output.2⟩)]
    newKeyAmounts :=
      if updated.1 = 1 then state.newKeyAmounts ++ [amount] else state.newKeyAmounts
    amountToKeyIndexes := state.amountToKeyIndexes ++ [(amount, globalIndex)] }

def pushOutputs (info : CachedTransactionInfo) (outputs : List TransactionOutput)
    (state : Collected) : PushedOutputs :=
  outputs.zipIdx.foldl (database.pushOutput info) ⟨state.1, state.2, [], [], []⟩

/-- The positions of one amount, below the count that the outputs have already raised. -/
def insertPositions (keyIndexes : List (Amount × PackedOutIndex))
    (state : Collected) (amount : Amount) : Collected :=
  let updated := state.1.updateKeyOutputCount database amount 0
  let positions := (keyIndexes.filter fun entry => entry.1 = amount).map (·.2)
  (updated.2, state.2.insertKeyOutputGlobalIndexes amount positions updated.1)

def insertAllPositions (outputs : PushedOutputs) : Collected :=
  (outputs.keyIndexes.map (·.1)).dedup.foldl (database.insertPositions outputs.keyIndexes)
    (outputs.counters, outputs.batch)

def insertNewAmounts (newKeyAmounts : List Amount) (state : Collected) : BlockchainWriteBatch :=
  if newKeyAmounts = [] then state.2
  else state.2.insertKeyOutputAmounts (newKeyAmounts.dedup.insertionSort (· ≤ ·))
    (state.1.getKeyOutputAmountsCount database)

/-- The number under which a payment id is stored comes from the store, not from the batch
that is being collected. -/
def insertPaymentId (env : DatabaseEnv) (tx : CachedTransaction) (batch : BlockchainWriteBatch) :
    BlockchainWriteBatch :=
  match env.paymentId tx with
  | none => batch
  | some paymentId =>
    batch.insertPaymentId tx.transactionHash paymentId
      ((database.paymentCounts paymentId).getD 0 + 1)

def pushTransaction (env : DatabaseEnv) (state : Collected) (tx : CachedTransaction)
    (blockIndex transactionBlockIndex : Nat) : Collected :=
  let info := tx.info blockIndex transactionBlockIndex
  let outputs := database.pushOutputs info tx.transaction.outputs state
  let positioned := database.insertAllPositions outputs
  let batch := database.insertPaymentId env tx
    (database.insertNewAmounts outputs.newKeyAmounts positioned)
  let count := positioned.1.getCachedTransactionsCount database + 1
  ({ positioned.1 with transactionsCount := some count },
    batch.insertCachedTransaction ⟨info, outputs.amountToKeyIndexes⟩ count)

/-- The transactions of a block, the coinbase first. -/
def pushTransactions (env : DatabaseEnv) (blockIndex : Nat) (txs : List CachedTransaction)
    (state : Collected) : Collected :=
  txs.zipIdx.foldl (fun state tx => database.pushTransaction env state tx.1 blockIndex tx.2) state

/-- A day keeps the first block that was noted for it. -/
def insertDay (timestamp blockIndex : Nat) (batch : BlockchainWriteBatch) : BlockchainWriteBatch :=
  match database.closestTimestamps (roundToMidnight timestamp) with
  | some _ => batch
  | none => batch.insertClosestTimestampBlockIndex (roundToMidnight timestamp) blockIndex

end Database

/-! ### Pushing a block -/

namespace DatabaseSegment

variable (segment : DatabaseSegment)

def getTopBlockIndex : Nat :=
  segment.topBlockIndex.getD ((segment.database.lastBlockIndex ()).getD 0)

/-- `none` is the exception for a missing block info. -/
def getTopBlockHash : Option Hash :=
  segment.topBlockHash.or
    ((segment.database.blockInfos segment.getTopBlockIndex).map (·.blockHash))

def getTransactionCount : Nat := segment.getCachedTransactionsCount segment.database

def pushUnit (units : List CachedBlockInfo) (blockInfo : CachedBlockInfo) : List CachedBlockInfo :=
  let units := units ++ [blockInfo]
  if unitsCacheSize < units.length then units.drop 1 else units

/-- The part of the batch that describes the block itself. -/
def blockBatch (blockIndex : Nat) (blockInfo : CachedBlockInfo) (pushed : PushedBlockInfo) :
    BlockchainWriteBatch :=
  let block := pushed.rawBlock.block
  ((BlockchainWriteBatch.empty.insertSpentKeyImages blockIndex pushed.spentKeyImages)
    |>.insertCachedBlock blockInfo blockIndex
      (block.baseTransaction.transactionHash :: block.transactionHashes))
    |>.insertRawBlock blockIndex pushed.rawBlock

/-- `writes` says whether the database accepts the batch. -/
def pushBlock (env : DatabaseEnv) (writes : Bool) (pushed : PushedBlockInfo) : Outcome Unit :=
  let blockIndex := segment.getTopBlockIndex + 1
  let timestamp := pushed.rawBlock.block.timestamp
  match segment.database.blockInfos segment.getTopBlockIndex with
  | none => ⟨.error .notFound, segment⟩
  | some lastBlockInfo =>
    let blockInfo := lastBlockInfo.next pushed
    let prepared := segment.database.pushTransactions env blockIndex
      pushed.rawBlock.allTransactions
      (segment.toCounters, blockBatch blockIndex blockInfo pushed)
    -- the counters have moved, whatever happens to the batch
    let segment := { segment with toCounters := prepared.1 }
    if maxTime < timestamp then ⟨.error .timestampTooBig, segment⟩
    else if writes then
      ⟨.ok (), { segment with
        database := segment.database.write
          (segment.database.insertDay timestamp blockIndex prepared.2)
        topBlockIndex := some blockIndex
        topBlockHash := some blockInfo.blockHash
        unitsCache := pushUnit segment.unitsCache blockInfo }⟩
    else ⟨.error .writeFailed, segment⟩

/-! ### Deleting -/

/-- The indexes of the blocks from a given one up to the top. -/
def indexesFrom (blockIndex : Nat) : List Nat :=
  List.range' blockIndex (segment.getTopBlockIndex + 1 - blockIndex)

end DatabaseSegment

namespace Database

variable (database : Database)

/-- What has to be pushed elsewhere to restore a stored block. The genesis block has no
entry for its key images. -/
def getPushedBlockInfo (blockIndex : Nat) : Option PushedBlockInfo := do
  let blockInfo ← database.blockInfos blockIndex
  let previous ← database.blockInfos (blockIndex - 1)
  let rawBlock ← database.rawBlocks blockIndex
  let spentKeyImages ← database.spentKeyImages blockIndex
  some {
    rawBlock := rawBlock
    spentKeyImages := spentKeyImages
    blockSize := blockInfo.blockSize
    generatedCoins := subUInt64 blockInfo.alreadyGeneratedCoins previous.alreadyGeneratedCoins
    blockDifficulty := subUInt64 blockInfo.cumulativeDifficulty previous.cumulativeDifficulty }

/-- Remove the entries of the blocks from an index on, the highest first. -/
def deleteBlocks (deleting : List PushedBlockInfo) (splitBlockIndex : Nat)
    (batch : BlockchainWriteBatch) : BlockchainWriteBatch :=
  (deleting.zipIdx splitBlockIndex).reverse.foldl (fun batch entry =>
    ((batch.removeCachedBlock entry.1.rawBlock.block.blockHash entry.2).removeRawBlock entry.2)
      |>.removeSpentKeyImages entry.2 entry.1.spentKeyImages) batch

def requestDeleteTransactions (transactionHashes : List Hash) (state : Collected) : Collected :=
  transactionHashes.foldl (fun state hash =>
    let count := subUInt64 (state.1.getCachedTransactionsCount database) 1
    ({ state.1 with transactionsCount := some count }, state.2.removeCachedTransaction hash count))
    state

/-- The payment id of a stored transaction, found through its block. -/
def requestPaymentId (env : DatabaseEnv) (transactionHash : Hash) : Option Hash := do
  let info ← database.transactions transactionHash
  let block ← database.rawBlocks info.blockIndex
  let transaction ← block.allTransactions[info.transactionIndex]?
  env.paymentId transaction

/-- The count that `requestDeletePaymentId` stores. It is read as a 32-bit number, so the
cast changes it only where more is deleted than was counted. -/
def paymentsLeft (count toDelete : Nat) : Nat :=
  if toDelete ≤ count then count - toDelete else uint32 (subUInt64 count toDelete)

def requestDeletePaymentIds (env : DatabaseEnv) (transactionHashes : List Hash)
    (batch : BlockchainWriteBatch) : BlockchainWriteBatch :=
  let paymentIds := transactionHashes.filterMap (database.requestPaymentId env)
  paymentIds.dedup.foldl (fun batch paymentId =>
    batch.removePaymentId paymentId
      (paymentsLeft ((database.paymentCounts paymentId).getD 0) (paymentIds.count paymentId))) batch

/-- Nothing is read without a request, and the read then fails. -/
def requestExtendedTransactionInfos (transactionHashes : List Hash) :
    Option (List StoredTransaction) :=
  if transactionHashes = [] then none else transactionHashes.mapM database.transactions

/-- Smallest deleted global index of an amount. -/
def keyIndexSplitBoundary (deleted : List StoredTransaction) (amount : Amount) : Option Nat :=
  ((deleted.flatMap (·.amountToKeyIndexes)).filterMap fun index =>
    if index.1 = amount then some index.2 else none).min?

def requestDeleteKeyOutputsAmount (amount : Amount) (boundary outputsCount : Nat)
    (state : Collected) : Collected :=
  ((state.1.updateKeyOutputCount database amount ((boundary : Int) - outputsCount)).2,
    (List.range' boundary (outputsCount - boundary)).foldl
      (fun batch index => batch.removeKeyOutputInfo amount index)
      (state.2.removeKeyOutputGlobalIndexes amount (outputsCount - boundary) boundary))

/-- Amounts without a stored count are passed over. -/
def requestDeleteKeyOutputs (deleted : List StoredTransaction) (state : Collected) : Collected :=
  ((deleted.flatMap (·.amountToKeyIndexes)).map (·.1)).dedup.foldl (fun state amount =>
    match database.outputCounts amount, keyIndexSplitBoundary deleted amount with
    | some outputsCount, some boundary =>
      database.requestDeleteKeyOutputsAmount amount boundary outputsCount state
    | _, _ => state) state

/-- The days from a given one on, as far as they follow each other. No day lies beyond the
largest time, which bounds the loop. -/
def daysFrom (days : DayIndex) : Nat → Nat → List Nat
  | 0, _ => []
  | rounds + 1, midnight =>
    match days midnight with
    | none => []
    | some _ => midnight :: daysFrom days rounds (midnight + oneDaySeconds)

/-- A day whose first block stays is kept. -/
def deleteClosestTimestampBlockIndex (env : DatabaseEnv) (timestamp splitBlockIndex : Nat)
    (batch : BlockchainWriteBatch) : BlockchainWriteBatch :=
  let midnight := roundToMidnight timestamp
  let blockIndex := (database.closestTimestamps midnight).getD env.undefinedIndex
  let midnight := if splitBlockIndex = blockIndex then midnight else midnight + oneDaySeconds
  (daysFrom database.closestTimestamps (maxTime / oneDaySeconds + 1) midnight).foldl
    (fun batch midnight => batch.removeClosestTimestampBlockIndex midnight) batch

end Database

namespace DatabaseSegment

variable (env : DatabaseEnv) (segment : DatabaseSegment)

def requestTransactionHashesFromBlockIndex (splitBlockIndex : Nat) : List Hash :=
  (segment.indexesFrom splitBlockIndex).flatMap fun blockIndex =>
    (segment.database.transactionHashes blockIndex).getD []

/-- The deletions that `split` and `rewind` have in common, after the blocks have been read
and with the batch collected so far. -/
def deleteFrom (writes : Bool) (batch : BlockchainWriteBatch)
    (deleting : List PushedBlockInfo) (splitBlockIndex : Nat) : Outcome Unit :=
  let database := segment.database
  let transactionHashes := segment.requestTransactionHashesFromBlockIndex splitBlockIndex
  let counted := database.requestDeleteTransactions transactionHashes
    (segment.toCounters, Database.deleteBlocks deleting splitBlockIndex batch)
  let batch := database.requestDeletePaymentIds env transactionHashes counted.2
  match database.requestExtendedTransactionInfos transactionHashes with
  | none => ⟨.error .readFailed, { segment with toCounters := counted.1 }⟩
  | some deleted =>
    let cut := database.requestDeleteKeyOutputs deleted (counted.1, batch)
    match database.blockInfos splitBlockIndex with
    | none => ⟨.error .notFound, { segment with toCounters := cut.1 }⟩
    | some blockInfo =>
      if maxTime < blockInfo.timestamp then
        ⟨.error .timestampTooBig, { segment with toCounters := cut.1 }⟩
      else if writes then
        ⟨.ok (), {
          database := database.write (database.deleteClosestTimestampBlockIndex env
            blockInfo.timestamp splitBlockIndex cut.2)
          topBlockIndex := none
          topBlockHash := none
          toCounters := { cut.1 with transactionsCount := none }
          unitsCache := cutTail segment.unitsCache
            (segment.getTopBlockIndex + 1 - splitBlockIndex)
          children := segment.children + 1 }⟩
      else ⟨.error .writeFailed, { segment with toCounters := cut.1 }⟩

/-- The blocks from an index on go to a new segment, which becomes a child. Returns what is
pushed there. -/
def split (writes : Bool) (splitBlockIndex : Nat) : Outcome (List PushedBlockInfo) :=
  match (segment.indexesFrom splitBlockIndex).mapM segment.database.getPushedBlockInfo with
  | none => ⟨.error .notFound, segment⟩
  | some deleting =>
    -- above the top there is nothing to ask for
    if segment.getTopBlockIndex < splitBlockIndex then ⟨.error .readFailed, segment⟩
    else
      let outcome := segment.deleteFrom env writes .empty deleting splitBlockIndex
      ⟨outcome.result.map fun _ => deleting, outcome.segment⟩

/-- A first round of deletions that leaves out the newest block. -/
def deleteAllButTop (height : Nat) : BlockchainWriteBatch :=
  (((segment.indexesFrom height).dropLast.filterMap segment.database.blockInfos).zipIdx height).foldl
    (fun batch entry => (batch.removeCachedBlock entry.1.blockHash entry.2).removeRawBlock entry.2)
    .empty

/-- Like `split`, but the new segment is given up at the end, although it stays among the
children. -/
def rewind (writes : Bool) (height : Nat) : Outcome Unit :=
  if height ≤ 1 then ⟨.ok (), { segment with database := .empty }⟩
  else if segment.getTopBlockIndex ≤ height then ⟨.ok (), segment⟩
  else
    match (segment.indexesFrom height).mapM segment.database.getPushedBlockInfo with
    | none => ⟨.error .notFound, segment⟩
    | some deleting =>
      segment.deleteFrom env writes (segment.deleteAllButTop height) deleting height

/-! ### Construction -/

def currentDbSchemeVersion : Nat := 2

/-- A segment that has nothing in memory yet. -/
def onDatabase (database : Database) : DatabaseSegment where
  database := database
  topBlockIndex := none
  topBlockHash := none
  transactionsCount := none
  keyOutputAmountsCount := none
  keyOutputCountsForAmounts := fun _ => none
  unitsCache := []
  children := 0

def addGenesisBlock (genesis : CachedBlock) : Outcome Unit :=
  let blockInfo := genesisBlockInfo genesis
  let base := genesis.baseTransaction
  let pushed := segment.database.pushTransaction env (segment.toCounters, .empty) base 0 0
  if maxTime < genesis.timestamp then
    ⟨.error .timestampTooBig, { segment with toCounters := pushed.1 }⟩
  else
    let batch := (pushed.2.insertCachedBlock blockInfo 0 [base.transactionHash]).insertRawBlock 0
      ⟨genesis, []⟩
    ⟨.ok (), { segment with
      toCounters := pushed.1
      database := segment.database.write
        (batch.insertClosestTimestampBlockIndex (roundToMidnight genesis.timestamp) 0)
      topBlockHash := some blockInfo.blockHash
      unitsCache := segment.unitsCache ++ [blockInfo] }⟩

/-- The scheme version is written to a new store. -/
def writeVersion (database : Database) : Database :=
  match database.version () with
  | some _ => database
  | none => database.write
      { BlockchainWriteBatch.empty with version := Changes.none.insert () currentDbSchemeVersion }

/-- The constructor. A store whose last block index is zero or absent gets the genesis
block. -/
def create (genesis : CachedBlock) (database : Database) : Outcome Unit :=
  let segment := onDatabase (writeVersion database)
  let segment := { segment with topBlockIndex := some segment.getTopBlockIndex }
  if segment.getTopBlockIndex = 0 then segment.addGenesisBlock env genesis
  else ⟨.ok (), segment⟩

end DatabaseSegment

end DeroGold
