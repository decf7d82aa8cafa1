import DeroGold.CacheUpdate
import DeroGold.Lib.KeyValue

/-!
The database behind the root segment, down to its key-value pairs.

`DatabaseBlockchainCache` keeps counters and the newest block infos in memory and
everything else in a key-value store. Each of its operations reads the store, collects a
batch of changes while it already adjusts the counters in memory, and writes the batch in
one piece at the end. An operation that throws keeps the adjusted counters, so every
operation here returns the segment it leaves behind together with its result.

The keys begin with one prefix for each kind of entry, so the store is one table per kind.
Counters that the source fills from the store on first use are read here whenever they are
asked for; nothing can be written between the two moments. Left out are the block hashes
by timestamp, which nothing inserts any more, and the column families, which `write` does
not store. Output counts stay below `2 ^ 31` and are natural numbers.
-/

namespace DeroGold

open KeyValue

/-! ### Times -/

/-- First block of each day that the database knows of, by the second the day begins. -/
abbrev DayIndex := Nat → Option Nat

def oneDaySeconds : Nat := 60 * 60 * 24

/-- Second at which the day of a timestamp begins. -/
def roundToMidnight (timestamp : Nat) : Nat := timestamp / oneDaySeconds * oneDaySeconds

/-- Largest value of a signed 64-bit time; later times are refused with an exception. -/
def maxTime : Nat := 2 ^ 63 - 1

/-! ### The key-value store -/

/-- What is stored under an amount and a global index for ring lookups. -/
structure KeyOutputInfo where
  publicKey : PublicKey
  transactionHash : Hash
  unlockTime : Nat
  outputIndex : Nat
  deriving DecidableEq

/-- A stored transaction with the global indexes of its outputs, in the order of the
outputs. -/
structure StoredTransaction extends CachedTransactionInfo where
  amountToKeyIndexes : List (Amount × Nat)
  deriving DecidableEq

def StoredTransaction.globalIndexes (info : StoredTransaction) : List Nat :=
  info.amountToKeyIndexes.map (·.2)

/-- One member for each kind of entry. -/
structure Tables (T : Type → Type → Type) where
  version : T Unit Nat
  spentKeyImages : T Nat (List KeyImage)
  transactionHashes : T Nat (List Hash)
  rawBlocks : T Nat RawBlock
  blockIndexes : T Hash Nat
  blockInfos : T Nat CachedBlockInfo
  spentAt : T KeyImage Nat
  lastBlockIndex : T Unit Nat
  transactions : T Hash StoredTransaction
  transactionsCount : T Unit Nat
  outputCounts : T Amount Nat
  outputs : T (Amount × Nat) PackedOutIndex
  closestTimestamps : T Nat Nat
  paymentCounts : T Hash Nat
  payments : T (Hash × Nat) Hash
  amountsCount : T Unit Nat
  amounts : T Nat Amount
  outputInfos : T (Amount × Nat) KeyOutputInfo

abbrev Database := Tables Table

abbrev BlockchainWriteBatch := Tables Changes

def Tables.replicate {T : Type → Type → Type} (member : ∀ κ ν, T κ ν) : Tables T :=
  ⟨member _ _, member _ _, member _ _, member _ _, member _ _, member _ _, member _ _,
    member _ _, member _ _, member _ _, member _ _, member _ _, member _ _, member _ _,
    member _ _, member _ _, member _ _, member _ _⟩

/-- A store without entries. -/
def Database.empty : Database := .replicate fun _ _ _ => none

/-- Perform a batch. -/
def Database.write (database : Database) (batch : BlockchainWriteBatch) : Database where
  version := KeyValue.write database.version batch.version
  spentKeyImages := KeyValue.write database.spentKeyImages batch.spentKeyImages
  transactionHashes := KeyValue.write database.transactionHashes batch.transactionHashes
  rawBlocks := KeyValue.write database.rawBlocks batch.rawBlocks
  blockIndexes := KeyValue.write database.blockIndexes batch.blockIndexes
  blockInfos := KeyValue.write database.blockInfos batch.blockInfos
  spentAt := KeyValue.write database.spentAt batch.spentAt
  lastBlockIndex := KeyValue.write database.lastBlockIndex batch.lastBlockIndex
  transactions := KeyValue.write database.transactions batch.transactions
  transactionsCount := KeyValue.write database.transactionsCount batch.transactionsCount
  outputCounts := KeyValue.write database.outputCounts batch.outputCounts
  outputs := KeyValue.write database.outputs batch.outputs
  closestTimestamps := KeyValue.write database.closestTimestamps batch.closestTimestamps
  paymentCounts := KeyValue.write database.paymentCounts batch.paymentCounts
  payments := KeyValue.write database.payments batch.payments
  amountsCount := KeyValue.write database.amountsCount batch.amountsCount
  amounts := KeyValue.write database.amounts batch.amounts
  outputInfos := KeyValue.write database.outputInfos batch.outputInfos

/-! ### Batches -/

namespace BlockchainWriteBatch

variable (batch : BlockchainWriteBatch)

def empty : BlockchainWriteBatch := .replicate fun _ _ => .none

def insertSpentKeyImages (blockIndex : Nat) (spentKeyImages : List KeyImage) :
    BlockchainWriteBatch :=
  { batch with
    spentKeyImages := batch.spentKeyImages.insert blockIndex spentKeyImages
    spentAt := batch.spentAt.insertAll (spentKeyImages.map (·, blockIndex)) }

def insertCachedTransaction (transaction : StoredTransaction) (totalTxsCount : Nat) :
    BlockchainWriteBatch :=
  { batch with
    transactions := batch.transactions.insert transaction.transactionHash transaction
    transactionsCount := batch.transactionsCount.insert () totalTxsCount }

def insertPaymentId (transactionHash paymentId : Hash) (totalTxsCountForPaymentId : Nat) :
    BlockchainWriteBatch :=
  { batch with
    paymentCounts := batch.paymentCounts.insert paymentId totalTxsCountForPaymentId
    payments := batch.payments.insert (paymentId, totalTxsCountForPaymentId - 1) transactionHash }

def insertCachedBlock (block : CachedBlockInfo) (blockIndex : Nat) (blockTxs : List Hash) :
    BlockchainWriteBatch :=
  { batch with
    blockInfos := batch.blockInfos.insert blockIndex block
    transactionHashes := batch.transactionHashes.insert blockIndex blockTxs
    blockIndexes := batch.blockIndexes.insert block.blockHash blockIndex
    lastBlockIndex := batch.lastBlockIndex.insert () blockIndex }

def insertKeyOutputGlobalIndexes (amount : Amount) (outputs : List PackedOutIndex)
    (totalOutputsCountForAmount : Nat) : BlockchainWriteBatch :=
  { batch with
    outputCounts := batch.outputCounts.insert amount totalOutputsCountForAmount
    outputs := batch.outputs.insertAll ((outputs.zipIdx
      (totalOutputsCountForAmount - outputs.length)).map fun output =>
        ((amount, output.2), output.1)) }

def insertRawBlock (blockIndex : Nat) (block : RawBlock) : BlockchainWriteBatch :=
  { batch with rawBlocks := batch.rawBlocks.insert blockIndex block }

def insertClosestTimestampBlockIndex (timestamp blockIndex : Nat) : BlockchainWriteBatch :=
  { batch with closestTimestamps := batch.closestTimestamps.insert timestamp blockIndex }

/-- The amounts come from an ordered set. -/
def insertKeyOutputAmounts (amounts : List Amount) (totalKeyOutputAmountsCount : Nat) :
    BlockchainWriteBatch :=
  { batch with
    amountsCount := batch.amountsCount.insert () totalKeyOutputAmountsCount
    amounts := batch.amounts.insertAll ((amounts.zipIdx
      (totalKeyOutputAmountsCount - amounts.length)).map fun amount => (amount.2, amount.1)) }

def insertKeyOutputInfo (amount : Amount) (globalIndex : Nat) (outputInfo : KeyOutputInfo) :
    BlockchainWriteBatch :=
  { batch with outputInfos := batch.outputInfos.insert (amount, globalIndex) outputInfo }

def removeSpentKeyImages (blockIndex : Nat) (spentKeyImages : List KeyImage) :
    BlockchainWriteBatch :=
  { batch with
    spentKeyImages := batch.spentKeyImages.remove blockIndex
    spentAt := batch.spentAt.removeAll spentKeyImages }

def removeCachedTransaction (transactionHash : Hash) (totalTxsCount : Nat) : BlockchainWriteBatch :=
  { batch with
    transactions := batch.transactions.remove transactionHash
    transactionsCount := batch.transactionsCount.insert () totalTxsCount }

/-- Of the entries that the smaller count leaves behind, only the first is removed. -/
def removePaymentId (paymentId : Hash) (totalTxsCountForPaymentId : Nat) : BlockchainWriteBatch :=
  { batch with
    paymentCounts := batch.paymentCounts.insert paymentId totalTxsCountForPaymentId
    payments := batch.payments.remove (paymentId, totalTxsCountForPaymentId) }

def removeCachedBlock (blockHash : Hash) (blockIndex : Nat) : BlockchainWriteBatch :=
  { batch with
    blockInfos := batch.blockInfos.remove blockIndex
    transactionHashes := batch.transactionHashes.remove blockIndex
    blockIndexes := batch.blockIndexes.remove blockHash
    lastBlockIndex := batch.lastBlockIndex.insert () (blockIndex - 1) }

def removeKeyOutputGlobalIndexes (amount : Amount)
    (outputsToRemoveCount totalOutputsCountForAmount : Nat) : BlockchainWriteBatch :=
  { batch with
    outputCounts := batch.outputCounts.insert amount totalOutputsCountForAmount
    outputs := batch.outputs.removeAll ((List.range outputsToRemoveCount).map fun i =>
      (amount, totalOutputsCountForAmount + i)) }

def removeRawBlock (blockIndex : Nat) : BlockchainWriteBatch :=
  { batch with rawBlocks := batch.rawBlocks.remove blockIndex }

def removeClosestTimestampBlockIndex (timestamp : Nat) : BlockchainWriteBatch :=
  { batch with closestTimestamps := batch.closestTimestamps.remove timestamp }

def removeKeyOutputInfo (amount : Amount) (globalIndex : Nat) : BlockchainWriteBatch :=
  { batch with outputInfos := batch.outputInfos.remove (amount, globalIndex) }

end BlockchainWriteBatch

end DeroGold
