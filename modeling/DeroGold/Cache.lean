import DeroGold.Currency
import DeroGold.Lib.Search

/-!
The two kinds of blockchain segment and the questions validation asks them.

A segment is an in-memory `BlockchainCache` or the `DatabaseBlockchainCache` at the
root. Most questions are passed on to the parent when the segment cannot answer
them, so they are asked of a `Lineage`: the caches met on the walk to the root, the
segment itself first. The database has no parent and never looks past itself.

Containers keyed by a unique value are tables `key → Option value`; the others are
lists in insertion order. Not kept, because nothing modelled reads it: payment ids,
the timestamp indexes, the list of output amounts, the transaction counters and the
global indexes recorded with an in-memory transaction.
-/

namespace DeroGold

open Search Parameters

/-! ### Data -/

structure CachedTransactionInfo where
  blockIndex : Nat
  transactionIndex : Nat
  transactionHash : Hash
  unlockTime : Nat
  outputs : List PublicKey
  deriving DecidableEq

structure OutputGlobalIndexesForAmount where
  startIndex : Nat
  outputs : List PackedOutIndex
  deriving DecidableEq

/-- An in-memory segment. -/
structure BlockchainCache where
  startIndex : Nat
  blockInfos : List CachedBlockInfo
  storage : List RawBlock
  spentKeyImages : KeyImage → Option Nat
  transactions : List CachedTransactionInfo
  keyOutputsGlobalIndexes : Amount → Option OutputGlobalIndexesForAmount

/-- `createBlockchainCache`: a segment without blocks. -/
def BlockchainCache.create (startIndex : Nat) : BlockchainCache where
  startIndex := startIndex
  blockInfos := []
  storage := []
  spentKeyImages := fun _ => none
  transactions := []
  keyOutputsGlobalIndexes := fun _ => none

/-- Everything the database stores under a block index. -/
structure BlockRow where
  info : CachedBlockInfo
  rawBlock : RawBlock
  transactionHashes : List Hash
  spentKeyImages : List KeyImage
  deriving DecidableEq

/-- The part of a stored transaction that a split reads back: the global indexes
its outputs received, amount by amount. -/
structure ExtendedTransactionInfo where
  amountToKeyIndexes : List (Amount × Nat)
  deriving DecidableEq

/-- The two rows stored under an amount and a global index. -/
structure KeyOutputRow where
  position : PackedOutIndex
  publicKey : PublicKey
  unlockTime : Nat
  deriving DecidableEq

/-- The root segment. `keyOutputs amount` lists the rows of an amount by global
index; `unitsCache` repeats the newest block infos. -/
structure DatabaseBlockchainCache where
  blocks : List BlockRow
  unitsCache : List CachedBlockInfo
  spentKeyImages : KeyImage → Option Nat
  transactions : Hash → Option ExtendedTransactionInfo
  keyOutputs : Amount → List KeyOutputRow

inductive Cache where
  | memory (cache : BlockchainCache)
  | database (cache : DatabaseBlockchainCache)

/-- A segment followed by its parents up to the root. -/
abbrev Lineage := List Cache

/-! ### One segment -/

namespace Cache

variable (cache : Cache)

def getStartBlockIndex : Cache → Nat
  | .memory cache => cache.startIndex
  | .database _ => 0

def blockInfos : Cache → List CachedBlockInfo
  | .memory cache => cache.blockInfos
  | .database cache => cache.blocks.map (·.info)

def rawBlocks : Cache → List RawBlock
  | .memory cache => cache.storage
  | .database cache => cache.blocks.map (·.rawBlock)

/-- The in-memory segment counts the blocks of its storage. -/
def getTopBlockIndex : Nat := cache.getStartBlockIndex + cache.rawBlocks.length - 1

def hasBlock (hash : Hash) : Bool :=
  cache.blockInfos.any fun info => info.blockHash == hash

def getBlockIndex (hash : Hash) : Nat :=
  cache.getStartBlockIndex + cache.blockInfos.findIdx fun info => info.blockHash == hash

def hasTransaction (hash : Hash) : Bool :=
  match cache with
  | .memory cache => cache.transactions.any fun info => info.transactionHash == hash
  | .database cache => (cache.transactions hash).isSome

/-- Info of a block of this segment; reading past the segment throws in the source. -/
def getCachedBlockInfo (blockIndex : Nat) : Option CachedBlockInfo :=
  if blockIndex < cache.getStartBlockIndex then none
  else cache.blockInfos[blockIndex - cache.getStartBlockIndex]?

def getCurrentCumulativeDifficulty : Nat :=
  (cache.blockInfos.getLast?.map (·.cumulativeDifficulty)).getD 0

end Cache

/-! ### The database's last units -/

namespace DatabaseBlockchainCache

variable (cache : DatabaseBlockchainCache)

def getTopBlockIndex : Nat := cache.blocks.length - 1

/-- The part of the request the units cache can serve. -/
def getLastCachedUnits (blockIndex count : Nat) (useGenesis : Bool) : List CachedBlockInfo :=
  let cacheStartIndex := cache.getTopBlockIndex + 1 - cache.unitsCache.length
  let count := min cache.unitsCache.length count
  if blockIndex < cacheStartIndex ∨ count = 0 then []
  else
    let count := min (blockIndex - cacheStartIndex + 1) count
    let offset := blockIndex + 1 - count - cacheStartIndex
    if !useGenesis ∧ cacheStartIndex = 0 ∧ offset = 0 then
      (cache.unitsCache.drop 1).take (count - 1)
    else (cache.unitsCache.drop offset).take count

/-- The infos stored from `blockIndex` downwards. -/
def getLastDbUnits (blockIndex count : Nat) (useGenesis : Bool) : List CachedBlockInfo :=
  let readFrom := blockIndex + 1 - min (blockIndex + 1) (uint32 count)
  let readFrom := if readFrom = 0 ∧ !useGenesis then 1 else readFrom
  ((cache.blocks.map (·.info)).drop readFrom).take (blockIndex + 1 - readFrom)

def getLastUnits (count blockIndex : Nat) (useGenesis : Bool) : List CachedBlockInfo :=
  let cachedUnits := cache.getLastCachedUnits blockIndex count useGenesis
  let availableUnits := if useGenesis then blockIndex + 1 else blockIndex
  if availableUnits - cachedUnits.length = 0 then cachedUnits
  else
    cache.getLastDbUnits (blockIndex - cachedUnits.length) (count - cachedUnits.length)
      useGenesis ++ cachedUnits

end DatabaseBlockchainCache

/-! ### Questions passed on to the parent -/

inductive ExtractOutputKeysError where
  | invalidGlobalIndex
  | outputLocked
  deriving DecidableEq

namespace BlockchainCache

/-- Key of an output of this segment, by global index. A global index below the
segment's first one wraps around to a position past every output. -/
def extractOwnKey (cache : BlockchainCache) (own : OutputGlobalIndexesForAmount)
    (unlocked : Nat → Bool) (globalIndex : Nat) : Except ExtractOutputKeysError PublicKey :=
  if globalIndex < own.startIndex then .error .invalidGlobalIndex
  else
    match own.outputs[globalIndex - own.startIndex]? with
    | none => .error .invalidGlobalIndex
    | some position =>
      match cache.transactions.find? fun info =>
        info.blockIndex == position.blockIndex &&
          info.transactionIndex == position.transactionIndex with
      | none => .error .invalidGlobalIndex
      | some info =>
        if unlocked info.unlockTime then .ok (info.outputs[position.outputIndex]?.getD 0)
        else .error .outputLocked

end BlockchainCache

/-- Keys of the rows found, by ascending global index; an index without a row is
passed over, and the block index is not looked at. -/
def DatabaseBlockchainCache.extractKeyOutputs (cache : DatabaseBlockchainCache)
    (unlocked : Nat → Bool) (amount : Amount) (globalIndexes : List Nat) :
    Except ExtractOutputKeysError (List PublicKey) :=
  ((globalIndexes.dedup.insertionSort (· ≤ ·)).filterMap fun globalIndex =>
    (cache.keyOutputs amount)[globalIndex]?).mapM fun row =>
      if unlocked row.unlockTime then .ok row.publicKey else .error .outputLocked

namespace Lineage

variable (lineage : Lineage)

/-- Info of a block of the segment or of one of its parents. -/
def getBlockInfo : Lineage → Nat → Option CachedBlockInfo
  | [], _ => none
  | cache :: parents, blockIndex =>
    if blockIndex < cache.getStartBlockIndex then getBlockInfo parents blockIndex
    else cache.blockInfos[blockIndex - cache.getStartBlockIndex]?

def getAlreadyGeneratedCoins (blockIndex : Nat) : Nat :=
  ((lineage.getBlockInfo blockIndex).map (·.alreadyGeneratedCoins)).getD 0

def getAlreadyGeneratedTransactions (blockIndex : Nat) : Nat :=
  ((lineage.getBlockInfo blockIndex).map (·.alreadyGeneratedTransactions)).getD 0

def getTopBlockIndex : Lineage → Nat
  | [] => 0
  | cache :: _ => cache.getTopBlockIndex

/-- The last `count` infos up to a block index. -/
def getLastUnits : Lineage → Nat → Nat → Bool → List CachedBlockInfo
  | [], _, _, _ => []
  | .database cache :: _, count, blockIndex, useGenesis =>
    cache.getLastUnits count blockIndex useGenesis
  | .memory cache :: parents, count, blockIndex, useGenesis =>
    let upTo := if blockIndex < cache.startIndex then 0 else blockIndex - cache.startIndex + 1
    let realCount := min count upTo
    let first := upTo - realCount
    let skip := !useGenesis && decide (first = 0) && decide (realCount ≠ 0) && parents.isEmpty
    let first := if skip then first + 1 else first
    let realCount := if skip then realCount - 1 else realCount
    let below :=
      if realCount < count ∧ ¬ parents.isEmpty then
        getLastUnits parents (count - realCount) (min blockIndex (getTopBlockIndex parents))
          useGenesis
      else []
    below ++ (cache.blockInfos.drop first).take (upTo - first)

def getLastTimestamps (count blockIndex : Nat) (useGenesis : Bool) : List Nat :=
  (lineage.getLastUnits count blockIndex useGenesis).map (·.timestamp)

def getLastBlocksSizes (count blockIndex : Nat) (useGenesis : Bool) : List Nat :=
  (lineage.getLastUnits count blockIndex useGenesis).map (·.blockSize)

def getLastCumulativeDifficulties (count blockIndex : Nat) (useGenesis : Bool) : List Nat :=
  (lineage.getLastUnits count blockIndex useGenesis).map (·.cumulativeDifficulty)

/-- The overloads without an index ask from the top of the segment; the database
counts the genesis block then, an in-memory segment does not. -/
def useGenesisByDefault : Lineage → Bool
  | .database _ :: _ => true
  | _ => false

def getLastTimestampsFromTop (count : Nat) : List Nat :=
  lineage.getLastTimestamps count lineage.getTopBlockIndex lineage.useGenesisByDefault

def getLastBlocksSizesFromTop (count : Nat) : List Nat :=
  lineage.getLastBlocksSizes count lineage.getTopBlockIndex lineage.useGenesisByDefault

def getDifficultyForNextBlock (blockIndex : Nat) : Option Nat :=
  nextDifficulty
    (lineage.getLastTimestamps difficultyBlocksCount blockIndex false)
    (lineage.getLastCumulativeDifficulties difficultyBlocksCount blockIndex false)
    blockIndex

/-- A segment that knows the key image answers for itself, also when it knows it
only from a later block. -/
def checkIfSpent : Lineage → KeyImage → Nat → Bool
  | [], _, _ => false
  | .database cache :: _, keyImage, blockIndex =>
    match cache.spentKeyImages keyImage with
    | none => false
    | some spentAt => decide (spentAt ≤ blockIndex)
  | .memory cache :: parents, keyImage, blockIndex =>
    if blockIndex < cache.startIndex then checkIfSpent parents keyImage blockIndex
    else
      match cache.spentKeyImages keyImage with
      | none => checkIfSpent parents keyImage blockIndex
      | some spentAt => decide (spentAt ≤ blockIndex)

/-- Number of outputs of an amount in blocks before `blockIndex`. -/
def getKeyOutputsCountForAmount : Lineage → Amount → Nat → Nat
  | [], _, _ => 0
  | .database cache :: _, amount, blockIndex =>
    lowerBound (fun row => decide (row.position.blockIndex < blockIndex))
      (cache.keyOutputs amount)
  | .memory cache :: parents, amount, blockIndex =>
    match cache.keyOutputsGlobalIndexes amount with
    | none => getKeyOutputsCountForAmount parents amount blockIndex
    | some own =>
      own.startIndex +
        lowerBound (fun position => decide (position.blockIndex < blockIndex)) own.outputs

/-- Keys of the outputs of an amount with the given absolute indexes, those held by
the parents first. The block index only decides which segment answers. -/
def extractKeyOutputs (unlocked : Nat → Bool) :
    Lineage → Amount → Nat → List Nat → Except ExtractOutputKeysError (List PublicKey)
  | [], _, _, _ => .error .invalidGlobalIndex
  | .database cache :: _, amount, _, globalIndexes =>
    cache.extractKeyOutputs unlocked amount globalIndexes
  | .memory cache :: parents, amount, blockIndex, globalIndexes =>
    match cache.keyOutputsGlobalIndexes amount with
    | none => extractKeyOutputs unlocked parents amount blockIndex globalIndexes
    | some own =>
      if blockIndex < cache.startIndex then
        extractKeyOutputs unlocked parents amount blockIndex globalIndexes
      else do
        let offset := lowerBound (fun globalIndex => decide (globalIndex < own.startIndex))
          globalIndexes
        let below ←
          if offset = 0 then .ok []
          else extractKeyOutputs unlocked parents amount blockIndex (globalIndexes.take offset)
        let mine ← (globalIndexes.drop offset).mapM (cache.extractOwnKey own unlocked)
        .ok (below ++ mine)

/-- Block heights are compared with the given index, times with the clock or, later
in the chain, with the newest block of the segment. -/
def isTransactionSpendTimeUnlocked (now unlockTime blockIndex : Nat) : Bool :=
  if unlockTime < maxBlockNumber then
    decide (unlockTime ≤ blockIndex + lockedTxAllowedDeltaBlocks)
  else if transactionInputBlocktimeValidationHeight ≤ blockIndex then
    let lastBlockTimestamp := (lineage.getLastTimestampsFromTop 1).head?.getD 0
    decide (unlockTime ≤ uint64 (lastBlockTimestamp + lockedTxAllowedDeltaSeconds))
  else decide (unlockTime ≤ uint64 (now + lockedTxAllowedDeltaSeconds))

def extractKeyOutputKeys (now : Nat) (amount : Amount) (blockIndex : Nat)
    (globalIndexes : List Nat) : Except ExtractOutputKeysError (List PublicKey) :=
  lineage.extractKeyOutputs
    (fun unlockTime => lineage.isTransactionSpendTimeUnlocked now unlockTime blockIndex)
    amount blockIndex globalIndexes

end Lineage

end DeroGold
