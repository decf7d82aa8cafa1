import DeroGold.Cache
import Mathlib.Logic.Function.Basic

/-!
Growing and cutting a segment: `pushBlock` and `split` of the in-memory segment and
of the database.

Both kinds of `split` keep the blocks below the split index and return a new
in-memory segment with the others. The in-memory one distributes its containers;
the database pushes its upper blocks one by one on a new segment and then deletes
their rows. Which children the two halves have is the business of the core.
-/

namespace DeroGold

open Function

open Search

/-- What is handed to `pushBlock`. The transactions are the parsed blobs. -/
structure PushedBlockInfo where
  rawBlock : RawBlock
  spentKeyImages : List KeyImage
  blockSize : Nat
  generatedCoins : Nat
  blockDifficulty : Nat
  deriving DecidableEq

/-- The coinbase followed by the other transactions. -/
def RawBlock.allTransactions (raw : RawBlock) : List CachedTransaction :=
  raw.block.baseTransaction :: raw.cachedTransactions

/-- Info of a block pushed above a block with the given running totals. -/
def nextBlockInfo (cumulativeDifficulty alreadyGeneratedCoins alreadyGeneratedTransactions : Nat)
    (pushed : PushedBlockInfo) : CachedBlockInfo where
  blockHash := pushed.rawBlock.block.blockHash
  timestamp := pushed.rawBlock.block.timestamp
  cumulativeDifficulty := uint64 (cumulativeDifficulty + pushed.blockDifficulty)
  alreadyGeneratedCoins := uint64 (alreadyGeneratedCoins + pushed.generatedCoins)
  alreadyGeneratedTransactions :=
    uint64 (alreadyGeneratedTransactions + pushed.rawBlock.cachedTransactions.length + 1)
  blockSize := uint32 pushed.blockSize

/-- Info of a block pushed above a block with the given info. -/
def CachedBlockInfo.next (last : CachedBlockInfo) (pushed : PushedBlockInfo) : CachedBlockInfo :=
  nextBlockInfo last.cumulativeDifficulty last.alreadyGeneratedCoins
    last.alreadyGeneratedTransactions pushed

/-! ### The in-memory segment -/

/-- The cumulative difficulty is asked of the parent segment only. -/
def Lineage.parentCumulativeDifficulty : Lineage → Nat → Nat
  | [], _ => 0
  | parent :: _, blockIndex =>
    ((parent.getCachedBlockInfo blockIndex).map (·.cumulativeDifficulty)).getD 0

namespace BlockchainCache

/-- A key image already known to the segment keeps its first block index. -/
def addSpentKeyImage (table : KeyImage → Option Nat) (keyImage : KeyImage) (blockIndex : Nat) :
    KeyImage → Option Nat :=
  match table keyImage with
  | some _ => table
  | none => update table keyImage (some blockIndex)

/-- The first output of an amount asks the parents how many came before. -/
def insertKeyOutputToGlobalIndex (parents : Lineage)
    (table : Amount → Option OutputGlobalIndexesForAmount) (amount : Amount)
    (output : PackedOutIndex) : Amount → Option OutputGlobalIndexesForAmount :=
  match table amount with
  | some own => update table amount (some { own with outputs := own.outputs ++ [output] })
  | none => update table amount
      (some ⟨parents.getKeyOutputsCountForAmount amount output.blockIndex, [output]⟩)

/-- A transaction whose hash or position is taken is not stored again, but its
outputs are indexed. -/
def pushTransaction (parents : Lineage) (cache : BlockchainCache) (tx : CachedTransaction)
    (blockIndex transactionIndex : Nat) : BlockchainCache :=
  let info : CachedTransactionInfo :=
    ⟨blockIndex, transactionIndex, tx.transactionHash, tx.transaction.unlockTime,
      tx.transaction.outputs.map (·.key)⟩
  let taken := cache.transactions.any fun other =>
    other.transactionHash == info.transactionHash ||
      (other.blockIndex == blockIndex && other.transactionIndex == transactionIndex)
  { cache with
    keyOutputsGlobalIndexes := tx.transaction.outputs.zipIdx.foldl
      (fun table output => insertKeyOutputToGlobalIndex parents table output.1.amount
        ⟨blockIndex, transactionIndex, output.2⟩) cache.keyOutputsGlobalIndexes
    transactions := if taken then cache.transactions else cache.transactions ++ [info] }

/-- The running totals come from the last block of the segment, or from the parents
when the segment is still empty. -/
def nextInfo (parents : Lineage) (cache : BlockchainCache) (pushed : PushedBlockInfo) :
    CachedBlockInfo :=
  match cache.blockInfos.getLast? with
  | some last => last.next pushed
  | none =>
    let previous := pushed.rawBlock.block.getBlockIndex - 1
    nextBlockInfo (parents.parentCumulativeDifficulty previous)
      (parents.getAlreadyGeneratedCoins previous)
      (parents.getAlreadyGeneratedTransactions previous) pushed

/-- `addBlock` has made sure that no reachable segment holds the block's hash, so the
unique hash index never refuses the new info. -/
def pushBlock (parents : Lineage) (cache : BlockchainCache) (pushed : PushedBlockInfo) :
    BlockchainCache :=
  let blockIndex := pushed.rawBlock.block.getBlockIndex
  let started : BlockchainCache :=
    { cache with
      blockInfos := cache.blockInfos ++ [cache.nextInfo parents pushed]
      storage := cache.storage ++ [pushed.rawBlock]
      spentKeyImages := pushed.spentKeyImages.foldl
        (fun table keyImage => addSpentKeyImage table keyImage blockIndex) cache.spentKeyImages }
  pushed.rawBlock.allTransactions.zipIdx.foldl
    (fun cache tx => cache.pushTransaction parents tx.1 blockIndex tx.2) started

/-- Part of a table of outputs that a split keeps, and the part it moves; an amount
left without outputs loses its entry. -/
def lowerOutputs (splitBlockIndex : Nat) (own : OutputGlobalIndexesForAmount) :
    Option OutputGlobalIndexesForAmount :=
  let cut := lowerBound (fun position => decide (position.blockIndex < splitBlockIndex)) own.outputs
  if own.outputs.take cut = [] then none else some ⟨own.startIndex, own.outputs.take cut⟩

def upperOutputs (splitBlockIndex : Nat) (own : OutputGlobalIndexesForAmount) :
    Option OutputGlobalIndexesForAmount :=
  let cut := lowerBound (fun position => decide (position.blockIndex < splitBlockIndex)) own.outputs
  let moved := own.outputs.drop cut
  if moved = [] then none
  else some ⟨own.startIndex + own.outputs.length - moved.length, moved⟩

/-- The lower part stays, the upper part is a new segment. -/
def split (cache : BlockchainCache) (splitBlockIndex : Nat) : BlockchainCache × BlockchainCache :=
  let offset := splitBlockIndex - cache.startIndex
  ({ startIndex := cache.startIndex
     blockInfos := cache.blockInfos.take offset
     storage := cache.storage.take offset
     spentKeyImages := fun keyImage =>
       (cache.spentKeyImages keyImage).filter fun spentAt => decide (spentAt < splitBlockIndex)
     transactions := cache.transactions.filter fun info => decide (info.blockIndex < splitBlockIndex)
     keyOutputsGlobalIndexes := fun amount =>
       (cache.keyOutputsGlobalIndexes amount).bind (lowerOutputs splitBlockIndex) },
   { startIndex := splitBlockIndex
     blockInfos := cache.blockInfos.drop offset
     storage := cache.storage.drop offset
     spentKeyImages := fun keyImage =>
       (cache.spentKeyImages keyImage).filter fun spentAt => decide (splitBlockIndex ≤ spentAt)
     transactions := cache.transactions.filter fun info => decide (splitBlockIndex ≤ info.blockIndex)
     keyOutputsGlobalIndexes := fun amount =>
       (cache.keyOutputsGlobalIndexes amount).bind (upperOutputs splitBlockIndex) })

end BlockchainCache

/-! ### The database -/

namespace DatabaseBlockchainCache

variable (cache : DatabaseBlockchainCache)

def unitsCacheSize : Nat := 1000

/-- Append an output to the rows of its amount and note the global index it got. -/
def pushOutput (blockIndex transactionIndex unlockTime : Nat)
    (state : (Amount → List KeyOutputRow) × List (Amount × Nat))
    (output : TransactionOutput × Nat) : (Amount → List KeyOutputRow) × List (Amount × Nat) :=
  let amount := output.1.amount
  let rows := state.1 amount
  (update state.1 amount
      (rows ++ [⟨⟨blockIndex, transactionIndex, output.2⟩, output.1.key, unlockTime⟩]),
    state.2 ++ [(amount, rows.length)])

/-- A transaction row with the same hash is overwritten. -/
def pushTransaction (tx : CachedTransaction)
    (blockIndex transactionIndex : Nat) : DatabaseBlockchainCache :=
  let pushed := tx.transaction.outputs.zipIdx.foldl
    (pushOutput blockIndex transactionIndex tx.transaction.unlockTime) (cache.keyOutputs, [])
  { cache with
    keyOutputs := pushed.1
    transactions := update cache.transactions tx.transactionHash (some ⟨pushed.2⟩) }

/-- Blocks go to the index above the top; the hashes stored with a block are those
it claims, the coinbase's first. -/
def pushBlock (pushed : PushedBlockInfo) : DatabaseBlockchainCache :=
  let block := pushed.rawBlock.block
  let blockIndex := cache.getTopBlockIndex + 1
  let blockInfo := match cache.blocks.getLast? with
    | some last => last.info.next pushed
    | none => nextBlockInfo 0 0 0 pushed
  let row : BlockRow := {
    info := blockInfo
    rawBlock := pushed.rawBlock
    transactionHashes := block.baseTransaction.transactionHash :: block.transactionHashes
    spentKeyImages := pushed.spentKeyImages }
  let units := cache.unitsCache ++ [blockInfo]
  let started : DatabaseBlockchainCache :=
    { cache with
      blocks := cache.blocks ++ [row]
      unitsCache := if unitsCacheSize < units.length then units.drop 1 else units
      spentKeyImages := pushed.spentKeyImages.foldl
        (fun table keyImage => update table keyImage (some blockIndex))
        cache.spentKeyImages }
  pushed.rawBlock.allTransactions.zipIdx.foldl
    (fun cache tx => cache.pushTransaction tx.1 blockIndex tx.2) started

/-- What has to be pushed to restore a stored block above its predecessor. -/
def getPushedBlockInfo (previous row : BlockRow) : PushedBlockInfo where
  rawBlock := row.rawBlock
  spentKeyImages := row.spentKeyImages
  blockSize := row.info.blockSize
  generatedCoins := subUInt64 row.info.alreadyGeneratedCoins previous.info.alreadyGeneratedCoins
  blockDifficulty := subUInt64 row.info.cumulativeDifficulty previous.info.cumulativeDifficulty

/-- The stored blocks from an index on, ready to be pushed elsewhere. -/
def pushedBlocksFrom (splitBlockIndex : Nat) : List PushedBlockInfo :=
  List.zipWith getPushedBlockInfo (cache.blocks.drop (splitBlockIndex - 1))
    (cache.blocks.drop splitBlockIndex)

/-- The new segment; its parent is the database as it was before the deletions. -/
def upperSegment (splitBlockIndex : Nat) : BlockchainCache :=
  (cache.pushedBlocksFrom splitBlockIndex).foldl
    (fun upper pushed => upper.pushBlock [.database cache] pushed)
    (BlockchainCache.create splitBlockIndex)

/-- Smallest global index of an amount among deleted transactions. -/
def splitBoundary (deleted : List ExtendedTransactionInfo) (amount : Amount) : Option Nat :=
  ((deleted.flatMap (·.amountToKeyIndexes)).filterMap fun index =>
    if index.1 = amount then some index.2 else none).min?

def cutTail (units : List CachedBlockInfo) (count : Nat) : List CachedBlockInfo :=
  units.take (units.length - count)

/-- `none` is the exception thrown, before anything is written, when a hash a deleted
block claims has no transaction row. -/
def split (splitBlockIndex : Nat) : Option (DatabaseBlockchainCache × BlockchainCache) :=
  let deletedBlocks := cache.blocks.drop splitBlockIndex
  let deletedHashes := deletedBlocks.flatMap (·.transactionHashes)
  match deletedHashes.mapM cache.transactions with
  | none => none
  | some deleted =>
    some ({
        blocks := cache.blocks.take splitBlockIndex
        unitsCache := cutTail cache.unitsCache deletedBlocks.length
        spentKeyImages := fun keyImage =>
          if keyImage ∈ deletedBlocks.flatMap (·.spentKeyImages) then none
          else cache.spentKeyImages keyImage
        transactions := fun hash =>
          if hash ∈ deletedHashes then none else cache.transactions hash
        keyOutputs := fun amount =>
          match splitBoundary deleted amount with
          | none => cache.keyOutputs amount
          | some boundary => (cache.keyOutputs amount).take boundary },
      cache.upperSegment splitBlockIndex)

/-- Info of the genesis block. -/
def genesisBlockInfo (genesis : CachedBlock) : CachedBlockInfo where
  blockHash := genesis.blockHash
  timestamp := genesis.timestamp
  cumulativeDifficulty := 1
  alreadyGeneratedCoins := genesis.baseTransaction.transaction.outputs.foldl
    (fun sum output => uint64 (sum + output.amount)) 0
  alreadyGeneratedTransactions := 1
  blockSize := uint32 genesis.baseTransaction.binarySize

/-- A database that holds the genesis block and nothing else. -/
def addGenesisBlock (genesis : CachedBlock) : DatabaseBlockchainCache :=
  let base := genesis.baseTransaction
  let blockInfo := genesisBlockInfo genesis
  let started : DatabaseBlockchainCache := {
    blocks := [⟨blockInfo, ⟨genesis, []⟩, [base.transactionHash], []⟩]
    unitsCache := [blockInfo]
    spentKeyImages := fun _ => none
    transactions := fun _ => none
    keyOutputs := fun _ => [] }
  started.pushTransaction base 0 0

end DatabaseBlockchainCache

/-! ### Either kind -/

namespace Cache

def pushBlock (parents : Lineage) (cache : Cache) (pushed : PushedBlockInfo) : Cache :=
  match cache with
  | .memory cache => .memory (cache.pushBlock parents pushed)
  | .database cache => .database (cache.pushBlock pushed)

/-- The lower part and the new upper segment; `none` if the source throws. -/
def split (cache : Cache) (splitBlockIndex : Nat) : Option (Cache × Cache) :=
  match cache with
  | .memory cache =>
    let halves := cache.split splitBlockIndex
    some (.memory halves.1, .memory halves.2)
  | .database cache =>
    (cache.split splitBlockIndex).map fun halves => (.database halves.1, .memory halves.2)

end Cache

end DeroGold
