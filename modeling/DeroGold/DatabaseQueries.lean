import DeroGold.DatabaseSegment

/-!
The questions the database segment answers.

Most are single reads of the store. Those about the top of the chain, the newest block
infos, the number of transactions and the children go through what is kept in memory.
A read that fails or finds nothing where the source insists on a value is `none`.
-/

namespace DeroGold

open Search

namespace Database

variable (database : Database)

/-- The search reads positions one by one. -/
def getKeyOutputsCountForAmount (amount : Amount) (blockIndex : Nat) : Nat :=
  let outputsCount := (database.outputCounts amount).getD 0
  lowerBoundFrom (fun globalIndex => (database.outputs (amount, globalIndex)).any
    fun output => decide (output.blockIndex < blockIndex)) outputsCount outputsCount 0

/-- The infos found, by ascending global index; no index at all is a failed read. -/
def extractKeyOutputs (amount : Amount) (globalIndexes : List Nat) : Option (List KeyOutputInfo) :=
  if globalIndexes = [] then none
  else some ((globalIndexes.dedup.insertionSort (· ≤ ·)).filterMap fun globalIndex =>
    database.outputInfos (amount, globalIndex))

def extractKeyOtputIndexes (amount : Amount) (globalIndexes : List Nat) :
    Option (List PackedOutIndex) :=
  if globalIndexes = [] then none
  else globalIndexes.mapM fun globalIndex => database.outputs (amount, globalIndex)

/-- An id that was never stored throws, and so does one whose count is zero, because
nothing is then read. The source collects the hashes in an unordered map. -/
def getTransactionHashesByPaymentId (paymentId : Hash) : Option (List Hash) :=
  match database.paymentCounts paymentId with
  | none => none
  | some 0 => none
  | some (count + 1) => some ((List.range (count + 1)).filterMap fun i =>
    database.payments (paymentId, i))

/-- The outer `none` is the exception for times that are too late. -/
def getBlockHeightForTimestamp (timestamp : Nat) : Option (Option Nat) :=
  if maxTime < timestamp then none
  else some (database.closestTimestamps (roundToMidnight timestamp))

end Database

namespace DatabaseSegment

variable (segment : DatabaseSegment)

def getBlockHash (blockIndex : Nat) : Option Hash :=
  if blockIndex = segment.getTopBlockIndex then segment.getTopBlockHash
  else (segment.database.blockInfos blockIndex).map (·.blockHash)

def getBlockIndex (blockHash : Hash) : Option Nat :=
  if some blockHash = segment.getTopBlockHash then some segment.getTopBlockIndex
  else segment.database.blockIndexes blockHash

/-- The part of the request the units cache can serve. -/
def getLastCachedUnits (blockIndex count : Nat) (useGenesis : Bool) : List CachedBlockInfo :=
  let cacheStartIndex := segment.getTopBlockIndex + 1 - segment.unitsCache.length
  let count := min segment.unitsCache.length count
  if blockIndex < cacheStartIndex ∨ count = 0 then []
  else
    let count := min (blockIndex - cacheStartIndex + 1) count
    let offset := blockIndex + 1 - count - cacheStartIndex
    if !useGenesis ∧ cacheStartIndex = 0 ∧ offset = 0 then
      (segment.unitsCache.drop 1).take (count - 1)
    else (segment.unitsCache.drop offset).take count

/-- The infos stored from `blockIndex` downwards. -/
def getLastDbUnits (blockIndex count : Nat) (useGenesis : Bool) : List CachedBlockInfo :=
  let readFrom := blockIndex + 1 - min (blockIndex + 1) (uint32 count)
  let readFrom := if readFrom = 0 ∧ !useGenesis then 1 else readFrom
  (List.range' readFrom (blockIndex + 1 - readFrom)).filterMap segment.database.blockInfos

def getLastUnits (count blockIndex : Nat) (useGenesis : Bool) : List CachedBlockInfo :=
  let cachedUnits := segment.getLastCachedUnits blockIndex count useGenesis
  let availableUnits := if useGenesis then blockIndex + 1 else blockIndex
  if availableUnits - cachedUnits.length = 0 then cachedUnits
  else
    segment.getLastDbUnits (blockIndex - cachedUnits.length) (count - cachedUnits.length)
      useGenesis ++ cachedUnits

end DatabaseSegment

/-- What the database segment is asked. The getters of single fields of a block info or of a
stored transaction are one question each. -/
inductive DatabaseQuery where
  | getTopBlockIndex
  | getTopBlockHash
  | getBlockHash (blockIndex : Nat)
  | getBlockIndex (blockHash : Hash)
  | hasBlock (blockHash : Hash)
  | getBlockByIndex (blockIndex : Nat)
  | getPushedBlockInfo (blockIndex : Nat)
  | getCachedBlockInfo (blockIndex : Nat)
  | getLastUnits (count blockIndex : Nat) (useGenesis : Bool)
  | getTransactionCount
  | hasTransaction (transactionHash : Hash)
  | getTransactionInfo (transactionHash : Hash)
  | checkIfSpent (keyImage : KeyImage) (blockIndex : Nat)
  | getKeyOutputsCountForAmount (amount : Amount) (blockIndex : Nat)
  | extractKeyOutputs (amount : Amount) (globalIndexes : List Nat)
  | extractKeyOtputIndexes (amount : Amount) (globalIndexes : List Nat)
  | getTransactionHashesByPaymentId (paymentId : Hash)
  | getBlockHeightForTimestamp (timestamp : Nat)
  | getChildCount
  deriving DecidableEq

def DatabaseQuery.Answer : DatabaseQuery → Type
  | getTopBlockIndex => Nat
  | getTopBlockHash => Option Hash
  | getBlockHash _ => Option Hash
  | getBlockIndex _ => Option Nat
  | hasBlock _ => Bool
  | getBlockByIndex _ => Option RawBlock
  | getPushedBlockInfo _ => Option PushedBlockInfo
  | getCachedBlockInfo _ => Option CachedBlockInfo
  | getLastUnits _ _ _ => List CachedBlockInfo
  | getTransactionCount => Nat
  | hasTransaction _ => Bool
  | getTransactionInfo _ => Option StoredTransaction
  | checkIfSpent _ _ => Bool
  | getKeyOutputsCountForAmount _ _ => Nat
  | extractKeyOutputs _ _ => Option (List KeyOutputInfo)
  | extractKeyOtputIndexes _ _ => Option (List PackedOutIndex)
  | getTransactionHashesByPaymentId _ => Option (List Hash)
  | getBlockHeightForTimestamp _ => Option (Option Nat)
  | getChildCount => Nat

def DatabaseSegment.answer (segment : DatabaseSegment) : (query : DatabaseQuery) → query.Answer
  | .getTopBlockIndex => segment.getTopBlockIndex
  | .getTopBlockHash => segment.getTopBlockHash
  | .getBlockHash blockIndex => segment.getBlockHash blockIndex
  | .getBlockIndex blockHash => segment.getBlockIndex blockHash
  | .hasBlock blockHash => (segment.database.blockIndexes blockHash).isSome
  | .getBlockByIndex blockIndex => segment.database.rawBlocks blockIndex
  | .getPushedBlockInfo blockIndex => segment.database.getPushedBlockInfo blockIndex
  | .getCachedBlockInfo blockIndex => segment.database.blockInfos blockIndex
  | .getLastUnits count blockIndex useGenesis => segment.getLastUnits count blockIndex useGenesis
  | .getTransactionCount => segment.getTransactionCount
  | .hasTransaction transactionHash => (segment.database.transactions transactionHash).isSome
  | .getTransactionInfo transactionHash => segment.database.transactions transactionHash
  | .checkIfSpent keyImage blockIndex =>
    (segment.database.spentAt keyImage).any fun spentAt => decide (spentAt ≤ blockIndex)
  | .getKeyOutputsCountForAmount amount blockIndex =>
    segment.database.getKeyOutputsCountForAmount amount blockIndex
  | .extractKeyOutputs amount globalIndexes => segment.database.extractKeyOutputs amount globalIndexes
  | .extractKeyOtputIndexes amount globalIndexes =>
    segment.database.extractKeyOtputIndexes amount globalIndexes
  | .getTransactionHashesByPaymentId paymentId =>
    segment.database.getTransactionHashesByPaymentId paymentId
  | .getBlockHeightForTimestamp timestamp => segment.database.getBlockHeightForTimestamp timestamp
  | .getChildCount => segment.children

end DeroGold
