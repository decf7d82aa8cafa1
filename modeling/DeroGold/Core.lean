import DeroGold.Validate
import DeroGold.Pool
import DeroGold.Lib.SegmentTree
import DeroGold.Lib.Run

/-!
The core: a tree of segments, its leaves with the main chain first, and the pool.
`addBlock` checks a block against the branch it extends and then commits it by one
of the branches of the source: a push on the main leaf, a push on an alternative
leaf with a possible switch, a fork on top of an inner segment, or a fork inside a
segment, which is split first.

Segments are named by their position in `chainsStorage`; position 0 is the database.
Assertions are compiled out of the release build, so a failed one does not stop the
model either. In particular the write through `std::find`'s end iterator in the
split branch, which happens when the split segment is not a leaf, changes none of
the listed leaves.
-/

namespace DeroGold

open Checked Parameters

/-- Order in which the hash container of an in-memory segment is iterated. -/
structure HashOrder where
  order : List CachedTransactionInfo → List CachedTransactionInfo
  perm : ∀ infos, (order infos).Perm infos

/-- Insertion order, one of the orders a container may have. -/
def HashOrder.insertion : HashOrder := ⟨id, fun _ => .refl _⟩

structure Core where
  chainsStorage : SegmentTree Cache
  chainsLeaves : List Nat
  mainChainSet : List Nat
  transactionPool : TransactionPool
  blockMedianSize : Nat

inductive AddBlockResult where
  | addedToMain
  | addedToAlternative
  | addedToAlternativeAndSwitched
  deriving DecidableEq

inductive AddBlockOutcome where
  | added (result : AddBlockResult)
  | failed (reason : BlockFailure)
  deriving DecidableEq

/-! ### Checking a block against a branch -/

/-- Parsed transactions and their total size. -/
def extractTransactions (raws : List RawTransaction) :
    Except BlockFailure (List CachedTransaction) := do
  require (∀ raw ∈ raws, raw.size ≤ maxTxSize) .deserializationFailed
  raws.mapM fun raw => match CachedTransaction.ofRaw raw with
    | some tx => .ok tx
    | none => .error .deserializationFailed

def RawBlock.cumulativeBlockSize (raw : RawBlock) : Nat :=
  raw.block.baseTransaction.binarySize + (raw.transactions.map (·.size)).sum

/-- From a certain height on the hashes a block claims are its transactions'. -/
def checkTransactionHashes (block : CachedBlock) (transactions : List CachedTransaction) :
    Except BlockFailure Unit :=
  if blockBlobShuffleCheckHeight ≤ block.getBlockIndex then do
    let hashes := transactions.map (·.transactionHash)
    require block.transactionHashes.Nodup (.block .transactionDuplicates)
    require hashes.Nodup (.block .transactionDuplicates)
    require (∀ hash ∈ hashes, hash ∈ block.transactionHashes) (.block .transactionInconsistency)
    require (block.transactionHashes = hashes) (.block .transactionInconsistency)
  else .ok ()

/-- One round of the loop over a block's transactions. -/
def validateBlockTransaction (context : ValidationContext) (state : TransactionValidatorState × Nat)
    (tx : CachedTransaction) : Except BlockFailure (TransactionValidatorState × Nat) :=
  match context.validate tx state.1 with
  | .ok (validatorState, fee) => .ok (validatorState, uint64 (state.2 + fee))
  | .error (.error code) => .error (.transaction code tx.transactionHash)
  | .error .threw => .error .threw

/-- Key images spent by the transactions and the sum of their fees. -/
def validateBlockTransactions (context : ValidationContext)
    (transactions : List CachedTransaction) :
    Except BlockFailure (TransactionValidatorState × Nat) :=
  transactions.foldlM (validateBlockTransaction context) (⟨[]⟩, 0)

def difficultyForNextBlock (lineage : Lineage) (blockIndex : Nat) : Except BlockFailure Nat :=
  match lineage.getDifficultyForNextBlock blockIndex with
  | some difficulty => .ok difficulty
  | none => .error .threw

def blockReward (lineage : Lineage) (previousBlockIndex : Nat) (raw : RawBlock)
    (cumulativeFee : Nat) : Except BlockFailure BlockReward :=
  let sizes := lineage.getLastBlocksSizes rewardBlocksWindow previousBlockIndex true
  match getBlockReward raw.block.majorVersion (medianValue sizes) raw.cumulativeBlockSize
    (lineage.getAlreadyGeneratedCoins previousBlockIndex) cumulativeFee
    raw.block.getBlockIndex with
  | some reward => .ok reward
  | none => .error (.block .cumulativeBlockSizeTooBig)

/-- In the checkpoint zone the checkpoint is asked instead of the proof of work. -/
def checkCheckpointOrProofOfWork (env : Env) (block : CachedBlock) (difficulty : Nat) :
    Except BlockFailure Unit :=
  if env.checkpoints.isInCheckpointZone block.getBlockIndex then
    require (env.checkpoints.checkBlock block.getBlockIndex block.blockHash = true)
      (.block .checkpointBlockHashMismatch)
  else require (env.crypto.checkProofOfWork block difficulty = true) (.block .proofOfWorkTooWeak)

/-- All checks of a block above `previousBlockIndex` of the branch, in the order of
the source; returns what is to be pushed. -/
def checkOnBranch (env : Env) (now : Nat) (lineage : Lineage) (blockMedianSize : Nat)
    (previousBlockIndex : Nat) (raw : RawBlock) : Except BlockFailure PushedBlockInfo := do
  let transactions ← extractTransactions raw.transactions
  require (raw.cumulativeBlockSize ≤ maxBlockCumulativeSize (previousBlockIndex + 1))
    (.block .cumulativeBlockSizeTooBig)
  let minerReward ← validateBlock env now lineage previousBlockIndex raw.block
  let currentDifficulty ← difficultyForNextBlock lineage previousBlockIndex
  require (currentDifficulty ≠ 0) (.block .difficultyOverhead)
  checkTransactionHashes raw.block transactions
  let (validatorState, cumulativeFee) ← validateBlockTransactions
    ⟨env, lineage, now, previousBlockIndex, blockMedianSize, false⟩ transactions
  let reward ← blockReward lineage previousBlockIndex raw cumulativeFee
  require (minerReward = reward.reward) (.block .blockRewardMismatch)
  checkCheckpointOrProofOfWork env raw.block currentDifficulty
  .ok {
    rawBlock := raw
    spentKeyImages := validatorState.spentKeyImages
    blockSize := raw.cumulativeBlockSize
    generatedCoins := uint64OfInt reward.emissionChange
    blockDifficulty := currentDifficulty }

namespace Core

variable (env : Env) (now : Nat) (core : Core)

/-! ### Searching the tree -/

def lineage (segment : Nat) : Lineage := core.chainsStorage.lineage segment

/-- The leaf of the main chain. -/
def mainLeaf : Nat := core.chainsLeaves.headD 0

def mainLineage : Lineage := core.lineage core.mainLeaf

def getTopBlockIndex : Nat := core.mainLineage.getTopBlockIndex

def segmentHasBlock (hash : Hash) (segment : Nat) : Bool :=
  (core.chainsStorage.value? segment).any fun cache => cache.hasBlock hash

def segmentHasTransaction (hash : Hash) (segment : Nat) : Bool :=
  (core.chainsStorage.value? segment).any fun cache => cache.hasTransaction hash

/-- First segment holding the block on the walk from a leaf to the root. -/
def findIndexInChain (hash : Hash) (leaf : Nat) : Option Nat :=
  (core.chainsStorage.path leaf).find? (core.segmentHasBlock hash)

/-- The main chain is searched first, then the other leaves in order. -/
def findSegmentContainingBlock (hash : Hash) : Option Nat :=
  core.chainsLeaves.findSome? (core.findIndexInChain hash)

def hasBlock (hash : Hash) : Bool := (core.findSegmentContainingBlock hash).isSome

/-- The part of a leaf's walk that lies off the main chain. -/
def offMainChain (leaf : Nat) : List Nat :=
  (core.chainsStorage.path leaf).takeWhile fun segment => decide (segment ∉ core.mainChainSet)

/-- Any branch counts, not only the main chain. -/
def isTransactionInChain (hash : Hash) : Bool :=
  (core.chainsStorage.path core.mainLeaf).any (core.segmentHasTransaction hash) ||
    core.chainsLeaves.tail.any fun leaf =>
      (core.offMainChain leaf).any (core.segmentHasTransaction hash)

/-! ### The pool -/

/-- Verdict on one pool transaction after a block with the given key images. -/
def isValidAfterBlock (blockKeyImages : List KeyImage) (tx : CachedTransaction) : Bool :=
  !core.isTransactionInChain tx.transactionHash &&
    Mixins.validate tx core.getTopBlockIndex &&
    decide (tx.binarySize ≤ getMaximumTransactionAllowedSize core.blockMedianSize) &&
    !hasIntersections blockKeyImages tx.transaction.keyImages

def checkAndRemoveInvalidPoolTransactions (blockKeyImages : List KeyImage) : Core :=
  { core with
    transactionPool := core.transactionPool.getTransactionHashes.foldl (fun pool hash =>
      match pool.tryGetTransaction hash with
      | none => pool
      | some tx =>
        if core.isValidAfterBlock blockKeyImages tx then pool else pool.removeTransaction hash)
      core.transactionPool }

/-- What a pool transaction is validated against. The source passes the flag and the
last timestamp in each other's place, so the flag is whether the timestamp is not
zero. -/
def poolContext : ValidationContext where
  env := env
  lineage := core.mainLineage
  now := now
  blockHeight := core.getTopBlockIndex
  blockSizeMedian := core.blockMedianSize
  isPoolTransaction := (core.mainLineage.getLastTimestampsFromTop 1).head?.getD 0 != 0

/-- Key images of a transaction that may enter the pool. -/
def isTransactionValidForPool (tx : CachedTransaction) : Option (List KeyImage) :=
  if tx.getTransactionFee = 0 ∧
      fusionTxMaxPoolCount ≤ core.transactionPool.getFusionTransactionCount then none
  else
    match (core.poolContext env now).validate tx ⟨[]⟩ with
    | .ok (validatorState, _) => some validatorState.spentKeyImages
    | .error _ => none

def addTransactionToPool (tx : CachedTransaction) : Core × Bool :=
  if core.transactionPool.checkIfTransactionPresent tx.transactionHash then (core, false)
  else
    match core.isTransactionValidForPool env now tx with
    | none => (core, false)
    | some keyImages =>
      let pushed := core.transactionPool.pushTransaction now tx keyImages
      ({ core with transactionPool := pushed.1 }, pushed.2)

/-- A blob that does not parse is refused. -/
def addRawTransactionToPool (raw : RawTransaction) : Core :=
  match CachedTransaction.ofRaw raw with
  | none => core
  | some tx => (core.addTransactionToPool env now tx).1

end Core

/-- Blobs of the transactions of an in-memory segment, coinbases left out. The root
is always on the main chain, so the database is never asked. -/
def Cache.rawTransactions (order : HashOrder) : Cache → List RawTransaction
  | .database _ => []
  | .memory cache =>
    (order.order cache.transactions).filterMap fun info =>
      if info.transactionIndex = 0 then none
      else (cache.storage[info.blockIndex - cache.startIndex]?).bind fun raw =>
        raw.transactions[info.transactionIndex - 1]?

namespace Core

variable (env : Env) (order : HashOrder) (now : Nat) (core : Core)

/-- Bring the transactions of an abandoned branch back, segment by segment. -/
def copyTransactionsToPool (alternative : Nat) : Core :=
  ((core.offMainChain alternative).flatMap fun segment =>
      ((core.chainsStorage.value? segment).map (Cache.rawTransactions order)).getD []).foldl
    (fun core raw => core.addRawTransactionToPool env now raw) core

/-! ### Committing a block -/

def updateMainChainSet : Core :=
  { core with mainChainSet := core.chainsStorage.path core.mainLeaf }

def updateBlockMedianSize : Core :=
  let zone := blockGrantedFullRewardZoneByBlockVersion
    (getBlockMajorVersion (core.getTopBlockIndex + 1))
  let sizes := core.mainLineage.getLastBlocksSizesFromTop rewardBlocksWindow
  { core with blockMedianSize := max (medianValue sizes) zone }

variable (segment : Nat) (pushed : PushedBlockInfo)

/-- Push a block on an existing segment. -/
def pushBlock : Core :=
  match core.lineage segment with
  | [] => core
  | cache :: parents =>
    { core with
      chainsStorage := core.chainsStorage.setValue segment (cache.pushBlock parents pushed) }

/-- Hang a new segment with one block below an existing one, as a new leaf. -/
def pushOnNewSegment (parent : Nat) (pushed : PushedBlockInfo) (previousBlockIndex : Nat) : Core :=
  let created := Cache.memory (BlockchainCache.create (previousBlockIndex + 1))
  { core with
    chainsStorage :=
      core.chainsStorage.addChild parent (created.pushBlock (core.lineage parent) pushed)
    chainsLeaves := core.chainsLeaves ++ [core.chainsStorage.size] }

/-- Exchange a leaf with the first one. -/
def swapWithMain (leaves : List Nat) (leaf : Nat) : List Nat :=
  (leaves.set (leaves.idxOf leaf) (leaves.headD 0)).set 0 leaf

/-- Put a new leaf in the place of the first occurrence of an old one, if there is
one. -/
def replaceLeaf (leaves : List Nat) (old new : Nat) : List Nat := leaves.set (leaves.idxOf old) new

/-- The block extends the main leaf. -/
def extendMain : Core :=
  ((core.pushBlock segment pushed).updateBlockMedianSize).checkAndRemoveInvalidPoolTransactions
    pushed.spentKeyImages

/-- Make an alternative leaf the main one and bring back what the old one held. -/
def switchTo : Core :=
  let oldLeaf := core.mainLeaf
  let swapped := { core with chainsLeaves := swapWithMain core.chainsLeaves segment }
  ((swapped.updateMainChainSet.updateBlockMedianSize).checkAndRemoveInvalidPoolTransactions
    pushed.spentKeyImages).copyTransactionsToPool env order now oldLeaf

def cumulativeDifficulty : Nat :=
  ((core.chainsStorage.value? segment).map Cache.getCurrentCumulativeDifficulty).getD 0

/-- The block extends another leaf; the heavier one is the main one afterwards. -/
def extendAlternative : Core × AddBlockResult :=
  let extended := core.pushBlock segment pushed
  if extended.cumulativeDifficulty extended.mainLeaf < extended.cumulativeDifficulty segment then
    (extended.switchTo env order now segment pushed, .addedToAlternativeAndSwitched)
  else (extended, .addedToAlternative)

/-- The block forks off at the top of a segment with children. -/
def forkOnTop (previousBlockIndex : Nat) : Core :=
  ((core.pushOnNewSegment segment pushed previousBlockIndex).updateMainChainSet).updateBlockMedianSize

/-- Split a segment. The in-memory segment hands its children to the upper part; the
database keeps its own and gets the upper part as another one. -/
def splitSegment (splitBlockIndex : Nat) : Option Core :=
  match core.chainsStorage.value? segment with
  | none => none
  | some cache =>
    match cache.split splitBlockIndex with
    | none => none
    | some (lower, upper) =>
      let upperSegment := core.chainsStorage.size
      let children := match cache with
        | .memory _ => core.chainsStorage.childrenOf segment
        | .database _ => []
      some { core with
        chainsStorage := match cache with
          | .memory _ => core.chainsStorage.split segment lower upper
          | .database _ => (core.chainsStorage.setValue segment lower).addChild segment upper
        chainsLeaves :=
          if children = [] then replaceLeaf core.chainsLeaves segment upperSegment
          else core.chainsLeaves }

/-- The block forks off below the top of a segment. -/
def forkInside (previousBlockIndex : Nat) : Option Core :=
  (core.splitSegment segment (previousBlockIndex + 1)).map fun core =>
    (core.pushOnNewSegment segment pushed previousBlockIndex).updateMainChainSet

/-- Commit a checked block; `none` if the split throws. -/
def commit (previousBlockIndex : Nat) (pushed : PushedBlockInfo) : Option (Core × AddBlockResult) :=
  if (core.lineage segment).getTopBlockIndex = previousBlockIndex then
    if core.chainsStorage.childrenOf segment = [] then
      if segment = core.mainLeaf then some (core.extendMain segment pushed, .addedToMain)
      else some (core.extendAlternative env order now segment pushed)
    else some (core.forkOnTop segment pushed previousBlockIndex, .addedToAlternative)
  else (core.forkInside segment pushed previousBlockIndex).map fun core =>
    (core, .addedToAlternative)

/-! ### Calls -/

/-- The segment holding the block's predecessor, the predecessor's index, and what is
to be pushed. -/
def checkBlock (raw : RawBlock) : Except BlockFailure (Nat × Nat × PushedBlockInfo) := do
  require (core.hasBlock raw.block.blockHash = false) .alreadyExists
  match core.findSegmentContainingBlock raw.block.previousBlockHash with
  | none => .error .rejectedAsOrphaned
  | some segment => do
    let previousBlockIndex :=
      ((core.chainsStorage.value? segment).map fun cache =>
        cache.getBlockIndex raw.block.previousBlockHash).getD 0
    let pushed ← checkOnBranch env now (core.lineage segment) core.blockMedianSize
      previousBlockIndex raw
    .ok (segment, previousBlockIndex, pushed)

/-- The only thing a failed check changes: an invalid transaction leaves the pool. -/
def onFailure (reason : BlockFailure) : Core :=
  match reason with
  | .transaction _ hash => { core with transactionPool := core.transactionPool.removeTransaction hash }
  | _ => core

def addBlock (raw : RawBlock) : Core × AddBlockOutcome :=
  match core.checkBlock env now raw with
  | .error reason => (core.onFailure reason, .failed reason)
  | .ok (segment, previousBlockIndex, pushed) =>
    match core.commit env order now segment previousBlockIndex pushed with
    | none => (core, .failed .threw)
    | some (core, result) => (core, .added result)

/-- A core freshly loaded on a database with the genesis block. -/
def load (genesis : CachedBlock) : Core :=
  updateBlockMedianSize {
    chainsStorage := SegmentTree.single (.database (.addGenesisBlock genesis))
    chainsLeaves := [0]
    mainChainSet := [0]
    transactionPool := .empty
    blockMedianSize := 0 }

end Core

/-- A call from outside together with the time of the clock. -/
inductive Call where
  | addBlock (now : Nat) (raw : RawBlock)
  | addTransactionToPool (now : Nat) (raw : RawTransaction)
  | cleanPool (now : Nat)

namespace Core

variable (env : Env) (order : HashOrder) (core : Core)

/-- State after a call. -/
def step : Call → Core
  | .addBlock now raw => (core.addBlock env order now raw).1
  | .addTransactionToPool now raw => core.addRawTransactionToPool env now raw
  | .cleanPool now =>
    { core with transactionPool := core.transactionPool.clean now core.getTopBlockIndex }

/-- State after a sequence of calls on a freshly loaded core. -/
def afterCalls (genesis : CachedBlock) (calls : List Call) : Core :=
  TransitionSystem.run (step env order) (load genesis) calls

end Core

end DeroGold
