import DeroGold.Sync
import DeroGold.Lib.KeyValue
import DeroGold.TransactionRules

/-!
What the core offers a miner: the difficulty of the next block and the block template
with its coinbase.

The difficulty asked for a template comes from windows without an explicit block index,
the one a block is checked with from windows that leave the genesis block out. Both are
the same window of the main chain (`difficulty_of_template`).
-/

namespace DeroGold

open SegmentTree List Parameters Sample Lineage TransactionOutput

namespace Lineage

def getLastCumulativeDifficultiesFromTop (lineage : Lineage) (count : Nat) : List Nat :=
  lineage.getLastCumulativeDifficulties count lineage.getTopBlockIndex lineage.useGenesisByDefault

end Lineage

namespace Core

/-- The major version computed in the source is not used by the formula. -/
def getDifficultyForNextBlock (core : Core) : Option Nat :=
  let topBlockIndex := core.getTopBlockIndex
  let blocksCount := min topBlockIndex difficultyBlocksCount
  nextDifficulty (core.mainLineage.getLastTimestampsFromTop blocksCount)
    (core.mainLineage.getLastCumulativeDifficultiesFromTop blocksCount) topBlockIndex

end Core

/-- At most as many blocks as lie above the genesis block never reach it, whether it is to
be used or not. -/
theorem firstUnit_min (count index : Nat) (useGenesis : Bool) :
    firstUnit (min index count) index useGenesis = firstUnit count index false := by
  cases useGenesis
  all_goals
    simp only [firstUnit, Bool.false_eq_true, if_false, if_true]
    omega

namespace Core

variable {core : Core}

/-- The difficulty offered to miners is the one a block above the top block is checked
with, however the main chain is cut into segments. -/
theorem difficulty_of_template (core : Core) (ok : core.MainWhole)
    (units : ∀ cache ∈ core.mainLineage, cache.UnitsOk) (previousBlockHash : Hash)
    (top : core.getTopBlockHash = some previousBlockHash) :
    ∃ segment, core.findSegmentContainingBlock previousBlockHash = some segment ∧
      (core.lineage segment).getDifficultyForNextBlock (core.indexIn segment previousBlockHash) =
        core.getDifficultyForNextBlock := by
  refine ⟨core.mainLeaf, ok.findSegmentContainingBlock_top top, ?_⟩
  have inside : core.mainLineage.getTopBlockIndex < core.mainLineage.chain.length := by
    have length_eq : core.mainLineage.getTopBlockIndex + 1 = core.mainLineage.chain.length :=
      ok.getTopBlockIndex_eq
    omega
  have window (useGenesis : Bool) : core.mainLineage.getLastUnits (min core.mainLineage.getTopBlockIndex
      difficultyBlocksCount) core.mainLineage.getTopBlockIndex useGenesis =
        core.mainLineage.getLastUnits difficultyBlocksCount core.mainLineage.getTopBlockIndex false := by
    rw [getLastUnits_eq ok.whole units inside (lt_of_le_of_lt (min_le_right _ _) (by decide)),
      getLastUnits_eq ok.whole units inside (by decide), lastUnits, lastUnits, firstUnit_min]
  simp only [ok.indexIn_top top, getDifficultyForNextBlock, getDifficultyForNextBlock,
    getLastTimestampsFromTop, getLastCumulativeDifficultiesFromTop,
    getLastTimestamps, getLastCumulativeDifficulties, getTopBlockIndex, window]
  rfl

/-- After a fork the main chain of this node lies in two segments. -/
theorem difficulty_of_template_fork :
    ∃ segment, forkedCore.findSegmentContainingBlock 3 = some segment ∧
      (forkedCore.lineage segment).getDifficultyForNextBlock (forkedCore.indexIn segment 3) =
        forkedCore.getDifficultyForNextBlock :=
  difficulty_of_template _ mainWhole_forkedCore
    ((unitsOk_afterCalls ..).lineage _) 3 (by decide +kernel)

end Core

/-! ### Selecting transactions -/

namespace TransactionPool

/-- Inputs for each output, as a double; the largest double when there are no outputs. -/
def inputOutputRatio (tx : Transaction) : Nat :=
  if tx.outputs = [] then 2 ^ 1024 - 2 ^ 971 else tx.inputs.length / tx.outputs.length

/-- Order of the pool: fee for each byte, amount, inputs for each output, size, time of
arrival. Nothing more is compared, and equal transactions count as ordered. The products
are compared as double words in the source, which hold them (`Wide.mul128_spec`). -/
def moreProfitable (lhs rhs : PendingTransactionInfo) : Bool :=
  let left := lhs.cachedTransaction
  let right := rhs.cachedTransaction
  let amount := fun (tx : CachedTransaction) =>
    tx.transaction.outputs.foldl (fun sum output => uint64 (sum + output.amount)) 0
  match compare (right.getTransactionFee * left.binarySize)
      (left.getTransactionFee * right.binarySize) with
  | .lt => true
  | .gt => false
  | .eq =>
    match compare (amount right) (amount left) with
    | .lt => true
    | .gt => false
    | .eq =>
      match compare (inputOutputRatio right.transaction) (inputOutputRatio left.transaction) with
      | .lt => true
      | .gt => false
      | .eq =>
        match compare left.binarySize right.binarySize with
        | .lt => true
        | .gt => false
        | .eq => decide (lhs.receiveTime ≤ rhs.receiveTime)

/-- The pool as the cost index keeps it: a transaction is put before the first one it is
ordered with. -/
def transactionCostIndex (pool : TransactionPool) : List PendingTransactionInfo :=
  pool.transactions.foldl (fun index pending =>
    index.orderedInsert (fun lhs rhs => moreProfitable lhs rhs = true) pending) []

/-- Transactions that pay a fee and the others. -/
def getPoolTransactionsForBlockTemplate (pool : TransactionPool) :
    List CachedTransaction × List CachedTransaction :=
  (pool.transactionCostIndex.map (·.cachedTransaction)).partition fun tx =>
    tx.getTransactionFee != 0

end TransactionPool

/-- Key images collected so far and whether one was there already; those in front of it
stay collected. -/
def haveSpentInputs (alreadySpent : List KeyImage) : List KeyImage → List KeyImage × Bool
  | [] => (alreadySpent, false)
  | keyImage :: keyImages =>
    if keyImage ∈ alreadySpent then (alreadySpent, true)
    else haveSpentInputs (keyImage :: alreadySpent) keyImages

/-- Ways in which no template is made. The last one is the exception thrown by the fee
check or the trap of the difficulty. -/
inductive TemplateError where
  | difficultyIsZero
  | minerTransaction
  | unexpectedPadding
  | unexpectedSize
  | noFit
  | threw
  deriving DecidableEq

/-- What filling a template carries along; after an exception nothing more is done. -/
structure FillState where
  transactionsSize : Nat
  fee : Nat
  transactionHashes : List Hash
  alreadySpentKeyImages : List KeyImage
  transactionPool : TransactionPool
  threw : Bool

namespace Core

/-- Rules of the height of the new block; the chain itself is not asked. -/
def templateContext (env : Env) (now : Nat) (core : Core) (height : Nat) : ValidationContext where
  env := env
  lineage := core.mainLineage
  now := now
  blockHeight := height
  blockSizeMedian := core.blockMedianSize
  isPoolTransaction := true

/-- A transaction that the rules of the height refuse leaves the pool. -/
def addTransactionToBlockTemplate (context : ValidationContext) (maxTotalSize : Nat)
    (state : FillState) (tx : CachedTransaction) : FillState :=
  if state.threw ∨ maxTotalSize < state.transactionsSize + tx.binarySize then state
  else
    match context.revalidateAfterHeightChange tx ⟨[]⟩ with
    | .error .threw => { state with threw := true }
    | .error (.error _) =>
      { state with
        transactionPool := state.transactionPool.removeTransaction tx.transactionHash }
    | .ok () =>
      let (alreadySpent, spent) :=
        haveSpentInputs state.alreadySpentKeyImages tx.transaction.keyImages
      if spent then { state with alreadySpentKeyImages := alreadySpent }
      else
        { state with
          transactionsSize := state.transactionsSize + tx.binarySize
          fee := uint64 (state.fee + tx.getTransactionFee)
          transactionHashes := state.transactionHashes ++ [tx.transactionHash]
          alreadySpentKeyImages := alreadySpent }

/-- Transactions that pay a fee come first. -/
def fillBlockTemplate (context : ValidationContext) (pool : TransactionPool)
    (medianSize maxCumulativeSize : Nat) : FillState :=
  let maxTotalSize := subUInt64 (min (uint64 (125 * medianSize) / 100) maxCumulativeSize)
    minerTxBlobReservedSize
  let (regularTransactions, fusionTransactions) := pool.getPoolTransactionsForBlockTemplate
  (regularTransactions ++ fusionTransactions).foldl
    (addTransactionToBlockTemplate context maxTotalSize) ⟨0, 0, [], [], pool, false⟩

end Core

/-! ### The coinbase -/

/-- Bytes of a number written in groups of seven bits. -/
def varintSize (n : Nat) : Nat := Nat.log2 n / 7 + 1

def TransactionInput.binarySize : TransactionInput → Nat
  | .base blockIndex => 1 + varintSize blockIndex
  | .key input =>
    1 + varintSize input.amount + varintSize input.outputIndexes.length +
      (input.outputIndexes.map varintSize).sum + 32

def TransactionOutput.binarySize (output : TransactionOutput) : Nat :=
  varintSize output.amount + 1 + 32

/-- Size of the serialised transaction; its version takes one byte. -/
def Transaction.getObjectBinarySize (tx : Transaction) : Nat :=
  1 + varintSize tx.unlockTime +
    (varintSize tx.inputs.length + (tx.inputs.map TransactionInput.binarySize).sum) +
    (varintSize tx.outputs.length + (tx.outputs.map binarySize).sum) +
    (varintSize tx.extraSize + tx.extraSize) +
    64 * tx.signatures.sum

/-- What a coinbase is made for. -/
structure MinerTxRequest where
  blockMajorVersion : Nat
  height : Nat
  medianSize : Nat
  alreadyGeneratedCoins : Nat
  fee : Nat
  extraNonce : List UInt8

/-- The one-time public key and, if there is one, the nonce with its tag and length. -/
def MinerTxRequest.extraSize (request : MinerTxRequest) : Option Nat :=
  if request.extraNonce = [] then some 33
  else if 255 < request.extraNonce.length then none
  else some (33 + 2 + request.extraNonce.length)

/-- Merge the last amount into the one before it while there are too many; the amounts
before the last one are listed backwards. -/
def mergeLast (maxOuts : Nat) (last : Amount) : List Amount → List Amount
  | [] => [last]
  | previous :: earlier =>
    if maxOuts < earlier.length + 2 then mergeLast maxOuts (uint64 (previous + last)) earlier
    else last :: previous :: earlier

def mergeAmounts (maxOuts : Nat) (amounts : List Amount) : List Amount :=
  match amounts.reverse with
  | [] => []
  | last :: earlier => (mergeLast maxOuts last earlier).reverse

/-- The key of an output is derived from its position; the derivation can fail. -/
def constructMinerTx (request : MinerTxRequest) (currentBlockSize : Nat)
    (deriveKey : Nat → Option PublicKey) (maxOuts : Nat) : Option Transaction := do
  let extraSize ← request.extraSize
  let blockReward ← getBlockReward request.blockMajorVersion request.medianSize currentBlockSize
    request.alreadyGeneratedCoins request.fee request.height
  guard (1 ≤ maxOuts)
  let outAmounts := mergeAmounts maxOuts (decomposeAmount 20 blockReward.reward 1)
  let outputs ← outAmounts.zipIdx.mapM fun out =>
    (deriveKey out.2).map fun key => mk out.1 key
  let summaryAmounts := outputs.foldl (fun sum output => uint64 (sum + output.amount)) 0
  guard (summaryAmounts = blockReward.reward)
  some {
    unlockTime := expectedUnlockTime request.height
    inputs := [.base request.height]
    outputs := outputs
    extraSize := extraSize
    signatures := [] }

/-- How one attempt at a coinbase of the right size ends. -/
inductive CoinbaseRound where
  | again (cumulativeSize : Nat)
  | done (tx : Transaction)
  | failed (error : TemplateError)

/-- The coinbase for an assumed size of the block, padded to that size. A padding of one
byte may need a second one for its own length. -/
def coinbaseRound (request : MinerTxRequest) (transactionsSize cumulativeSize : Nat)
    (deriveKey : Nat → Option PublicKey) : CoinbaseRound :=
  match constructMinerTx request cumulativeSize deriveKey 11 with
  | none => .failed .minerTransaction
  | some tx =>
    let coinbaseBlobSize := tx.getObjectBinarySize
    if cumulativeSize - transactionsSize < coinbaseBlobSize then
      .again (transactionsSize + coinbaseBlobSize)
    else if coinbaseBlobSize < cumulativeSize - transactionsSize then
      let delta := cumulativeSize - transactionsSize - coinbaseBlobSize
      let padded := { tx with extraSize := tx.extraSize + delta }
      if cumulativeSize = transactionsSize + padded.getObjectBinarySize then .done padded
      else if cumulativeSize + 1 = transactionsSize + padded.getObjectBinarySize then
        let shorter := { tx with extraSize := tx.extraSize + delta - 1 }
        if cumulativeSize = transactionsSize + shorter.getObjectBinarySize then .done shorter
        else .again (cumulativeSize + (delta - 1))
      else .failed .unexpectedPadding
    else if cumulativeSize = transactionsSize + coinbaseBlobSize then .done tx
    else .failed .unexpectedSize

/-- At most `tries` attempts, each with keys of its own. -/
def fitCoinbase (request : MinerTxRequest) (transactionsSize : Nat)
    (deriveKey : Nat → Nat → Option PublicKey) : Nat → Nat → Except TemplateError Transaction
  | 0, _ => .error .noFit
  | tries + 1, cumulativeSize =>
    match coinbaseRound request transactionsSize cumulativeSize (deriveKey tries) with
    | .again cumulativeSize => fitCoinbase request transactionsSize deriveKey tries cumulativeSize
    | .done tx => .ok tx
    | .failed error => .error error

/-- The first coinbase is made for the size of the transactions alone; its own size is
the first guess. -/
def coinbaseFor (request : MinerTxRequest) (transactionsSize : Nat)
    (deriveKey : Nat → Nat → Option PublicKey) : Except TemplateError Transaction :=
  match constructMinerTx request transactionsSize (deriveKey 10) 11 with
  | none => .error .minerTransaction
  | some tx =>
    fitCoinbase request transactionsSize deriveKey 10 (transactionsSize + tx.getObjectBinarySize)

/-! ### The template -/

/-- The header fields and the coinbase of a new block; the parent block of merge mining
is the empty one. -/
structure BlockTemplate where
  majorVersion : Nat
  previousBlockHash : Hash
  timestamp : Nat
  baseTransaction : Transaction
  transactionHashes : List Hash
  deriving DecidableEq

namespace Core

def getBlockTimestampByIndex (core : Core) (blockIndex : Nat) : Nat :=
  (core.mainLineage.getLastTimestamps 1 blockIndex true).head?.getD 0

/-- The clock, but not before the median of the last timestamps. -/
def templateTimestamp (now : Nat) (core : Core) (height : Nat) : Nat :=
  if timestampCheckWindow ≤ height then
    let timestamps := (List.range' (height - timestampCheckWindow)
      timestampCheckWindow).map core.getBlockTimestampByIndex
    max now (medianValue timestamps)
  else now

def calculateCumulativeBlocksizeLimit (core : Core) (height : Nat) : Nat :=
  let nextBlockGrantedFullRewardZone :=
    blockGrantedFullRewardZoneByBlockVersion (getBlockMajorVersion height)
  let sizes := core.mainLineage.getLastBlocksSizesFromTop rewardBlocksWindow
  uint64 (max (medianValue sizes) nextBlockGrantedFullRewardZone * 2)

/-- What the coinbase of a template for these transactions is made for. -/
def minerTxRequest (core : Core) (fee : Nat) (extraNonce : List UInt8) : MinerTxRequest where
  blockMajorVersion := getBlockMajorVersion (core.getTopBlockIndex + 1)
  height := core.getTopBlockIndex + 1
  medianSize := core.calculateCumulativeBlocksizeLimit (core.getTopBlockIndex + 1) / 2
  alreadyGeneratedCoins := core.mainLineage.getAlreadyGeneratedCoins core.getTopBlockIndex
  fee := fee
  extraNonce := extraNonce

/-- The selected transactions, and the pool without those found invalid. -/
def selectTransactions (env : Env) (now : Nat) (core : Core) : FillState :=
  let height := core.getTopBlockIndex + 1
  fillBlockTemplate (core.templateContext env now height) core.transactionPool
    (core.calculateCumulativeBlocksizeLimit height / 2) (maxBlockCumulativeSize height)

/-- The core afterwards and the template. -/
def getBlockTemplate (env : Env) (now : Nat) (core : Core)
    (deriveKey : Nat → Nat → Option PublicKey) (extraNonce : List UInt8) :
    Core × Except TemplateError BlockTemplate :=
  let height := core.getTopBlockIndex + 1
  match core.getDifficultyForNextBlock with
  | none => (core, .error .threw)
  | some 0 => (core, .error .difficultyIsZero)
  | some _ =>
    let filled := core.selectTransactions env now
    let cleaned := { core with transactionPool := filled.transactionPool }
    if filled.threw then (cleaned, .error .threw)
    else
      match coinbaseFor (core.minerTxRequest filled.fee extraNonce) filled.transactionsSize
        deriveKey with
      | .error error => (cleaned, .error error)
      | .ok baseTransaction =>
        (cleaned, .ok {
          majorVersion := getBlockMajorVersion height
          previousBlockHash := core.getTopBlockHash.getD 0
          timestamp := core.templateTimestamp now height
          baseTransaction := baseTransaction
          transactionHashes := filled.transactionHashes })

end Core

/-! ### The coinbase pays the reward of the finished block -/

theorem sum_mergeLast (maxOuts : Nat) (earlier : List Nat) (last : Nat)
    (fits : last + earlier.sum < 2 ^ 64) :
    (mergeLast maxOuts last earlier).sum = last + earlier.sum := by
  induction earlier generalizing last with
  | nil => simp [mergeLast]
  | cons previous earlier ih =>
    rw [sum_cons] at fits ⊢
    rw [mergeLast]
    split
    · rw [uint64_of_lt (by omega), ih _ (by omega)]
      change previous + last + earlier.sum = last + (previous + earlier.sum)
      omega
    · simp

/-- Merging keeps the sum. -/
theorem sum_mergeAmounts (maxOuts : Nat) {amounts : List Nat} (fits : amounts.sum < 2 ^ 64) :
    (mergeAmounts maxOuts amounts).sum = amounts.sum := by
  obtain ⟨backwards, rfl⟩ : ∃ backwards, amounts = backwards.reverse :=
    ⟨amounts.reverse, amounts.reverse_reverse.symm⟩
  rw [mergeAmounts, reverse_reverse]
  rw [sum_reverse] at fits ⊢
  cases backwards with
  | nil => rfl
  | cons last earlier =>
    rw [sum_cons] at fits ⊢
    simp only [sum_reverse, sum_mergeLast _ _ _ fits]

variable {request : MinerTxRequest} {tx : Transaction} {transactionsSize : Nat}

/-- A coinbase pays exactly the reward of the size it was made for. -/
theorem constructMinerTx_pays {currentBlockSize maxOuts : Nat} {deriveKey : Nat → Option PublicKey}
    (made : constructMinerTx request currentBlockSize deriveKey maxOuts = some tx) :
    ∃ reward, getBlockReward request.blockMajorVersion request.medianSize currentBlockSize
        request.alreadyGeneratedCoins request.fee request.height = some reward ∧
      (tx.outputs.map (·.amount)).sum = reward.reward := by
  simp only [constructMinerTx, Option.bind_eq_bind, Option.bind_eq_some_iff] at made
  obtain ⟨extraSize, -, reward, rewarded, -, -, outputs, derived, -, -, same⟩ := made
  cases same
  refine ⟨reward, rewarded, ?_⟩
  have reward_lt : reward.reward < 2 ^ 64 := by
    simp only [getBlockReward] at rewarded
    split at rewarded
    · cases rewarded
    · cases rewarded
      exact uint64_lt _
  have amounts : outputs.map (·.amount) =
      mergeAmounts maxOuts (decomposeAmount 20 reward.reward 1) := by
    have each : List.Forall₂ (fun (out : Amount × Nat) output => out.1 = output.amount) _ outputs :=
      (KeyValue.forall₂_of_mapM derived).imp fun out output made => by
        obtain ⟨key, -, rfl⟩ := Option.map_eq_some_iff.1 made
        rfl
    have fst := forall₂_map_left_iff.2 (forall₂_map_right_iff.2 each)
    rw [forall₂_eq_eq_eq, zipIdx_map_fst] at fst
    exact fst.symm
  have digits : (decomposeAmount 20 reward.reward 1).sum = reward.reward := by
    rw [decomposeAmount_eq_parts reward_lt, Digits.sum_parts]
  rw [amounts, sum_mergeAmounts _ (digits.trans_lt reward_lt), digits]

/-- A round that succeeds has padded its coinbase to the size the reward was asked for. -/
theorem coinbaseRound_done {cumulativeSize : Nat} {deriveKey : Nat → Option PublicKey}
    (finished : coinbaseRound request transactionsSize cumulativeSize deriveKey = .done tx) :
    ∃ made extraSize, constructMinerTx request cumulativeSize deriveKey 11 = some made ∧
      tx = { made with extraSize := extraSize } ∧
      cumulativeSize = transactionsSize + tx.getObjectBinarySize := by
  unfold coinbaseRound at finished
  split at finished
  · cases finished
  · next made constructed =>
      refine ⟨made, tx.extraSize, constructed, ?_⟩
      -- the branches in the order of the source: too small, padded, padded by one less, exact
      dsimp only at finished
      split_ifs at finished with _ _ padded _ shorter exact
      · cases finished
        exact ⟨rfl, padded⟩
      · cases finished
        exact ⟨rfl, shorter⟩
      · cases finished
        exact ⟨rfl, exact⟩

theorem fitCoinbase_pays {deriveKey : Nat → Nat → Option PublicKey} {tries cumulativeSize : Nat}
    (fitted : fitCoinbase request transactionsSize deriveKey tries cumulativeSize = .ok tx) :
    ∃ reward, getBlockReward request.blockMajorVersion request.medianSize
        (transactionsSize + tx.getObjectBinarySize) request.alreadyGeneratedCoins request.fee
        request.height = some reward ∧
      (tx.outputs.map (·.amount)).sum = reward.reward := by
  induction tries generalizing cumulativeSize with
  | zero =>
    cases fitted
  | succ tries ih =>
    rw [fitCoinbase] at fitted
    split at fitted
    · exact ih fitted
    · next finished =>
        cases fitted
        obtain ⟨made, extraSize, constructed, rfl, size_eq⟩ := coinbaseRound_done finished
        rw [← size_eq]
        exact (constructMinerTx_pays constructed :)
    · cases fitted

/-! ### What is selected -/

/-- An answer that nothing is spent has collected every key image, none of them twice. -/
theorem haveSpentInputs_false {keyImages alreadySpent : List KeyImage}
    (unspent : (haveSpentInputs alreadySpent keyImages).2 = false) :
    keyImages.Nodup ∧ (∀ keyImage ∈ keyImages, keyImage ∉ alreadySpent) ∧
      ∀ keyImage, keyImage ∈ (haveSpentInputs alreadySpent keyImages).1 ↔
        keyImage ∈ keyImages ∨ keyImage ∈ alreadySpent := by
  induction keyImages generalizing alreadySpent with
  | nil => simp [haveSpentInputs]
  | cons first keyImages ih =>
    rw [haveSpentInputs] at unspent ⊢
    split at unspent
    · cases unspent
    · next new =>
        rw [if_neg new]
        obtain ⟨nodup, apart, collected⟩ := ih unspent
        simp only [mem_cons, not_or] at apart collected
        refine ⟨nodup_cons.2 ⟨fun mem => (apart first mem).1 rfl, nodup⟩, ?_, ?_⟩
        · simp only [mem_cons, forall_eq_or_imp]
          exact ⟨new, fun keyImage mem => (apart keyImage mem).2⟩
        · intro keyImage
          rw [collected, mem_cons]
          tauto

theorem subset_haveSpentInputs (keyImages alreadySpent : List KeyImage) :
    alreadySpent ⊆ (haveSpentInputs alreadySpent keyImages).1 := by
  induction keyImages generalizing alreadySpent with
  | nil => simp [haveSpentInputs]
  | cons first keyImages ih =>
    rw [haveSpentInputs]
    split
    · simp
    · exact List.Subset.trans (subset_cons_self _ _) (ih _)

/-- Fees added up as the template does it. -/
def totalFee (transactions : List CachedTransaction) : Nat :=
  transactions.foldl (fun fee tx => uint64 (fee + tx.getTransactionFee)) 0

def totalSize (transactions : List CachedTransaction) : Nat := (transactions.map (·.binarySize)).sum

/-- The state of the filling says what has been selected: transactions that pass the
rules of the height, fit together and spend different key images. -/
structure Selected (context : ValidationContext) (maxTotalSize : Nat)
    (selected : List CachedTransaction) (state : FillState) : Prop where
  size : state.transactionsSize = totalSize selected
  fee : state.fee = totalFee selected
  hashes : state.transactionHashes = selected.map (·.transactionHash)
  fits : state.transactionsSize ≤ maxTotalSize
  valid : ∀ tx ∈ selected, context.revalidateAfterHeightChange tx ⟨[]⟩ = .ok ()
  keyImages : (selected.flatMap (·.transaction.keyImages)).Nodup
  collected : selected.flatMap (·.transaction.keyImages) ⊆ state.alreadySpentKeyImages

variable {context : ValidationContext} {maxTotalSize : Nat}

/-- One more transaction is selected or not. -/
theorem Selected.step {selected : List CachedTransaction} {state : FillState}
    (ok : Selected context maxTotalSize selected state) (tx : CachedTransaction) :
    ∃ more, more.Sublist [tx] ∧ Selected context maxTotalSize (selected ++ more)
      (Core.addTransactionToBlockTemplate context maxTotalSize state tx) := by
  have unchanged : ∃ more, more.Sublist [tx] ∧
      Selected context maxTotalSize (selected ++ more) state :=
    ⟨[], nil_sublist _, by rwa [append_nil]⟩
  unfold Core.addTransactionToBlockTemplate
  split_ifs with full
  · exact unchanged
  · split
    · exact ⟨[], nil_sublist _, by rw [append_nil]; exact { ok with }⟩
    · exact ⟨[], nil_sublist _, by rw [append_nil]; exact { ok with }⟩
    · next passed =>
        dsimp only
        split_ifs with spent
        · refine ⟨[], nil_sublist _, ?_⟩
          rw [append_nil]
          exact { ok with collected := List.Subset.trans ok.collected (subset_haveSpentInputs _ _) }
        · obtain ⟨nodup, apart, collected⟩ := haveSpentInputs_false (Bool.not_eq_true _ ▸ spent)
          refine ⟨[tx], List.Sublist.refl _, ?_⟩
          constructor
          · simp [ok.size, totalSize]
          · simp [ok.fee, totalFee]
          · simp [ok.hashes]
          · simp only
            omega
          · simp only [mem_append, mem_singleton]
            rintro other (mem | rfl)
            · exact ok.valid other mem
            · exact passed
          · rw [flatMap_append, flatMap_singleton, nodup_append]
            refine ⟨ok.keyImages, nodup, ?_⟩
            rintro keyImage before _ here rfl
            exact apart keyImage here (ok.collected before)
          · rw [flatMap_append, flatMap_singleton]
            intro keyImage mem
            rw [collected]
            exact (mem_append.1 mem).symm.imp_right fun before => ok.collected before

/-- The transactions a template takes, in the order it lists them. -/
theorem Selected.run (transactions : List CachedTransaction) {selected : List CachedTransaction}
    {state : FillState} (ok : Selected context maxTotalSize selected state) :
    ∃ more, more.Sublist transactions ∧ Selected context maxTotalSize (selected ++ more)
      (transactions.foldl (Core.addTransactionToBlockTemplate context maxTotalSize) state) := by
  induction transactions generalizing selected state with
  | nil =>
    exact ⟨[], List.Sublist.refl _, by rwa [append_nil]⟩
  | cons tx transactions ih =>
    obtain ⟨first, first_sub, stepped⟩ := ok.step tx
    obtain ⟨more, more_sub, ran⟩ := ih stepped
    refine ⟨first ++ more, first_sub.append more_sub, ?_⟩
    rw [← append_assoc]
    exact ran

namespace Core

variable {env : Env} {now : Nat} {core : Core} {deriveKey : Nat → Nat → Option PublicKey}
  {extraNonce : List UInt8} {template : BlockTemplate}

/-- The pool in the order in which a template takes its transactions. -/
def candidates (core : Core) : List CachedTransaction :=
  core.transactionPool.getPoolTransactionsForBlockTemplate.1 ++
    core.transactionPool.getPoolTransactionsForBlockTemplate.2

/-- Room for the transactions of a template. -/
def templateRoom (core : Core) : Nat :=
  let height := core.getTopBlockIndex + 1
  subUInt64 (min (uint64 (125 * (core.calculateCumulativeBlocksizeLimit height / 2)) / 100)
    (maxBlockCumulativeSize height)) minerTxBlobReservedSize

theorem selected_selectTransactions (env : Env) (now : Nat) (core : Core) :
    ∃ selected, selected.Sublist core.candidates ∧
      Selected (core.templateContext env now (core.getTopBlockIndex + 1)) core.templateRoom selected
        (core.selectTransactions env now) := by
  have start : Selected (core.templateContext env now (core.getTopBlockIndex + 1))
      core.templateRoom [] ⟨0, 0, [], [], core.transactionPool, false⟩ := by
    constructor <;> simp [totalSize, totalFee]
  exact start.run core.candidates

/-- The parts of a template that is made. -/
theorem getBlockTemplate_ok
    (made : (core.getBlockTemplate env now deriveKey extraNonce).2 = .ok template) :
    coinbaseFor (core.minerTxRequest (core.selectTransactions env now).fee extraNonce)
        (core.selectTransactions env now).transactionsSize deriveKey =
          .ok template.baseTransaction ∧
      template.majorVersion = getBlockMajorVersion (core.getTopBlockIndex + 1) ∧
      template.transactionHashes = (core.selectTransactions env now).transactionHashes := by
  unfold getBlockTemplate at made
  dsimp only at made
  split at made
  · cases made
  · cases made
  · split at made
    · cases made
    · split at made
      · cases made
      · next fitted =>
          cases made
          exact ⟨fitted, rfl, rfl⟩

/-- The coinbase of a template pays the reward of the block it belongs to: the one for
the size of the coinbase and the selected transactions, and for their fees. -/
theorem coinbase_paysReward (env : Env) (now : Nat) (core : Core)
    (deriveKey : Nat → Nat → Option PublicKey) (extraNonce : List UInt8) (template : BlockTemplate)
    (made : (core.getBlockTemplate env now deriveKey extraNonce).2 = .ok template) :
    ∃ selected reward, selected.Sublist core.candidates ∧
      template.transactionHashes = selected.map (·.transactionHash) ∧
      getBlockReward template.majorVersion
        (core.calculateCumulativeBlocksizeLimit (core.getTopBlockIndex + 1) / 2)
        (template.baseTransaction.getObjectBinarySize + totalSize selected)
        (core.mainLineage.getAlreadyGeneratedCoins core.getTopBlockIndex) (totalFee selected)
        (core.getTopBlockIndex + 1) = some reward ∧
      (template.baseTransaction.outputs.map (·.amount)).sum = reward.reward := by
  obtain ⟨fitted, version, hashes⟩ := getBlockTemplate_ok made
  obtain ⟨selected, sub, ok⟩ := selected_selectTransactions env now core
  rw [coinbaseFor] at fitted
  split at fitted
  · cases fitted
  obtain ⟨reward, rewarded, paid⟩ := fitCoinbase_pays fitted
  refine ⟨selected, reward, sub, hashes.trans ok.hashes, ?_, paid⟩
  rw [version, ← ok.size, ← ok.fee, Nat.add_comm template.baseTransaction.getObjectBinarySize]
  exact rewarded

end Core

namespace Sample

/-- Ten blocks and a transaction in the pool. -/
def pooledCore : Core := Core.afterCalls env .insertion genesis
  (calls (trunk 10) ++ [.addTransactionToPool 100000 spend])

/-- Keys for the outputs of a coinbase. -/
def minerKeys (_ no : Nat) : Option PublicKey := some (no + 1)

/-- The template this core makes with a nonce of eight bytes. -/
def template : BlockTemplate where
  majorVersion := 5
  previousBlockHash := 10
  timestamp := 100000
  baseTransaction := {
    unlockTime := 131
    inputs := [.base 11]
    outputs := [⟨4, 1⟩, ⟨80, 2⟩, ⟨400, 3⟩, ⟨1000, 4⟩, ⟨90000, 5⟩, ⟨2000000, 6⟩,
      ⟨90000000, 7⟩, ⟨100000000, 8⟩, ⟨1000000000, 9⟩]
    extraSize := 43
    signatures := [] }
  transactionHashes := [5000]

end Sample

namespace Core

theorem coinbase_paysReward_pooled :
    ∃ selected reward, selected.Sublist pooledCore.candidates ∧
      template.transactionHashes = selected.map (·.transactionHash) ∧
      getBlockReward template.majorVersion
        (pooledCore.calculateCumulativeBlocksizeLimit (pooledCore.getTopBlockIndex + 1) / 2)
        (template.baseTransaction.getObjectBinarySize + totalSize selected)
        (pooledCore.mainLineage.getAlreadyGeneratedCoins pooledCore.getTopBlockIndex)
        (totalFee selected) (pooledCore.getTopBlockIndex + 1) = some reward ∧
      (template.baseTransaction.outputs.map (·.amount)).sum = reward.reward :=
  coinbase_paysReward env 100000 pooledCore minerKeys (List.replicate 8 0)
    template (by decide +kernel)

end Core

end DeroGold
