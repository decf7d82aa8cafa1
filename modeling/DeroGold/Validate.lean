import DeroGold.CacheUpdate
import DeroGold.Lib.Checked

/-!
Validation of a transaction against a segment: `ValidateTransaction::validate` with
its checks in the order of the source, and the part of block validation that looks
at one block (`Core::validateBlock`).

Inputs are checked on a thread pool in the source; which failing input leaves its
error code behind depends on the schedule, whether there is one does not. The model
reports the first failing input.
-/

namespace DeroGold

open Checked Parameters

inductive TransactionValidationError where
  | emptyInputs
  | inputUnknownType
  | inputEmptyOutputUsage
  | inputInvalidDomainKeyimages
  | inputIdenticalKeyimages
  | inputIdenticalOutputIndexes
  | inputKeyimageAlreadySpent
  | inputInvalidGlobalIndex
  | inputSpendLockedOut
  | inputInvalidSignatures
  | inputInvalidSignaturesCount
  | inputsAmountOverflow
  | inputWrongCount
  | inputUnexpectedType
  | baseInputWrongBlockIndex
  | baseInvalidSignaturesCount
  | outputZeroAmount
  | outputInvalidKey
  | outputsAmountOverflow
  | wrongAmount
  | wrongFee
  | wrongTransactionUnlockTime
  | invalidMixin
  | extraTooLarge
  | sizeTooLarge
  | powInvalid
  deriving DecidableEq

/-- How validation of a transaction ends without success: with an error code, or
with the exception that `validateTransactionFee` throws on inputs of sum zero. -/
inductive TransactionFailure where
  | error (code : TransactionValidationError)
  | threw
  deriving DecidableEq

/-! ### The transaction on its own -/

/-- What the loop over the inputs carries along. -/
structure InputsState where
  keyImages : List KeyImage
  spentKeyImages : List KeyImage
  sumOfInputs : Nat

def validateTransactionInput (crypto : Crypto) (state : InputsState) (input : TransactionInput) :
    Except TransactionFailure InputsState :=
  match input with
  | .base _ => .error (.error .inputUnknownType)
  | .key input => do
    require (input.keyImage ∉ state.keyImages) (.error .inputIdenticalKeyimages)
    require (input.outputIndexes ≠ []) (.error .inputEmptyOutputUsage)
    require (crypto.keyImageInDomain input.keyImage = true) (.error .inputInvalidDomainKeyimages)
    require (0 ∉ input.outputIndexes.tail) (.error .inputIdenticalOutputIndexes)
    require (input.keyImage ∉ state.spentKeyImages) (.error .inputKeyimageAlreadySpent)
    require (state.sumOfInputs + input.amount < 2 ^ 64) (.error .inputsAmountOverflow)
    .ok ⟨state.keyImages ++ [input.keyImage], state.spentKeyImages ++ [input.keyImage],
      state.sumOfInputs + input.amount⟩

/-- The key images seen so far in the block and the sum of the inputs. -/
def validateTransactionInputs (crypto : Crypto) (tx : Transaction)
    (validatorState : TransactionValidatorState) : Except TransactionFailure InputsState := do
  require (tx.inputs ≠ []) (.error .emptyInputs)
  tx.inputs.foldlM (validateTransactionInput crypto) ⟨[], validatorState.spentKeyImages, 0⟩

def validateTransactionOutput (crypto : Crypto) (sumOfOutputs : Nat) (output : TransactionOutput) :
    Except TransactionFailure Nat := do
  require (output.amount ≠ 0) (.error .outputZeroAmount)
  require (crypto.checkKey output.key = true) (.error .outputInvalidKey)
  require (sumOfOutputs + output.amount < 2 ^ 64) (.error .outputsAmountOverflow)
  .ok (sumOfOutputs + output.amount)

/-- Sum of the outputs; the coinbase is checked by the same rules. -/
def validateTransactionOutputs (crypto : Crypto) (tx : Transaction) :
    Except TransactionFailure Nat :=
  tx.outputs.foldlM (validateTransactionOutput crypto) 0

def validateTransactionSize (blockSizeMedian : Nat) (tx : CachedTransaction) :
    Except TransactionFailure Unit :=
  require (tx.binarySize ≤ getMaximumTransactionAllowedSize blockSizeMedian) (.error .sizeTooLarge)

/-- The fee, given the sums of inputs and outputs. -/
def validateTransactionFee (tx : CachedTransaction) (sumOfInputs sumOfOutputs blockHeight : Nat) :
    Except TransactionFailure Nat := do
  require (sumOfInputs ≠ 0) .threw
  require (sumOfOutputs ≤ sumOfInputs) (.error .wrongAmount)
  let fee := sumOfInputs - sumOfOutputs
  if isFusionTransaction tx.transaction tx.binarySize blockHeight then
    require (¬ (fusionFeeV1Height ≤ blockHeight ∧
      blockHeight < fusionFeeV1ExitHeight) ∨ fusionFeeV1 ≤ fee)
      (.error .wrongFee)
  else require (fee ≠ 0 ∧ getMinimumFee blockHeight ≤ fee) (.error .wrongFee)
  .ok fee

def validateTransactionExtra (tx : Transaction) (blockHeight : Nat) (isPoolTransaction : Bool) :
    Except TransactionFailure Unit :=
  let heightToEnforceV2 := maxExtraSizeV2Height + minedMoneyUnlockWindow
  let heightToEnforceV3 := maxExtraSizeV3Height + minedMoneyUnlockWindow
  if isPoolTransaction ∨ heightToEnforceV3 ≤ blockHeight then
    require (tx.extraSize < maxExtraSizeV3) (.error .extraTooLarge)
  else if heightToEnforceV2 ≤ blockHeight then
    require (tx.extraSize < maxExtraSizeV2) (.error .extraTooLarge)
  else .ok ()

/-- The window computed for a mixin change is never used by the source: a failure is
checked again at the same height. -/
def validateTransactionMixin (tx : CachedTransaction) (blockHeight : Nat) :
    Except TransactionFailure Unit :=
  require (Mixins.validate tx blockHeight = true) (.error .invalidMixin)

def validateTransactionPoW (crypto : Crypto) (tx : CachedTransaction) (blockHeight : Nat) :
    Except TransactionFailure Unit :=
  require (blockHeight < transactionPowHeight ∨ crypto.checkTransactionPow tx = true)
    (.error .powInvalid)

/-! ### The transaction against the chain -/

/-- Relative output offsets made absolute, in 32-bit arithmetic. -/
def absoluteIndexes : Nat → List Nat → List Nat
  | _, [] => []
  | previous, offset :: offsets =>
    let index := uint32 (previous + offset)
    index :: absoluteIndexes index offsets

/-- Absolute indexes of the ring of an input. -/
def KeyInput.globalIndexes (input : KeyInput) : List Nat := absoluteIndexes 0 input.outputIndexes

/-- What a transaction is validated against. -/
structure ValidationContext where
  env : Env
  lineage : Lineage
  now : Nat
  blockHeight : Nat
  blockSizeMedian : Nat
  isPoolTransaction : Bool

namespace ValidationContext

variable (context : ValidationContext)

/-- The keys of the ring of an input, or the error a failed lookup is reported as. -/
def ringKeys (input : KeyInput) : Except TransactionFailure (List PublicKey) :=
  match context.lineage.extractKeyOutputKeys context.now input.amount context.blockHeight
    input.globalIndexes with
  | .ok keys => .ok keys
  | .error .invalidGlobalIndex => .error (.error .inputInvalidGlobalIndex)
  | .error .outputLocked => .error (.error .inputSpendLockedOut)

/-- The slow checks of one input. -/
def validateInputExpensive (tx : CachedTransaction)
    (input : TransactionInput) (inputIndex : Nat) : Except TransactionFailure Unit :=
  match input with
  -- `boost::get<KeyInput>`
  | .base _ => .error .threw
  | .key input => do
    require (context.lineage.checkIfSpent input.keyImage context.blockHeight = false)
      (.error .inputKeyimageAlreadySpent)
    let outputKeys ← context.ringKeys input
    require (¬ (context.isPoolTransaction ∨
        transactionSignatureCountValidationHeight ≤ context.blockHeight) ∨
        outputKeys.length = tx.transaction.signatures[inputIndex]?.getD 0)
      (.error .inputInvalidSignaturesCount)
    require (context.env.crypto.checkRingSignature tx inputIndex outputKeys = true)
      (.error .inputInvalidSignatures)

/-- Skipped for blocks in the checkpoint zone. -/
def validateTransactionInputsExpensive (tx : CachedTransaction) : Except TransactionFailure Unit :=
  if context.env.checkpoints.isInCheckpointZone (context.blockHeight + 1) then .ok ()
  else tx.transaction.inputs.zipIdx.forM fun input =>
    context.validateInputExpensive tx input.1 input.2

/-- The fee of a valid transaction and the key images seen including its own. -/
def validate (tx : CachedTransaction) (validatorState : TransactionValidatorState) :
    Except TransactionFailure (TransactionValidatorState × Nat) := do
  validateTransactionSize context.blockSizeMedian tx
  let inputs ← validateTransactionInputs context.env.crypto tx.transaction validatorState
  let sumOfOutputs ← validateTransactionOutputs context.env.crypto tx.transaction
  let fee ← validateTransactionFee tx inputs.sumOfInputs sumOfOutputs context.blockHeight
  validateTransactionExtra tx.transaction context.blockHeight context.isPoolTransaction
  validateTransactionMixin tx context.blockHeight
  validateTransactionPoW context.env.crypto tx context.blockHeight
  context.validateTransactionInputsExpensive tx
  .ok (⟨inputs.spentKeyImages⟩, fee)

end ValidationContext

/-! ### The block on its own -/

inductive BlockValidationError where
  | wrongVersion
  | parentBlockWrongVersion
  | parentBlockSizeTooBig
  | timestampTooFarInFuture
  | timestampTooFarInPast
  | cumulativeBlockSizeTooBig
  | difficultyOverhead
  | transactionDuplicates
  | transactionInconsistency
  | blockRewardMismatch
  | checkpointBlockHashMismatch
  | proofOfWorkTooWeak
  deriving DecidableEq

/-- Reasons for which `addBlock` gives up. A failed transaction is named, because the
core then looks for it in the pool. `threw` stands for an exception or a trap. -/
inductive BlockFailure where
  | alreadyExists
  | rejectedAsOrphaned
  | deserializationFailed
  | block (code : BlockValidationError)
  | coinbase (code : TransactionValidationError)
  | transaction (code : TransactionValidationError) (hash : Hash)
  | threw
  deriving DecidableEq

/-- Seconds a block may be ahead of the clock, by the height of the block. -/
def futureTimeLimit (blockIndex : Nat) : Nat :=
  if difficultyTargetV3Height ≤ blockIndex then difficultyTargetV3 * 6
  else if difficultyTargetV2Height ≤ blockIndex then difficultyTarget * 6
  else difficultyTargetV2 * 6

def expectedUnlockTime (blockIndex : Nat) : Nat :=
  if minedMoneyUnlockWindowV2Height ≤ blockIndex then
    blockIndex + minedMoneyUnlockWindowV2
  else blockIndex + minedMoneyUnlockWindow

/-- The coinbase outputs obey the rules of every output; their sum is the miner's
reward. -/
def minerReward (crypto : Crypto) (base : Transaction) : Except BlockFailure Nat :=
  match validateTransactionOutputs crypto base with
  | .ok sum => .ok sum
  | .error (.error code) => .error (.coinbase code)
  | .error .threw => .error .threw

/-- Checks of the header and the coinbase above `previousBlockIndex`; returns the
miner's reward. -/
def validateBlock (env : Env) (now : Nat) (lineage : Lineage) (previousBlockIndex : Nat)
    (block : CachedBlock) : Except BlockFailure Nat := do
  require (getBlockMajorVersion block.getBlockIndex = block.majorVersion) (.block .wrongVersion)
  require (¬ (block.majorVersion = 2 ∧ 1 < block.parentBlockMajorVersion))
    (.block .parentBlockWrongVersion)
  require (¬ (2 ≤ block.majorVersion ∧ 2048 < block.parentBlockSize))
    (.block .parentBlockSizeTooBig)
  require (block.timestamp ≤ uint64 (now + futureTimeLimit (previousBlockIndex + 1)))
    (.block .timestampTooFarInFuture)
  let timestamps := lineage.getLastTimestamps timestampCheckWindow previousBlockIndex true
  require (timestamps.length < timestampCheckWindow ∨
      medianValue timestamps ≤ block.timestamp)
    (.block .timestampTooFarInPast)
  let base := block.baseTransaction.transaction
  require (base.inputs.length = 1) (.coinbase .inputWrongCount)
  require (base.inputs = [.base block.getBlockIndex]) (.coinbase .inputUnexpectedType)
  require (block.getBlockIndex = previousBlockIndex + 1) (.coinbase .baseInputWrongBlockIndex)
  require (base.unlockTime = expectedUnlockTime (previousBlockIndex + 1))
    (.coinbase .wrongTransactionUnlockTime)
  require (block.getBlockIndex < transactionSignatureCountValidationHeight ∨
      base.signatures = [])
    (.coinbase .baseInvalidSignaturesCount)
  minerReward env.crypto base

end DeroGold
