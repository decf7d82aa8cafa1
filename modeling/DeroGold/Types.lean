import Mathlib.Data.List.Basic
import Mathlib.Algebra.Order.Ring.Int

/-!
The data the core works on, as its headers declare it, and the constants of the
currency.

Hashes, key images and public keys are opaque 32-byte values in the source; here
they are numbers compared for equality only. A transaction blob is represented by
what the core reads off it: its size, its hash and the transaction it parses to
(`none` when parsing fails). The decoder accepts canonical encodings only, so
serialising a parsed transaction gives the blob back and one hash and one size
serve both `CachedTransaction(BinaryArray)` and `CachedTransaction(Transaction)`.

Block indexes are natural numbers (the chain stays below `2 ^ 32` blocks); amounts,
sizes, difficulties and timestamps are natural numbers with the 64-bit reductions
written out where the source can wrap.
-/

namespace DeroGold

abbrev Hash := Nat
abbrev KeyImage := Nat
abbrev PublicKey := Nat
abbrev Amount := Nat

/-- Result of an unsigned 64-bit operation. -/
def uint64 (n : Nat) : Nat := n % 2 ^ 64

/-- Result of an unsigned 32-bit operation. -/
def uint32 (n : Nat) : Nat := n % 2 ^ 32

/-- Unsigned 64-bit subtraction. -/
def subUInt64 (a b : Nat) : Nat := uint64 (a + 2 ^ 64 - b % 2 ^ 64)

/-- Result of a signed 64-bit operation, wrapping around. -/
def int64 (z : Int) : Int := Int.bmod z (2 ^ 64)

/-- A signed 64-bit value read as an unsigned one. -/
def uint64OfInt (z : Int) : Nat := (z % 2 ^ 64).toNat

theorem uint64_lt (n : Nat) : uint64 n < 2 ^ 64 := Nat.mod_lt _ (by decide)

theorem uint32_lt (n : Nat) : uint32 n < 2 ^ 32 := Nat.mod_lt _ (by decide)

variable {n a b : Nat}

theorem uint64_of_lt (h : n < 2 ^ 64) : uint64 n = n := Nat.mod_eq_of_lt h

theorem uint32_of_lt (h : n < 2 ^ 32) : uint32 n = n := Nat.mod_eq_of_lt h

/-- Adding a wrapped difference gives the minuend back. -/
theorem uint64_add_subUInt64 (h : a < 2 ^ 64) : uint64 (b + subUInt64 a b) = a := by
  unfold uint64 subUInt64 uint64
  omega

theorem subUInt64_of_le (h : a < 2 ^ 64) (le : b ≤ a) : subUInt64 a b = a - b := by
  unfold subUInt64 uint64
  omega

theorem subUInt64_subUInt64 (a b c : Nat) : subUInt64 (subUInt64 a b) c = subUInt64 a (b + c) := by
  unfold subUInt64 uint64
  omega

theorem subUInt64_ne (pos : 0 < b) (small : b < 2 ^ 64) : subUInt64 a b ≠ a := by
  unfold subUInt64 uint64
  omega

/-- A sum in a machine word. -/
theorem foldl_uint64_add {α : Type} (f : α → Nat) (xs : List α) (start : Nat) :
    xs.foldl (fun sum x => uint64 (sum + f x)) (uint64 start) =
      uint64 (start + (xs.map f).sum) := by
  induction xs generalizing start with
  | nil => rfl
  | cons x xs ih =>
    have step : uint64 (uint64 start + f x) = uint64 (start + f x) := by
      unfold uint64
      omega
    rw [List.foldl_cons, step, ih, List.map_cons, List.sum_cons, Nat.add_assoc]

/-! ### Currency parameters -/

namespace Parameters

def difficultyTarget : Nat := 10
def difficultyTargetV2 : Nat := 20
def difficultyTargetV3 : Nat := 300
def difficultyTargetV2Height : Nat := 700000
def difficultyTargetV3Height : Nat := 2325000
def difficultyWindow : Nat := 60
def difficultyBlocksCount : Nat := difficultyWindow + 1

def maxBlockNumber : Nat := 500000000
def maxTxSize : Nat := 1000000000
def minedMoneyUnlockWindow : Nat := 120
def minedMoneyUnlockWindowV2 : Nat := 8
def minedMoneyUnlockWindowV2Height : Nat := 2325000
def timestampCheckWindow : Nat := 11

def moneySupply : Nat := 10000000000000000
def emissionSpeedFactor : Nat := 23
def emissionSpeedFactorV2 : Nat := 24
def emissionSpeedFactorV2Height : Nat := 700000

def rewardBlocksWindow : Nat := 100
def blockGrantedFullRewardZone : Nat := 100000
def blockGrantedFullRewardZoneV2 : Nat := 20000
def blockGrantedFullRewardZoneV1 : Nat := 10000
def minerTxBlobReservedSize : Nat := 600

def minimumFee : Nat := 10
def minimumFeeV1 : Nat := 1000000
def minimumFeeV1Height : Nat := 1470000
def minimumFeeV2 : Nat := 10000
def minimumFeeV2Height : Nat := 2517000

def minimumMixinV1 : Nat := 0
def maximumMixinV1 : Nat := 3
def mixinLimitsV1Height : Nat := 1470000

def maxBlockSizeInitial : Nat := 100000
def maxBlockSizeV1Height : Nat := 2361823
def maxBlockSizeV1 : Nat := 614400
def maxBlockSizeGrowthSpeedNumerator : Nat := 100 * 1024
def maxBlockSizeGrowthSpeedDenominator : Nat := 365 * 24 * 60 * 60 / difficultyTargetV3

def maxExtraSizeV2 : Nat := 1024
def maxExtraSizeV2Height : Nat := 700000
def maxExtraSizeV3 : Nat := 512
def maxExtraSizeV3Height : Nat := 1470000

def transactionPowHeight : Nat := 2370000
def transactionSignatureCountValidationHeight : Nat := 700000
def blockBlobShuffleCheckHeight : Nat := 1800000
def transactionInputBlocktimeValidationHeight : Nat := 1600000

def lockedTxAllowedDeltaBlocks : Nat := 1
def lockedTxAllowedDeltaSeconds : Nat := difficultyTargetV3 * lockedTxAllowedDeltaBlocks
def mempoolTxLivetime : Nat := 60 * 60 * 24

def fusionTxMaxSize : Nat := blockGrantedFullRewardZone * 30 / 100
def fusionTxMinInputCount : Nat := 12
def fusionTxMinInOutCountRatio : Nat := 4
def fusionFeeV1Height : Nat := 2325000
def fusionFeeV1ExitHeight : Nat := 2361823
def fusionFeeV1 : Nat := 1000000
def fusionTxMaxPoolCount : Nat := 130

def upgradeHeightV2 : Nat := 1
def upgradeHeightV3 : Nat := 2
def upgradeHeightV4 : Nat := 3
def upgradeHeightV5 : Nat := 4
def upgradeHeightV6 : Nat := 2325000
def upgradeHeightV7 : Nat := 2420000

end Parameters

/-! ### Transactions and blocks -/

/-- A ring input: the offsets are relative, the first one absolute. -/
structure KeyInput where
  amount : Amount
  outputIndexes : List Nat
  keyImage : KeyImage
  deriving DecidableEq

inductive TransactionInput where
  | base (blockIndex : Nat)
  | key (input : KeyInput)
  deriving DecidableEq

/-- Key outputs are the only kind of output target. -/
structure TransactionOutput where
  amount : Amount
  key : PublicKey
  deriving DecidableEq

/-- `extraSize` and the number of signatures of each input are all that the core
reads of the extra field and of the signatures themselves. -/
structure Transaction where
  unlockTime : Nat
  inputs : List TransactionInput
  outputs : List TransactionOutput
  extraSize : Nat
  signatures : List Nat
  deriving DecidableEq

structure CachedTransaction where
  transaction : Transaction
  transactionHash : Hash
  binarySize : Nat
  deriving DecidableEq

structure RawTransaction where
  size : Nat
  hash : Hash
  parsed : Option Transaction
  deriving DecidableEq

/-- Construction from a blob; `none` is the exception thrown when parsing fails. -/
def CachedTransaction.ofRaw (raw : RawTransaction) : Option CachedTransaction :=
  raw.parsed.map fun transaction => ⟨transaction, raw.hash, raw.size⟩

def TransactionInput.keyImage? : TransactionInput → Option KeyImage
  | .base _ => none
  | .key input => some input.keyImage

/-- Key images of the key inputs, in order. -/
def Transaction.keyImages (tx : Transaction) : List KeyImage :=
  tx.inputs.filterMap TransactionInput.keyImage?

/-- Fee as the pool and the wallet compute it: zero for a coinbase, and wrapping. -/
def CachedTransaction.getTransactionFee (tx : CachedTransaction) : Nat :=
  let outputs := tx.transaction.outputs.foldl (fun sum output => uint64 (sum + output.amount)) 0
  let inputs := tx.transaction.inputs.foldl
    (fun sum input => sum.bind fun sum => match input with
      | .base _ => none
      | .key input => some (uint64 (sum + input.amount))) (some 0)
  match inputs with
  | none => 0
  | some inputs => subUInt64 inputs outputs

/-- What the core reads of a block template. The hash is the block identifier. -/
structure CachedBlock where
  blockHash : Hash
  majorVersion : Nat
  previousBlockHash : Hash
  timestamp : Nat
  parentBlockMajorVersion : Nat
  parentBlockSize : Nat
  baseTransaction : CachedTransaction
  transactionHashes : List Hash
  deriving DecidableEq

/-- Height a block claims through its coinbase input. -/
def CachedBlock.getBlockIndex (block : CachedBlock) : Nat :=
  match block.baseTransaction.transaction.inputs with
  | [.base blockIndex] => blockIndex
  | _ => 0

structure RawBlock where
  block : CachedBlock
  transactions : List RawTransaction
  deriving DecidableEq

/-- Transactions of a stored block: those whose blobs parse, in order. Blocks are
stored only after every blob has been parsed. -/
def RawBlock.cachedTransactions (raw : RawBlock) : List CachedTransaction :=
  raw.transactions.filterMap CachedTransaction.ofRaw

structure CachedBlockInfo where
  blockHash : Hash
  timestamp : Nat
  cumulativeDifficulty : Nat
  alreadyGeneratedCoins : Nat
  alreadyGeneratedTransactions : Nat
  blockSize : Nat
  deriving DecidableEq

/-- Position of an output: block, transaction in the block, output in the
transaction. -/
structure PackedOutIndex where
  blockIndex : Nat
  transactionIndex : Nat
  outputIndex : Nat
  deriving DecidableEq

/-- Key images collected while transactions are validated. -/
structure TransactionValidatorState where
  spentKeyImages : List KeyImage
  deriving DecidableEq

end DeroGold
