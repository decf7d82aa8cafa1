import DeroGold.Types
import DeroGold.Lib.Wide
import Mathlib.Data.List.Sort

/-!
The rules of the currency that block and transaction validation call on: block
versions, size limits, the block reward with its penalty, the next difficulty,
fees, mixins, fusion transactions and checkpoints. Cryptographic checks are the
fields of `Crypto`; everything else is computed as the source computes it.
-/

namespace DeroGold

open Parameters

/-- Cryptographic verdicts, left abstract. A ring signature check sees the whole
transaction, the position of the input and the keys of its ring. -/
structure Crypto where
  checkKey : PublicKey → Bool
  keyImageInDomain : KeyImage → Bool
  checkRingSignature : CachedTransaction → Nat → List PublicKey → Bool
  checkTransactionPow : CachedTransaction → Bool
  checkProofOfWork : CachedBlock → Nat → Bool

/-! ### Medians, versions and sizes -/

/-- Median of a list of 64-bit words; the mean of the middle pair wraps. -/
def medianValue (v : List Nat) : Nat :=
  match v with
  | [] => 0
  | [x] => x
  | v =>
    let n := v.length / 2
    let sorted := v.insertionSort (· ≤ ·)
    if v.length % 2 = 1 then sorted[n]?.getD 0
    else uint64 (sorted[n - 1]?.getD 0 + sorted[n]?.getD 0) / 2

/-- The upgrade detectors, latest first: target version and the last index before it. -/
def upgradeDetectors : List (Nat × Nat) :=
  [(7, upgradeHeightV7), (6, upgradeHeightV6),
   (5, upgradeHeightV5), (4, upgradeHeightV4),
   (3, upgradeHeightV3), (2, upgradeHeightV2)]

def getBlockMajorVersion (blockIndex : Nat) : Nat :=
  match upgradeDetectors.find? fun detector => decide (detector.2 < blockIndex) with
  | some detector => detector.1
  | none => 1

def blockGrantedFullRewardZoneByBlockVersion (blockMajorVersion : Nat) : Nat :=
  if 3 ≤ blockMajorVersion then blockGrantedFullRewardZone
  else if blockMajorVersion = 2 then blockGrantedFullRewardZoneV2
  else blockGrantedFullRewardZoneV1

def maxBlockCumulativeSize (height : Nat) : Nat :=
  if maxBlockSizeV1Height ≤ height then maxBlockSizeV1
  else maxBlockSizeInitial +
    height * maxBlockSizeGrowthSpeedNumerator /
      maxBlockSizeGrowthSpeedDenominator

/-- Largest transaction allowed when the median block size is `blockSizeMedian`. -/
def getMaximumTransactionAllowedSize (blockSizeMedian : Nat) : Nat :=
  subUInt64 (uint64 (blockSizeMedian * 2)) minerTxBlobReservedSize

/-! ### The block reward -/

/-- Amount scaled down quadratically when the block is larger than the median. -/
def getPenalizedAmount (amount medianSize currentBlockSize : Nat) : Nat :=
  if amount = 0 then 0
  else if currentBlockSize ≤ medianSize then amount
  else
    let multiplicand := uint64 (currentBlockSize *
      subUInt64 (uint64 (2 * medianSize)) currentBlockSize)
    let product := Wide.mul128 amount multiplicand
    let once := Wide.div128_32 product.1 product.2 (uint32 medianSize)
    (Wide.div128_32 once.1 once.2 (uint32 medianSize)).2

structure BlockReward where
  reward : Nat
  emissionChange : Int
  deriving DecidableEq

/-- `none` when the block is larger than twice the median. -/
def getBlockReward (blockMajorVersion medianSize currentBlockSize alreadyGeneratedCoins fee
    blockHeight : Nat) : Option BlockReward :=
  let emission :=
    if emissionSpeedFactorV2Height ≤ blockHeight then emissionSpeedFactorV2
    else emissionSpeedFactor
  let baseReward := subUInt64 moneySupply alreadyGeneratedCoins >>> emission
  let medianSize := max medianSize (blockGrantedFullRewardZoneByBlockVersion blockMajorVersion)
  if uint64 (2 * medianSize) < currentBlockSize then none
  else
    let penalizedBaseReward := getPenalizedAmount baseReward medianSize currentBlockSize
    let penalizedFee :=
      if 2 ≤ blockMajorVersion then getPenalizedAmount fee medianSize currentBlockSize else fee
    some {
      reward := uint64 (penalizedBaseReward + penalizedFee)
      emissionChange := int64 (subUInt64 penalizedBaseReward (subUInt64 fee penalizedFee)) }

/-! ### The next difficulty -/

/-- Difficulty target in seconds at a height. -/
def difficultyTargetAt (blockHeight : Nat) : Int :=
  if difficultyTargetV3Height ≤ blockHeight then difficultyTargetV3
  else if difficultyTargetV2Height ≤ blockHeight then difficultyTargetV2
  else difficultyTarget

/-- Solve time between two consecutive timestamps, clamped to `[-4T, 6T]`. -/
def solveTime (target : Int) (previous current : Nat) : Int :=
  max (-4 * target) (min (int64 (int64 current - int64 previous)) (6 * target))

/-- Solve times of a list of timestamps. -/
def solveTimes (target : Int) : List Nat → List Int
  | [] => []
  | [_] => []
  | previous :: current :: rest =>
    solveTime target previous current :: solveTimes target (current :: rest)

/-- Weighted sum `1 * x₁ + 2 * x₂ + …`, the first weight being `weight`. -/
def weightedSum : Int → List Int → Int
  | _, [] => 0
  | weight, x :: xs => weight * x + weightedSum (weight + 1) xs

/-- The next difficulty of a chain whose last timestamps and cumulative
difficulties are given, oldest first. `none` is the trap of a division by a
weighted solve time of zero. -/
def nextDifficulty (timestamps cumulativeDifficulties : List Nat) (blockHeight : Nat) :
    Option Nat :=
  let target := difficultyTargetAt blockHeight
  let n := difficultyWindow
  if timestamps.length < n + 1 then some 10000
  else
    let times := solveTimes target (timestamps.take (n + 1))
    let weighted := weightedSum 1 times
    let lastThree := (times.drop (n - 3)).sum
    let cumulative := fun i => cumulativeDifficulties[i]?.getD 0
    if weighted = 0 then none
    else
      let nextD := (int64 (int64 (subUInt64 (cumulative n) (cumulative 0)) * target *
        (n + 1) * 99)).tdiv (100 * 2 * weighted)
      let prevD := int64 (subUInt64 (cumulative n) (cumulative (n - 1)))
      let nextD := max ((int64 (prevD * 67)).tdiv 100)
        (min nextD ((int64 (prevD * 150)).tdiv 100))
      let nextD :=
        if lastThree < (8 * target).tdiv 10 then max nextD ((int64 (prevD * 108)).tdiv 100)
        else nextD
      some (uint64OfInt nextD)

/-! ### Fees, mixins and fusion transactions -/

def getMinimumFee (height : Nat) : Nat :=
  if minimumFeeV2Height ≤ height then minimumFeeV2
  else if minimumFeeV1Height ≤ height then minimumFeeV1
  else minimumFee

/-- Smallest and largest mixin allowed at a height. -/
def getMixinAllowableRange (height : Nat) : Nat × Nat :=
  if mixinLimitsV1Height ≤ height then
    (minimumMixinV1, maximumMixinV1)
  else (0, 2 ^ 64 - 1)

/-- Largest ring of a transaction, at least one. -/
def ringSize (tx : Transaction) : Nat :=
  tx.inputs.foldl (fun size input => match input with
    | .base _ => size
    | .key input => max size input.outputIndexes.length) 1

def Mixins.validate (tx : CachedTransaction) (height : Nat) : Bool :=
  let (minMixin, maxMixin) := getMixinAllowableRange height
  let mixin := ringSize tx.transaction - 1
  decide (mixin ≤ maxMixin) && decide (minMixin ≤ mixin)

/-- Decimal digits of an amount as amounts, smallest first. The dust threshold of
the currency is zero, so no digit is ever collected as dust. -/
def decomposeAmount : Nat → Nat → Nat → List Amount
  | 0, _, _ => []
  | fuel + 1, amount, order =>
    if amount = 0 then []
    else
      let chunk := uint64 (amount % 10 * order)
      let rest := decomposeAmount fuel (amount / 10) (uint64 (order * 10))
      if chunk = 0 then rest else chunk :: rest

/-- Whether a transaction merges many inputs into the digits of their sum. A
64-bit amount has at most twenty digits. -/
def isFusionTransaction (tx : Transaction) (size height : Nat) : Bool :=
  let inputsAmounts := tx.inputs.filterMap fun input => match input with
    | .base _ => none
    | .key input => some input.amount
  let outputsAmounts := tx.outputs.map (·.amount)
  if fusionTxMaxSize < size then false
  else if inputsAmounts.length < fusionTxMinInputCount then false
  else if inputsAmounts.length < outputsAmounts.length * fusionTxMinInOutCountRatio then
    false
  else
    let inputAmount := inputsAmounts.foldl (fun sum amount => uint64 (sum + amount)) 0
    let inputAmount :=
      if fusionFeeV1Height ≤ height ∧ height < fusionFeeV1ExitHeight then
        subUInt64 inputAmount fusionFeeV1
      else inputAmount
    (decomposeAmount 20 inputAmount 1).insertionSort (· ≤ ·) == outputsAmounts

/-! ### Checkpoints -/

/-- Checkpointed heights and the hashes expected there. -/
structure Checkpoints where
  points : List (Nat × Hash)
  deriving DecidableEq

namespace Checkpoints

/-- At or below the highest checkpoint. -/
def isInCheckpointZone (checkpoints : Checkpoints) (index : Nat) : Bool :=
  checkpoints.points.any fun point => decide (index ≤ point.1)

/-- A height without a checkpoint passes. -/
def checkBlock (checkpoints : Checkpoints) (index : Nat) (hash : Hash) : Bool :=
  match checkpoints.points.find? fun point => point.1 == index with
  | none => true
  | some point => point.2 == hash

def empty : Checkpoints := ⟨[]⟩

end Checkpoints

/-- What a core is configured with. -/
structure Env where
  crypto : Crypto
  checkpoints : Checkpoints

end DeroGold
