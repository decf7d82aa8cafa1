import DeroGold.Import
import DeroGold.Wallet.Payment

/-!
Fusion transactions, which turn many outputs of the wallet into few
(`SubWallets::getFusionTransactionInputs`, `SendTransaction::sendFusionTransactionAdvanced`).

The wallet makes a transaction from a bucket of inputs and drops the last input as long as the
transaction has too many outputs or is too large. The node has its own rules for fusions
(`isFusionTransaction`, `validateTransactionFee`). `fusion_accepted` says that what the wallet
relays meets them, and what the running total of the loop is.
-/

namespace DeroGold.Wallet

open List Parameters TxInputAndOwner

open Checked (of_bind of_require_bind)
open Reaching (total)

theorem subUInt64_uint64_add (a b : Nat) : subUInt64 (uint64 (a + b)) b = uint64 a := by
  unfold subUInt64 uint64
  omega

/-! ### Inputs -/

/-- How many inputs fit a transaction, in 64 bits; a mixin for which the size of an input wraps to
zero divides by zero. -/
def getApproximateMaximumInputCount (transactionSize outputCount mixinCount : Nat) :
    Except Exception Nat :=
  let keyImageSize := 32
  let outputKeySize := 32
  let amountSize := 8 + 2
  let globalIndexesVectorSizeSize := 1
  let globalIndexesInitialValueSize := 4
  let globalIndexesDifferenceSize := 4
  let signatureSize := 64
  let extraTagSize := 1
  let inputTagSize := 1
  let outputTagSize := 1
  let publicKeySize := 32
  let transactionVersionSize := 1
  let transactionUnlockTimeSize := 8
  let outputsSize := uint64 (outputCount * (outputTagSize + outputKeySize + amountSize))
  let headerSize := transactionVersionSize + transactionUnlockTimeSize + extraTagSize + publicKeySize
  let inputSize := uint64 (inputTagSize + amountSize + keyImageSize + signatureSize +
    globalIndexesVectorSizeSize + globalIndexesInitialValueSize +
    mixinCount * (globalIndexesDifferenceSize + signatureSize))
  if inputSize = 0 then .error .undefined
  else .ok (subUInt64 (subUInt64 transactionSize headerSize) outputsSize / inputSize)

/-- What one fusion meets. -/
structure FusionOutside where
  blockCountAtValidation : Nat
  blockCountAtSelection : Nat
  nowAtSelection : Nat
  /-- `floor(log10(amount)) + 1`, as it comes out in floating point. -/
  numberOfDigits : Amount → Nat
  shuffle : List TxInputAndOwner → List TxInputAndOwner
  isShuffle : IsShuffle shuffle
  /-- The order in which the map of buckets is gone through. -/
  bucketOrder : List (List TxInputAndOwner) → List (List TxInputAndOwner)
  isBucketOrder : ∀ buckets, (bucketOrder buckets).Perm buckets
  shuffleBuckets : List (List TxInputAndOwner) → List (List TxInputAndOwner)
  isBucketShuffle : ∀ buckets, (shuffleBuckets buckets).Perm buckets
  /-- The two block counts that the fee is read from. -/
  blockCountAtFee : Nat
  blockCountAtFeeExit : Nat
  /-- What the transaction of so many inputs meets when it is made. -/
  attempt : Nat → Attempt
  relay : BuiltTransaction → RelayAnswer

/-- Inputs by the number of their digits. -/
def bucketsOf (numberOfDigits : Amount → Nat) (availableInputs : List TxInputAndOwner) :
    List (List TxInputAndOwner) :=
  let digits := availableInputs.map fun walletAmount => numberOfDigits walletAmount.input.amount
  digits.dedup.map fun number =>
    availableInputs.filter fun walletAmount => numberOfDigits walletAmount.input.amount = number

/-- Inputs in their order, until there are so many behind one of them. -/
def takeInputs (maxInputsToTake : Nat) : List TxInputAndOwner → Amount → List TxInputAndOwner →
    List TxInputAndOwner × Amount
  | inputsToUse, foundMoney, [] => (inputsToUse, foundMoney)
  | inputsToUse, foundMoney, walletAmount :: bucket =>
    let inputsToUse := inputsToUse ++ [walletAmount]
    let foundMoney := uint64 (foundMoney + walletAmount.input.amount)
    if maxInputsToTake ≤ inputsToUse.length then (inputsToUse, foundMoney)
    else takeInputs maxInputsToTake inputsToUse foundMoney bucket

/-- One full bucket, or all buckets where none is full. -/
def bucketsToTakeFrom (outside : FusionOutside) (availableInputs : List TxInputAndOwner) :
    List (List TxInputAndOwner) :=
  let buckets := outside.bucketOrder (bucketsOf outside.numberOfDigits (outside.shuffle availableInputs))
  let fullBuckets := buckets.filter fun bucket => fusionTxMinInputCount ≤ bucket.length
  match outside.shuffleBuckets fullBuckets with
  | first :: _ => [first]
  | [] => buckets

/-- The inputs, how many would fit, and what the inputs are worth. -/
def SubWallets.getFusionTransactionInputs (outside : FusionOutside) (takeFromAll : Bool)
    (subWalletsToTakeFrom : List PublicKey) (mixin : Nat) (c : SubWallets) :
    Except Exception (List TxInputAndOwner × Nat × Amount) := do
  if c.isViewWallet then .error (.subWallets .viewWallet)
  else
    let availableInputs ← (c.availableInputs outside.nowAtSelection takeFromAll subWalletsToTakeFrom
      outside.blockCountAtSelection).mapError .subWallets
    let maxInputsToTake ← getApproximateMaximumInputCount fusionTxMaxSize
      fusionTxMinInOutCountRatio mixin
    let (inputsToUse, foundMoney) :=
      takeInputs maxInputsToTake [] 0 (bucketsToTakeFrom outside availableInputs).flatten
    return (inputsToUse, maxInputsToTake, foundMoney)

/-! ### The loop that drops inputs -/

structure FusionParameters where
  mixin : Nat
  addressesToTakeFrom : List Bytes
  destination : Bytes
  extraData : Bytes

/-- What the loop changes. -/
structure FusionState where
  ourInputs : List TxInputAndOwner
  foundMoney : Amount
  deriving DecidableEq

/-- The amount is reduced and the last input removed. -/
def FusionState.dropInput (state : FusionState) : FusionState :=
  ⟨state.ourInputs.dropLast, subUInt64 state.foundMoney
    ((state.ourInputs.getLast?.map amount).getD 0)⟩

/-- The fee of a fusion, read from two block counts. -/
def fusionFee (blockCount blockCountAgain : Nat) : Amount :=
  if fusionFeeV1Height ≤ blockCount ∧ blockCountAgain < fusionFeeV1ExitHeight then
    fusionFeeV1
  else 0

section Loop

variable (env : SendEnv) (outside : FusionOutside) (parameters : FusionParameters) (destination : Bytes)
  (fee : Amount) (subWallets : SubWallets)

/-- One round: a state to try again with, or the transaction. -/
def fusionRound (state : FusionState) : Outcome (FusionState ⊕ TransactionResult) := do
  check (fusionTxMinInputCount ≤ state.ourInputs.length) .fullyOptimized
  let receiver ← uncaught (addressToKeys env.addresses destination)
  check (fee < state.foundMoney) .fullyOptimized
  let destinations := splitFor receiver (state.foundMoney - fee)
  if destinations.length = 0 ∨
      state.ourInputs.length / destinations.length < fusionTxMinInOutCountRatio then
    return .inl state.dropInput
  else
    let result ← makeTransaction env (outside.attempt state.ourInputs.length) parameters.mixin
      state.ourInputs [] destinations subWallets 0 parameters.extraData
    if fusionTxMaxSize < env.binarySize result.transaction then return .inl state.dropInput
    else return .inr result

/-- What the last round has gone through. -/
structure FusionMade (state : FusionState) (receiver : PublicKey × PublicKey)
    (result : TransactionResult) : Prop where
  manyInputs : fusionTxMinInputCount ≤ state.ourInputs.length
  fee_lt : fee < state.foundMoney
  ratio : (splitFor receiver (state.foundMoney - fee)).length * fusionTxMinInOutCountRatio ≤
    state.ourInputs.length
  made : makeTransaction env (outside.attempt state.ourInputs.length) parameters.mixin state.ourInputs []
    (splitFor receiver (state.foundMoney - fee)) subWallets 0 parameters.extraData = .ok result
  small : env.binarySize result.transaction ≤ fusionTxMaxSize

variable {env outside parameters destination fee subWallets} {state next : FusionState}
  {result : TransactionResult}

/-- A round that is tried again drops one of many inputs. -/
theorem dropInput_of_fusionRound
    (round : fusionRound env outside parameters destination fee subWallets state = .ok (.inl next)) :
    fusionTxMinInputCount ≤ state.ourInputs.length ∧ next = state.dropInput := by
  obtain ⟨many, round⟩ := of_check_bind.1 round
  obtain ⟨receiver, -, round⟩ := of_bind.1 round
  obtain ⟨-, round⟩ := of_check_bind.1 round
  refine ⟨many, ?_⟩
  simp only at round
  split_ifs at round
  · cases round
    rfl
  · obtain ⟨result, -, round⟩ := of_bind.1 round
    split_ifs at round <;> cases round
    rfl

theorem made_of_fusionRound
    (round : fusionRound env outside parameters destination fee subWallets state = .ok (.inr result)) :
    ∃ receiver, FusionMade env outside parameters fee subWallets state receiver result := by
  obtain ⟨many, round⟩ := of_check_bind.1 round
  obtain ⟨receiver, -, round⟩ := of_bind.1 round
  obtain ⟨fee_lt, round⟩ := of_check_bind.1 round
  simp only at round
  split_ifs at round with few
  · cases round
  · rw [not_or, not_lt] at few
    obtain ⟨result, made, round⟩ := of_bind.1 round
    split_ifs at round with large <;> cases round
    exact ⟨receiver, many, fee_lt,
      (mul_comm _ _).trans_le ((Nat.le_div_iff_mul_le (Nat.pos_of_ne_zero few.1)).1 few.2), made,
      not_lt.1 large⟩

theorem length_lt_of_fusionRound
    (round : fusionRound env outside parameters destination fee subWallets state = .ok (.inl next)) :
    next.ourInputs.length < state.ourInputs.length := by
  obtain ⟨many, rfl⟩ := dropInput_of_fusionRound round
  rw [fusionTxMinInputCount] at many
  rw [FusionState.dropInput, length_dropLast]
  omega

variable (env outside parameters destination fee subWallets)

/-- Rounds until the transaction is made or something fails. -/
def fusionLoop (state : FusionState) : Outcome (FusionState × TransactionResult) :=
  match _round : fusionRound env outside parameters destination fee subWallets state with
  | .error failure => .error failure
  | .ok (.inr result) => .ok (state, result)
  | .ok (.inl next) => fusionLoop next
termination_by state.ourInputs.length
decreasing_by exact length_lt_of_fusionRound _round

/-- The loop goes on from one state to the other. -/
def Retries (state next : FusionState) : Prop :=
  fusionRound env outside parameters destination fee subWallets state = .ok (.inl next)

variable {env outside parameters destination fee subWallets} {last : FusionState}

/-- Every round has fewer inputs than the one before, so there is a last one. -/
theorem wellFounded_retries :
    WellFounded fun next state => Retries env outside parameters destination fee subWallets state next :=
  Subrelation.wf (fun round => length_lt_of_fusionRound round)
    (measure fun state : FusionState => state.ourInputs.length).wf

theorem reached_of_fusionLoop
    (ended : fusionLoop env outside parameters destination fee subWallets state = .ok (last, result)) :
    Relation.ReflTransGen (Retries env outside parameters destination fee subWallets) state last ∧
      fusionRound env outside parameters destination fee subWallets last = .ok (.inr result) := by
  fun_induction fusionLoop env outside parameters destination fee subWallets state with
  | case1 => cases ended
  | case2 state result round =>
    cases ended
    exact ⟨.refl, round⟩
  | case3 state next round ih =>
    obtain ⟨rounds, made⟩ := ih ended
    exact ⟨.head round rounds, made⟩

/-- The running total is the sum of the inputs in 64 bits. -/
def FusionState.Adds (state : FusionState) : Prop :=
  state.foundMoney = uint64 (total amount state.ourInputs)

theorem FusionState.Adds.dropInput (adds : state.Adds) (some_input : state.ourInputs ≠ []) :
    state.dropInput.Adds := by
  obtain ⟨init, last, inputs_eq⟩ := (eq_nil_or_concat' state.ourInputs).resolve_left some_input
  rw [Adds, inputs_eq] at adds
  rw [Adds, FusionState.dropInput, adds, inputs_eq]
  simp [subUInt64_uint64_add]

/-- In every round the running total adds up, if it does before the first. -/
theorem adds_of_retries (adds : state.Adds)
    (rounds : Relation.ReflTransGen
      (Retries env outside parameters destination fee subWallets) state next) : next.Adds := by
  induction rounds with
  | refl => exact adds
  | tail _ round ih =>
    obtain ⟨many, rfl⟩ := dropInput_of_fusionRound round
    apply ih.dropInput
    rintro empty
    rw [empty] at many
    exact absurd many (by decide)

end Loop

/-- What is taken for a fusion adds up. -/
theorem adds_takeInputs {maxInputsToTake : Nat} {used bucket : List TxInputAndOwner}
    {found : Amount} (adds : FusionState.Adds ⟨used, found⟩) :
    FusionState.Adds ⟨(takeInputs maxInputsToTake used found bucket).1,
      (takeInputs maxInputsToTake used found bucket).2⟩ := by
  induction bucket generalizing used found with
  | nil => exact adds
  | cons walletAmount bucket ih =>
    have more : FusionState.Adds ⟨used ++ [walletAmount],
        uint64 (found + walletAmount.input.amount)⟩ := by
      simp only [FusionState.Adds] at adds ⊢
      rw [adds]
      simp [uint64, amount]
    rw [takeInputs]
    split_ifs
    · exact more
    · exact ih more

theorem adds_getFusionTransactionInputs {outside : FusionOutside} {takeFromAll : Bool}
    {takeFrom : List PublicKey} {mixin maxInputs : Nat} {c : SubWallets}
    {inputs : List TxInputAndOwner} {money : Amount}
    (chosen : c.getFusionTransactionInputs outside takeFromAll takeFrom mixin =
      .ok (inputs, maxInputs, money)) : FusionState.Adds ⟨inputs, money⟩ := by
  rw [SubWallets.getFusionTransactionInputs] at chosen
  split_ifs at chosen
  obtain ⟨available, -, chosen⟩ := of_bind.1 chosen
  obtain ⟨maxInputsToTake, -, chosen⟩ := of_bind.1 chosen
  cases chosen
  exact adds_takeInputs rfl

/-! ### Sending -/

def sendFusionTransactionAdvanced (env : SendEnv) (outside : FusionOutside)
    (parameters : FusionParameters) (subWallets : SubWallets) : Outcome SentByWallet := do
  let destination ← subWallets.changeAddressOr env.addressText parameters.destination
  validateFusionTransaction env.addresses parameters.mixin parameters.addressesToTakeFrom destination
    subWallets outside.blockCountAtValidation
  let subWalletsToTakeFrom ← uncaught (addressesToSpendKeys env.addresses parameters.addressesToTakeFrom)
  let (ourInputs, maxFusionInputs, foundMoney) ← uncaught (subWallets.getFusionTransactionInputs outside
    parameters.addressesToTakeFrom.isEmpty subWalletsToTakeFrom parameters.mixin)
  check (fusionTxMinInputCount ≤ maxFusionInputs) .fusionMixinTooLarge
  let fee := fusionFee outside.blockCountAtFee outside.blockCountAtFeeExit
  let (state, result) ← fusionLoop env outside parameters destination fee subWallets
    ⟨ourInputs, foundMoney⟩
  check (verifyAmounts result.transaction.transaction = true) .amountsNotPretty
  check (verifyTransactionFee fee result.transaction.transaction = true) .unexpectedFee
  let txHash ← relayTransaction env outside.relay result.transaction
  return {
    result
    txHash
    paymentID := []
    ourInputs := state.ourInputs
    changeAddress := destination
    changeRequired := 0 }

/-! ### What the node makes of it -/

theorem sum_filterMap_keyInputAmount (inputs : List DeroGold.TransactionInput) :
    (inputs.filterMap keyInputAmount).sum = (inputs.map (·.amount)).sum := by
  induction inputs with
  | nil => rfl
  | cons input inputs ih =>
    cases input with
    | base _ =>
      rw [filterMap_cons_none rfl, map_cons, sum_cons, ih]
      exact (zero_add _).symm
    | key input =>
      have found : keyInputAmount (.key input) = some input.amount := rfl
      rw [filterMap_cons_some found, map_cons, sum_cons, sum_cons, ih]
      rfl

/-- The node's amount to split is what is left of the inputs after the fee. -/
theorem fusionAmount_eq {height inputAmount : Nat} (fits : inputAmount < 2 ^ 64)
    (covers : fusionFee height height < inputAmount) :
    (if fusionFeeV1Height ≤ height ∧ height < fusionFeeV1ExitHeight then
      subUInt64 inputAmount fusionFeeV1 else inputAmount) =
      inputAmount - fusionFee height height := by
  rw [fusionFee] at covers ⊢
  split_ifs at covers ⊢ with window
  · exact subUInt64_of_le fits covers.le
  · rfl

/-- What is left after a fee is less than the sum by at least the fee. -/
theorem rest_of_fee {fee money sum : Nat} (fee_lt : fee < money) (money_le : money ≤ sum) :
    sum ≠ 0 ∧ money - fee ≤ sum ∧ fee ≤ sum - (money - fee) := by
  omega

section Node

variable {env : SendEnv} {outside : FusionOutside} {parameters : FusionParameters} {c : SubWallets}
  {state : FusionState} {receiver : PublicKey × PublicKey} {result : TransactionResult} {fee : Amount}

/-- The outputs of a fusion come in the order the node expects. -/
theorem FusionMade.outputs_eq (made : FusionMade env outside parameters fee c state receiver result) :
    (decomposeAmount 20 (state.foundMoney - fee) 1).insertionSort (· ≤ ·) =
      result.transaction.transaction.outputs.map (·.amount) := by
  obtain ⟨-, outputs, amounts⟩ := makeTransaction_amounts made.made
  rw [amounts, outputs, map_amount_setupOutputs, decomposeAmount_eq_splitFrom]
  have parts : (splitFor receiver (state.foundMoney - fee)).map (·.amount) =
      splitFrom 20 (state.foundMoney - fee) 1 := by
    rw [splitFor, map_map]
    exact map_id _
  have sorted := pairwise_map.2
    (env.sortDestinations.sorted (splitFor receiver (state.foundMoney - fee)))
  apply List.Perm.eq_of_sortedLE sortedLE_insertionSort sorted.sortedLE
  apply (perm_insertionSort _ _).trans
  rw [← parts]
  exact ((env.sortDestinations.perm _).map _).symm

theorem FusionMade.sums_eq (made : FusionMade env outside parameters fee c state receiver result)
    (fits : state.foundMoney < 2 ^ 64) :
    result.transaction.transaction.sumOfInputs = total amount state.ourInputs ∧
      result.transaction.transaction.sumOfOutputs = state.foundMoney - fee := by
  obtain ⟨inputs, outputs, amounts⟩ := makeTransaction_amounts made.made
  constructor
  · rw [DeroGold.Transaction.sumOfInputs, ← sum_filterMap_keyInputAmount]
    exact inputs.sum_eq
  · rw [DeroGold.Transaction.sumOfOutputs, amounts, outputs, sum_amount_setupOutputs,
      splitFor_eq ((Nat.sub_le _ _).trans_lt fits), sum_partsFor]

theorem FusionMade.isFusionTransaction {height : Nat}
    (made : FusionMade env outside parameters (fusionFee height height) c state receiver result)
    (adds : state.Adds) :
    DeroGold.isFusionTransaction result.transaction.transaction (env.binarySize result.transaction)
      height = true := by
  obtain ⟨inputs, outputs, amounts⟩ := makeTransaction_amounts made.made
  have length_inputs : (result.transaction.transaction.inputs.filterMap keyInputAmount).length =
      state.ourInputs.length := by
    rw [inputs.length_eq, length_map]
  have length_outputs : (result.transaction.transaction.outputs.map (·.amount)).length =
      (splitFor receiver (state.foundMoney - fusionFee height height)).length := by
    rw [amounts, outputs, map_amount_setupOutputs, length_map, (env.sortDestinations.perm _).length_eq]
  have money : (result.transaction.transaction.inputs.filterMap keyInputAmount).foldl
      (fun sum amount => uint64 (sum + amount)) 0 = state.foundMoney := by
    apply (foldl_uint64_add id _ 0).trans
    rw [adds, zero_add, map_id, inputs.sum_eq, total]
  have fits : state.foundMoney < 2 ^ 64 := adds ▸ uint64_lt _
  unfold DeroGold.isFusionTransaction
  change (if _ then false else
    if (result.transaction.transaction.inputs.filterMap keyInputAmount).length < _ then false else
    if (result.transaction.transaction.inputs.filterMap keyInputAmount).length < _ then false else
    _) = true
  rw [if_neg (not_lt.2 made.small), if_neg (not_lt.2 (length_inputs ▸ made.manyInputs)),
    if_neg (not_lt.2 (length_inputs ▸ length_outputs ▸ made.ratio))]
  refine beq_iff_eq.2 (Eq.trans ?_ made.outputs_eq)
  rw [← fusionAmount_eq fits made.fee_lt, ← money]
  rfl

/-- The fee of a fusion is one the node takes. -/
theorem FusionMade.validateTransactionFee {height : Nat} {hash : Hash}
    (made : FusionMade env outside parameters (fusionFee height height) c state receiver result)
    (adds : state.Adds) :
    let tx := result.transaction.transaction
    DeroGold.validateTransactionFee ⟨tx, hash, env.binarySize result.transaction⟩ tx.sumOfInputs
        tx.sumOfOutputs height = .ok (tx.sumOfInputs - tx.sumOfOutputs) ∧
      (tx.sumOfInputs < 2 ^ 64 → tx.sumOfInputs = tx.sumOfOutputs + fusionFee height height) := by
  intro tx
  obtain ⟨inputs, outputs⟩ := made.sums_eq (adds ▸ uint64_lt _)
  have money_le : state.foundMoney ≤ tx.sumOfInputs := by
    rw [adds, inputs]
    exact Nat.mod_le _ _
  obtain ⟨worth, balanced, pays⟩ := rest_of_fee made.fee_lt money_le
  rw [← outputs] at balanced pays
  constructor
  · rw [DeroGold.validateTransactionFee, made.isFusionTransaction adds]
    refine of_require_bind.2 ⟨worth, of_require_bind.2 ⟨balanced, of_require_bind.2 ⟨?_, rfl⟩⟩⟩
    rw [fusionFee] at pays
    split_ifs at pays with window
    · exact .inr pays
    · exact .inl window
  · intro fits
    have exact_money : state.foundMoney = tx.sumOfInputs := by
      rw [inputs] at fits ⊢
      rw [adds, uint64_of_lt fits]
    rw [outputs, ← exact_money, Nat.sub_add_cancel made.fee_lt.le]

end Node

/-- What a node keeps of a transaction that was sent to it. -/
def SentByWallet.cached (env : SendEnv) (sent : SentByWallet) : CachedTransaction :=
  ⟨sent.result.transaction.transaction, sent.txHash, env.binarySize sent.result.transaction⟩

/-- A transaction that was relayed is a fusion to the node, which takes its fee; in 64 bits that is
the fee of a fusion. The loop that drops inputs has a last round, and in each round the running
total is the sum of the inputs in 64 bits, which is their sum if and only if that is below
`2 ^ 64`. -/
theorem fusion_accepted {env : SendEnv} {outside : FusionOutside} {parameters : FusionParameters}
    {c : SubWallets} {sent : SentByWallet} {height : Nat} (asked : outside.blockCountAtFee = height)
    (asked_again : outside.blockCountAtFeeExit = height)
    (relayed : sendFusionTransactionAdvanced env outside parameters c = .ok sent) :
    let tx := sent.cached env
    isFusionTransaction tx.transaction tx.binarySize height = true ∧
    validateTransactionFee tx tx.transaction.sumOfInputs tx.transaction.sumOfOutputs height =
      .ok (tx.transaction.sumOfInputs - tx.transaction.sumOfOutputs) ∧
    (tx.transaction.sumOfInputs < 2 ^ 64 →
      tx.transaction.sumOfInputs = tx.transaction.sumOfOutputs + fusionFee height height) ∧
    ∃ spendKeys inputs maxInputs money,
      addressesToSpendKeys env.addresses parameters.addressesToTakeFrom = .ok spendKeys ∧
      c.getFusionTransactionInputs outside parameters.addressesToTakeFrom.isEmpty spendKeys
        parameters.mixin = .ok (inputs, maxInputs, money) ∧
      (WellFounded fun next state =>
        Retries env outside parameters sent.changeAddress (fusionFee height height) c state next) ∧
      ∀ state, Relation.ReflTransGen
          (Retries env outside parameters sent.changeAddress (fusionFee height height) c)
          ⟨inputs, money⟩ state →
        state.foundMoney = uint64 (total amount state.ourInputs) ∧
        (state.foundMoney = total amount state.ourInputs ↔
          total amount state.ourInputs < 2 ^ 64) := by
  subst asked
  unfold sendFusionTransactionAdvanced at relayed
  rw [asked_again] at relayed
  obtain ⟨destination, -, passed⟩ := of_bind.1 relayed
  obtain ⟨_, -, passed⟩ := of_bind.1 passed
  obtain ⟨spendKeys, keys, passed⟩ := of_bind.1 passed
  obtain ⟨⟨inputs, maxInputs, money⟩, chosen, passed⟩ := of_bind.1 passed
  obtain ⟨-, passed⟩ := of_check_bind.1 passed
  obtain ⟨⟨last, result⟩, ended, passed⟩ := of_bind.1 passed
  obtain ⟨-, passed⟩ := of_check_bind.1 passed
  obtain ⟨-, passed⟩ := of_check_bind.1 passed
  obtain ⟨txHash, -, passed⟩ := of_bind.1 passed
  cases passed
  have selected_adds := adds_getFusionTransactionInputs (uncaught_eq_ok.1 chosen)
  obtain ⟨rounds, round⟩ := reached_of_fusionLoop ended
  obtain ⟨receiver, made⟩ := made_of_fusionRound round
  have adds := adds_of_retries selected_adds rounds
  obtain ⟨fee_taken, fee_exact⟩ := made.validateTransactionFee adds
  refine ⟨made.isFusionTransaction adds, fee_taken, fee_exact, spendKeys, inputs, maxInputs, money,
    uncaught_eq_ok.1 keys, uncaught_eq_ok.1 chosen, wellFounded_retries, ?_⟩
  intro state reached
  have state_adds := adds_of_retries selected_adds reached
  refine ⟨state_adds, ?_, ?_⟩
  · intro same
    exact same ▸ state_adds ▸ uint64_lt _
  · intro fits
    rw [state_adds, uint64_of_lt fits]

namespace Sample

/-- A fusion at height 1 that leaves everything in its order. -/
def fusionOutside : FusionOutside where
  blockCountAtValidation := 1
  blockCountAtSelection := 1
  nowAtSelection := 0
  numberOfDigits amount := Nat.log 10 amount + 1
  shuffle := sendOutside.shuffle
  isShuffle := sendOutside.isShuffle
  bucketOrder := id
  isBucketOrder := fun _ => List.Perm.refl _
  shuffleBuckets := id
  isBucketShuffle := fun _ => List.Perm.refl _
  blockCountAtFee := 1
  blockCountAtFeeExit := 1
  attempt _ := plainAttempt
  relay _ := .success

def fusing : FusionParameters where
  mixin := 0
  addressesToTakeFrom := []
  destination := []
  extraData := []

/-- Thirteen outputs would become five, so the last one is dropped: twelve outputs of 1000 become
outputs of 2000 and 10000. -/
theorem fusion_accepted_thousands :
    let thousands := holding ((List.range 13).map fun i => unspent i (if i < 12 then 1000 else 1234))
    ∃ sent, sendFusionTransactionAdvanced sendEnv fusionOutside fusing thousands = .ok sent ∧
      sums sent = (12000, 12000) ∧ isFusionTransaction (sent.cached sendEnv).transaction
        (sent.cached sendEnv).binarySize 1 = true := by
  intro thousands
  obtain ⟨sent, relayed, sums_eq⟩ : ∃ sent,
      sendFusionTransactionAdvanced sendEnv fusionOutside fusing thousands = .ok sent ∧
        sums sent = (12000, 12000) :=
    Checked.exists_of_toOption_map (by decide +kernel)
  exact ⟨sent, relayed, sums_eq, (fusion_accepted rfl rfl relayed).1⟩

/-- Four outputs of `2 ^ 63` and eight of 1000: the running total starts with 8000. -/
theorem running_total_wraps :
    let rich := holding ((List.range 12).map fun i => unspent i (if i < 4 then 2 ^ 63 else 1000))
    (∃ sent, sendFusionTransactionAdvanced sendEnv fusionOutside fusing rich = .ok sent ∧
      sums sent = (2 ^ 65 + 8000, 8000)) ∧
    ∃ inputs, rich.getFusionTransactionInputs fusionOutside true [] 0 = .ok (inputs, 265, 8000) ∧
      total amount inputs = 2 ^ 65 + 8000 := by
  intro rich
  refine ⟨Checked.exists_of_toOption_map (by decide +kernel), ?_⟩
  obtain ⟨⟨inputs, maxInputs, money⟩, chosen, found⟩ : ∃ chosen,
      rich.getFusionTransactionInputs fusionOutside true [] 0 = .ok chosen ∧
        (chosen.2, total amount chosen.1) = ((265, 8000), 2 ^ 65 + 8000) :=
    Checked.exists_of_toOption_map (by decide +kernel)
  obtain ⟨numbers, worth⟩ := Prod.mk.inj found
  cases numbers
  exact ⟨inputs, chosen, worth⟩

end Sample

end DeroGold.Wallet
