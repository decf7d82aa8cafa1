import DeroGold.Growth

/-!
What a transaction that passes validation has gone through, and what the loop over a
block's transactions collects: the key images of all of them, each once, and a fee for
each.
-/

namespace DeroGold

open Checked List

/-! ### One transaction -/

/-- The checks of `validate`, all passed, with the values they computed. -/
structure TransactionChecks (context : ValidationContext) (tx : CachedTransaction)
    (validatorState : TransactionValidatorState) (inputs : InputsState) (sumOfOutputs fee : Nat) :
    Prop where
  size : validateTransactionSize context.blockSizeMedian tx = .ok ()
  inputsPass : validateTransactionInputs context.env.crypto tx.transaction validatorState = .ok inputs
  outputsPass : validateTransactionOutputs context.env.crypto tx.transaction = .ok sumOfOutputs
  feePasses : validateTransactionFee tx inputs.sumOfInputs sumOfOutputs context.blockHeight = .ok fee
  extra : validateTransactionExtra tx.transaction context.blockHeight context.isPoolTransaction =
    .ok ()
  mixin : validateTransactionMixin tx context.blockHeight = .ok ()
  pow : validateTransactionPoW context.env.crypto tx context.blockHeight = .ok ()
  expensive : context.validateTransactionInputsExpensive tx = .ok ()

section Validate

variable {context : ValidationContext} {tx : CachedTransaction}
  {validatorState : TransactionValidatorState} {result : TransactionValidatorState × Nat}

theorem checks_of_validate (passed : context.validate tx validatorState = .ok result) :
    ∃ inputs sumOfOutputs,
      TransactionChecks context tx validatorState inputs sumOfOutputs result.2 ∧
      result.1.spentKeyImages = inputs.spentKeyImages := by
  unfold ValidationContext.validate at passed
  obtain ⟨_, size, passed⟩ := of_bind.1 passed
  obtain ⟨inputs, inputs_ok, passed⟩ := of_bind.1 passed
  obtain ⟨sumOfOutputs, outputs, passed⟩ := of_bind.1 passed
  obtain ⟨fee, fee_ok, passed⟩ := of_bind.1 passed
  obtain ⟨_, extra, passed⟩ := of_bind.1 passed
  obtain ⟨_, mixin, passed⟩ := of_bind.1 passed
  obtain ⟨_, pow, passed⟩ := of_bind.1 passed
  obtain ⟨_, expensive, passed⟩ := of_bind.1 passed
  cases passed
  exact ⟨inputs, sumOfOutputs, ⟨size, inputs_ok, outputs, fee_ok, extra, mixin, pow, expensive⟩,
    rfl⟩

end Validate

/-! ### The loop over the inputs -/

variable {crypto : Crypto} {tx : CachedTransaction} {context : ValidationContext}

/-- What one round adds. -/
theorem validateTransactionInput_ok {state state' : InputsState} {input : TransactionInput}
    (passed : validateTransactionInput crypto state input = .ok state') :
    ∃ keyInput, input = .key keyInput ∧
      keyInput.keyImage ∉ state.spentKeyImages ∧
      state'.spentKeyImages = state.spentKeyImages ++ [keyInput.keyImage] ∧
      state'.sumOfInputs = state.sumOfInputs + keyInput.amount ∧ state'.sumOfInputs < 2 ^ 64 := by
  cases input with
  | base index => cases passed
  | key keyInput =>
    iterate 4 obtain ⟨-, passed⟩ := of_require_bind.1 passed
    obtain ⟨fresh, passed⟩ := of_require_bind.1 passed
    obtain ⟨fits, passed⟩ := of_require_bind.1 passed
    cases passed
    exact ⟨keyInput, rfl, fresh, rfl, rfl, fits⟩

/-- Amount of a key input. -/
def TransactionInput.amount : TransactionInput → Amount
  | .base _ => 0
  | .key input => input.amount

def Transaction.sumOfInputs (tx : Transaction) : Nat := (tx.inputs.map (·.amount)).sum

def Transaction.sumOfOutputs (tx : Transaction) : Nat := (tx.outputs.map (·.amount)).sum

/-- The loop collects the key images, which are new, and the sum of the amounts. -/
theorem foldlM_validateTransactionInput {inputs : List TransactionInput}
    {state state' : InputsState}
    (passed : inputs.foldlM (validateTransactionInput crypto) state = .ok state') :
    state'.spentKeyImages =
        state.spentKeyImages ++ inputs.filterMap TransactionInput.keyImage? ∧
      (state.spentKeyImages.Nodup → state'.spentKeyImages.Nodup) ∧
      state'.sumOfInputs = state.sumOfInputs + (inputs.map (·.amount)).sum ∧
      (state.sumOfInputs < 2 ^ 64 → state'.sumOfInputs < 2 ^ 64) ∧
      ∀ input ∈ inputs, ∃ keyInput, input = .key keyInput := by
  induction inputs generalizing state state' with
  | nil =>
    cases passed
    simp
  | cons input inputs ih =>
    rw [foldlM_cons, of_bind] at passed
    obtain ⟨middle, first, rest⟩ := passed
    obtain ⟨keyInput, rfl, fresh, images, sum, fits⟩ := validateTransactionInput_ok first
    obtain ⟨images', nodup', sum', fits', keys⟩ := ih rest
    refine ⟨?_, fun nodup => nodup' ?_, ?_, fun _ => fits' fits,
      forall_mem_cons.2 ⟨⟨keyInput, rfl⟩, keys⟩⟩
    · have first_image : (TransactionInput.key keyInput).keyImage? = some keyInput.keyImage := rfl
      rw [images', images, filterMap_cons_some first_image, append_assoc]
      rfl
    · rw [images]
      exact nodup_append.2 ⟨nodup, nodup_singleton _, fun k mem k' mem' same =>
        fresh (by rw [mem_singleton.1 mem'] at same; exact same ▸ mem)⟩
    · rw [sum', sum, map_cons, sum_cons, ← add_assoc]
      rfl

theorem validateTransactionInputs_ok {tx : Transaction} {validatorState : TransactionValidatorState}
    {inputs : InputsState}
    (passed : validateTransactionInputs crypto tx validatorState = .ok inputs) :
    inputs.spentKeyImages = validatorState.spentKeyImages ++ tx.keyImages ∧
      (validatorState.spentKeyImages.Nodup → inputs.spentKeyImages.Nodup) ∧
      inputs.sumOfInputs = tx.sumOfInputs ∧ tx.sumOfInputs < 2 ^ 64 ∧
      ∀ input ∈ tx.inputs, ∃ keyInput, input = .key keyInput := by
  obtain ⟨-, passed⟩ := of_require_bind.1 passed
  obtain ⟨images, nodup, sum, fits, keys⟩ := foldlM_validateTransactionInput passed
  have exact_sum : inputs.sumOfInputs = tx.sumOfInputs := by
    rw [sum, zero_add]
    rfl
  exact ⟨images, nodup, exact_sum, exact_sum ▸ fits (by decide : 0 < 2 ^ 64), keys⟩

/-- The sum of the outputs is exact. -/
theorem validateTransactionOutputs_ok {tx : Transaction} {sumOfOutputs : Nat}
    (passed : validateTransactionOutputs crypto tx = .ok sumOfOutputs) :
    sumOfOutputs = tx.sumOfOutputs := by
  have loop : ∀ (outputs : List TransactionOutput) (sum sum' : Nat),
      outputs.foldlM (validateTransactionOutput crypto) sum = .ok sum' →
      sum' = sum + (outputs.map (·.amount)).sum := by
    intro outputs sum sum' passed
    induction outputs generalizing sum with
    | nil =>
      cases passed
      simp
    | cons output outputs ih =>
      rw [foldlM_cons, of_bind] at passed
      obtain ⟨middle, first, rest⟩ := passed
      iterate 3 obtain ⟨-, first⟩ := of_require_bind.1 first
      cases first
      rw [ih _ rest, map_cons, sum_cons, add_assoc]
  rw [loop _ _ _ passed, zero_add]
  rfl

/-- The fee is the difference of the sums, and a low one is that of a fusion. -/
theorem validateTransactionFee_ok {sumOfInputs sumOfOutputs height fee : Nat}
    (passed : validateTransactionFee tx sumOfInputs sumOfOutputs height = .ok fee) :
    sumOfOutputs ≤ sumOfInputs ∧ fee = sumOfInputs - sumOfOutputs ∧
      (getMinimumFee height ≤ fee ∨
        isFusionTransaction tx.transaction tx.binarySize height = true) := by
  unfold validateTransactionFee at passed
  obtain ⟨-, passed⟩ := of_require_bind.1 passed
  obtain ⟨le, passed⟩ := of_require_bind.1 passed
  simp only at passed
  split at passed
  · rename_i fusion
    obtain ⟨-, passed⟩ := of_require_bind.1 passed
    cases passed
    exact ⟨le, rfl, .inr fusion⟩
  · obtain ⟨enough, passed⟩ := of_require_bind.1 passed
    cases passed
    exact ⟨le, rfl, .inl enough.2⟩

/-! ### The loop over a block's transactions -/

/-- Key images of all transactions of a block. -/
def RawBlock.keyImages (raw : RawBlock) : List KeyImage :=
  raw.cachedTransactions.flatMap fun tx => tx.transaction.keyImages

/-- Fee of a transaction as the difference of its sums. -/
def CachedTransaction.fee (tx : CachedTransaction) : Nat :=
  tx.transaction.sumOfInputs - tx.transaction.sumOfOutputs

/-- One transaction that passes: its key images are appended, and its fee is the
difference of its sums. -/
theorem validate_ok {state state' : TransactionValidatorState} {fee : Nat}
    (passed : context.validate tx state = .ok (state', fee)) (nodup : state.spentKeyImages.Nodup) :
    state'.spentKeyImages = state.spentKeyImages ++ tx.transaction.keyImages ∧
      state'.spentKeyImages.Nodup ∧
      tx.transaction.sumOfOutputs ≤ tx.transaction.sumOfInputs ∧ fee = tx.fee ∧
      context.validateTransactionInputsExpensive tx = .ok () ∧
      ∀ input ∈ tx.transaction.inputs, ∃ keyInput, input = .key keyInput := by
  obtain ⟨inputs, sumOfOutputs, checks, collected⟩ := checks_of_validate passed
  obtain ⟨images, nodup', sum, -, keys⟩ := validateTransactionInputs_ok checks.inputsPass
  obtain ⟨le, fee_eq, -⟩ := validateTransactionFee_ok checks.feePasses
  rw [validateTransactionOutputs_ok checks.outputsPass, sum] at le fee_eq
  refine ⟨collected.trans images, ?_, le, fee_eq, checks.expensive, keys⟩
  rw [show state'.spentKeyImages = inputs.spentKeyImages from collected]
  exact nodup' nodup

/-- The whole loop, from any state; it adds up the fees in a machine word. -/
theorem foldlM_validateBlockTransaction {txs : List CachedTransaction}
    {state state' : TransactionValidatorState × Nat}
    (passed : txs.foldlM (validateBlockTransaction context) state = .ok state')
    (nodup : state.1.spentKeyImages.Nodup) :
    state'.1.spentKeyImages =
        state.1.spentKeyImages ++ txs.flatMap (fun tx => tx.transaction.keyImages) ∧
      state'.1.spentKeyImages.Nodup ∧
      (state.2 < 2 ^ 64 → state'.2 = uint64 (state.2 + (txs.map (·.fee)).sum)) ∧
      ∀ tx ∈ txs, tx.transaction.sumOfOutputs ≤ tx.transaction.sumOfInputs ∧
        context.validateTransactionInputsExpensive tx = .ok () ∧
        ∀ input ∈ tx.transaction.inputs, ∃ keyInput, input = .key keyInput := by
  induction txs generalizing state state' with
  | nil =>
    cases passed
    simpa [nodup] using fun word => (uint64_of_lt word).symm
  | cons tx txs ih =>
    rw [foldlM_cons, of_bind] at passed
    obtain ⟨middle, first, rest⟩ := passed
    unfold validateBlockTransaction at first
    split at first
    · rename_i validatorState fee valid
      cases first
      obtain ⟨images, nodup', le, rfl, expensive, keys⟩ := validate_ok valid nodup
      obtain ⟨images', nodup'', fees, others⟩ := ih rest nodup'
      refine ⟨?_, nodup'', fun _ => ?_, forall_mem_cons.2 ⟨⟨le, expensive, keys⟩, others⟩⟩
      · rw [images', images, flatMap_cons, append_assoc]
      · rw [fees (uint64_lt _), map_cons, sum_cons]
        unfold uint64
        omega
    · cases first
    · cases first

/-- Every transaction of a block that passes has passed after those before it. -/
theorem validate_of_validateBlockTransactions {txs : List CachedTransaction}
    {result : TransactionValidatorState × Nat}
    (passed : validateBlockTransactions context txs = .ok result) (mem : tx ∈ txs) :
    ∃ state result, context.validate tx state = .ok result := by
  obtain ⟨before, after, valid⟩ := exists_of_foldlM_ok passed tx mem
  unfold validateBlockTransaction at valid
  split at valid
  · rename_i passed
    exact ⟨_, _, passed⟩
  · cases valid
  · cases valid

/-- A block whose transactions pass spends each of their key images once. -/
theorem validateBlockTransactions_ok {raw : RawBlock} {state : TransactionValidatorState}
    {fee : Nat}
    (passed : validateBlockTransactions context raw.cachedTransactions = .ok (state, fee)) :
    state.spentKeyImages = raw.keyImages ∧ raw.keyImages.Nodup ∧
      ∀ tx ∈ raw.cachedTransactions,
        tx.transaction.sumOfOutputs ≤ tx.transaction.sumOfInputs ∧
        context.validateTransactionInputsExpensive tx = .ok () ∧
        ∀ input ∈ tx.transaction.inputs, ∃ keyInput, input = .key keyInput := by
  obtain ⟨images, nodup, -, each⟩ := foldlM_validateBlockTransaction passed nodup_nil
  have same : state.spentKeyImages = raw.keyImages := images
  exact ⟨same, same ▸ nodup, each⟩

/-- Outside the checkpoint zone no key image of a passing transaction is spent on the
branch it is checked against. -/
theorem validateInputExpensive_ok (passed : context.validateTransactionInputsExpensive tx = .ok ())
    (outside : context.env.checkpoints.isInCheckpointZone (context.blockHeight + 1) = false)
    {input : TransactionInput} {index : Nat} (at_index : tx.transaction.inputs[index]? = some input) :
    context.validateInputExpensive tx input index = .ok () := by
  unfold ValidationContext.validateTransactionInputsExpensive at passed
  rw [outside, if_neg Bool.false_ne_true, forM_ok] at passed
  exact passed (input, index) (mem_zipIdx_iff_getElem?.2 at_index)

theorem not_spent_of_expensive (passed : context.validateTransactionInputsExpensive tx = .ok ())
    (outside : context.env.checkpoints.isInCheckpointZone (context.blockHeight + 1) = false)
    {keyImage : KeyImage} (mem : keyImage ∈ tx.transaction.keyImages) :
    context.lineage.checkIfSpent keyImage context.blockHeight = false := by
  obtain ⟨input, input_mem, image⟩ := mem_filterMap.1 mem
  obtain ⟨index, at_index⟩ := getElem?_of_mem input_mem
  have checked := validateInputExpensive_ok passed outside at_index
  cases input with
  | base blockIndex => cases image
  | key input =>
    cases image
    exact (of_require_bind.1 checked).1

end DeroGold
