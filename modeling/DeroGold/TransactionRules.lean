import DeroGold.Rings
import DeroGold.WideRules

/-!
Rules that hold of a transaction because of the order in which it is checked.

* `threw_iff`: validation ends with an exception for transactions whose inputs are worth nothing,
  and for no others.
* `mixin_agrees_iff`: the rule for rings is that of the height alone; there is no period of grace.
* `fusion_of_cheap`: an accepted transaction below the minimum fee is a fusion, in exact numbers.
-/

namespace DeroGold

open List Checked Parameters

namespace ValidationContext

variable {context : ValidationContext} {tx : CachedTransaction} {state : TransactionValidatorState}

/-! ### Exceptions -/

/-- Only around the height where transactions begin to need work of their own is that work
asked for again. -/
def revalidateAfterHeightChange (context : ValidationContext) (tx : CachedTransaction)
    (validatorState : TransactionValidatorState) : Except TransactionFailure Unit := do
  validateTransactionSize context.blockSizeMedian tx
  validateTransactionExtra tx.transaction context.blockHeight context.isPoolTransaction
  validateTransactionMixin tx context.blockHeight
  let inputs ← validateTransactionInputs context.env.crypto tx.transaction validatorState
  let sumOfOutputs ← validateTransactionOutputs context.env.crypto tx.transaction
  let _ ← validateTransactionFee tx inputs.sumOfInputs sumOfOutputs context.blockHeight
  if transactionPowHeight ≤ context.blockHeight ∧
      context.blockHeight ≤ transactionPowHeight + 100 then
    validateTransactionPoW context.env.crypto tx context.blockHeight

/-- No exception leaves the computation. -/
def Returns {α : Type} (x : Except TransactionFailure α) : Prop := NeverFails (· = .threw) x

theorem returns_require {condition : Prop} [Decidable condition] (code : TransactionValidationError) :
    Returns (require condition (.error code)) :=
  NeverFails.require nofun

theorem returns_inputs (crypto : Crypto) (tx : Transaction) :
    Returns (validateTransactionInputs crypto tx state) := by
  refine .bind (returns_require _) fun _ => ?_
  intro e failed
  obtain ⟨before, input, after, middle, -, -, failed⟩ := foldlM_eq_error.1 failed
  cases input with
  | base index =>
    cases failed
    nofun
  | key input =>
    revert failed
    refine NeverFails.bind (returns_require _) (fun _ => ?_) e
    iterate 5 refine .bind (returns_require _) fun _ => ?_
    nofun

theorem returns_outputs (crypto : Crypto) (tx : Transaction) :
    Returns (validateTransactionOutputs crypto tx) := by
  intro e failed
  obtain ⟨before, output, after, middle, -, -, failed⟩ := foldlM_eq_error.1 failed
  revert failed
  refine NeverFails.bind (returns_require _) (fun _ => ?_) e
  iterate 2 refine .bind (returns_require _) fun _ => ?_
  nofun

theorem fee_threw {sumOfInputs sumOfOutputs height : Nat} :
    validateTransactionFee tx sumOfInputs sumOfOutputs height = .error .threw ↔
      sumOfInputs = 0 := by
  unfold validateTransactionFee
  by_cases zero : sumOfInputs = 0
  · simp [zero, require, bind, Except.bind]
  · refine iff_of_false (fun failed => ?_) zero
    rcases bind_eq_error.1 failed with failed | ⟨-, -, failed⟩
    · simp [require, zero] at failed
    · refine NeverFails.bind (returns_require _) (fun _ => ?_) _ failed rfl
      dsimp only
      split
      · exact .bind (returns_require _) fun _ => .ok _
      · exact .bind (returns_require _) fun _ => .ok _

/-- The sums, the fee and what follows: only the fee of nothing throws. -/
theorem sums_threw_iff {α : Type} {rest : InputsState → Nat → Nat → Except TransactionFailure α}
    (returns : ∀ inputs sumOfOutputs fee,
      validateTransactionInputs context.env.crypto tx.transaction state = .ok inputs →
      Returns (rest inputs sumOfOutputs fee)) :
    (do
      let inputs ← validateTransactionInputs context.env.crypto tx.transaction state
      let sumOfOutputs ← validateTransactionOutputs context.env.crypto tx.transaction
      let fee ← validateTransactionFee tx inputs.sumOfInputs sumOfOutputs context.blockHeight
      rest inputs sumOfOutputs fee) = .error .threw ↔
    (∃ inputs, validateTransactionInputs context.env.crypto tx.transaction state = .ok inputs) ∧
      (∃ sum, validateTransactionOutputs context.env.crypto tx.transaction = .ok sum) ∧
      tx.transaction.sumOfInputs = 0 := by
  rw [(returns_inputs _ _).bind_error_iff rfl]
  constructor
  · rintro ⟨inputs, passed, failed⟩
    obtain ⟨sum, outputs, failed⟩ := ((returns_outputs _ _).bind_error_iff rfl).1 failed
    obtain ⟨-, -, exact_sum, -⟩ := validateTransactionInputs_ok passed
    rcases bind_eq_error.1 failed with failed | ⟨fee, -, failed⟩
    · exact ⟨⟨inputs, passed⟩, ⟨sum, outputs⟩, exact_sum ▸ fee_threw.1 failed⟩
    · exact absurd rfl (returns inputs sum fee passed _ failed)
  · rintro ⟨⟨inputs, passed⟩, ⟨sum, outputs⟩, nothing⟩
    obtain ⟨-, -, exact_sum, -⟩ := validateTransactionInputs_ok passed
    refine ⟨inputs, passed, ((returns_outputs _ _).bind_error_iff rfl).2 ⟨sum, outputs, ?_⟩⟩
    exact bind_eq_error.2 (.inl (fee_threw.2 (exact_sum.trans nothing)))

theorem returns_extra (tx : Transaction) (height : Nat) (pool : Bool) :
    Returns (validateTransactionExtra tx height pool) := by
  unfold validateTransactionExtra
  dsimp only
  split_ifs
  · exact returns_require _
  · exact returns_require _
  · exact .ok _

/-- The slow checks read the inputs as key inputs, which they are by then. -/
theorem returns_expensive (keys : ∀ input ∈ tx.transaction.inputs, ∃ keyInput, input = .key keyInput) :
    Returns (context.validateTransactionInputsExpensive tx) := by
  unfold validateTransactionInputsExpensive
  split
  · nofun
  have each : ∀ input ∈ tx.transaction.inputs.zipIdx,
      Returns (context.validateInputExpensive tx input.1 input.2) := by
    rintro ⟨input, index⟩ mem
    obtain ⟨keyInput, rfl⟩ := keys input (mem_of_getElem? (mem_zipIdx_iff_getElem?.1 mem))
    refine .bind (returns_require _) fun _ => .bind ?_ fun outputKeys =>
      .bind (returns_require _) fun _ => returns_require _
    intro e failed
    unfold ringKeys at failed
    split at failed
    · cases failed
    · cases failed
      nofun
    · cases failed
      nofun
  generalize tx.transaction.inputs.zipIdx = inputs at each
  induction inputs with
  | nil => nofun
  | cons input inputs ih =>
    exact .bind (each input mem_cons_self) fun _ =>
      ih (forall_mem_cons.1 each).2

/-- The checks before the fee pass. -/
structure ReachesFee (context : ValidationContext) (tx : CachedTransaction)
    (state : TransactionValidatorState) : Prop where
  size : validateTransactionSize context.blockSizeMedian tx = .ok ()
  inputs : ∃ inputs, validateTransactionInputs context.env.crypto tx.transaction state = .ok inputs
  outputs : ∃ sum, validateTransactionOutputs context.env.crypto tx.transaction = .ok sum

/-- Validation throws exactly for a transaction that comes to the check of its fee with inputs worth
nothing; the second entry point makes two more checks before. -/
theorem threw_iff (context : ValidationContext) (tx : CachedTransaction)
    (state : TransactionValidatorState) : (context.validate tx state = .error .threw ↔
      context.ReachesFee tx state ∧ tx.transaction.sumOfInputs = 0) ∧
    (context.revalidateAfterHeightChange tx state = .error .threw ↔
      (context.ReachesFee tx state ∧
        validateTransactionExtra tx.transaction context.blockHeight context.isPoolTransaction = .ok () ∧
        validateTransactionMixin tx context.blockHeight = .ok ()) ∧
      tx.transaction.sumOfInputs = 0) := by
  have size : Returns (validateTransactionSize context.blockSizeMedian tx) := returns_require _
  have mixin : Returns (validateTransactionMixin tx context.blockHeight) := returns_require _
  have pow : Returns (validateTransactionPoW context.env.crypto tx context.blockHeight) :=
    returns_require _
  have extra := returns_extra tx.transaction context.blockHeight context.isPoolTransaction
  unfold validate revalidateAfterHeightChange
  rw [size.bind_error_iff rfl, size.bind_error_iff rfl]
  constructor
  · refine (exists_congr fun _ => and_congr_right fun _ =>
      sums_threw_iff fun _ _ _ passed => ?_).trans ?_
    · exact .bind extra fun _ => .bind mixin fun _ => .bind pow fun _ =>
        .bind (returns_expensive (validateTransactionInputs_ok passed).2.2.2.2) fun _ =>
          nofun
    constructor
    · rintro ⟨⟨⟩, size, inputs, outputs, nothing⟩
      exact ⟨⟨size, inputs, outputs⟩, nothing⟩
    · rintro ⟨⟨size, inputs, outputs⟩, nothing⟩
      exact ⟨(), size, inputs, outputs, nothing⟩
  · refine (exists_congr fun _ => and_congr_right fun _ => (extra.bind_error_iff rfl).trans <|
      exists_congr fun _ => and_congr_right fun _ => (mixin.bind_error_iff rfl).trans <|
      exists_congr fun _ => and_congr_right fun _ => sums_threw_iff fun _ _ _ _ => ?_).trans ?_
    · split_ifs
      · exact pow
      · nofun
    constructor
    · rintro ⟨⟨⟩, size, ⟨⟩, extra, ⟨⟩, mixin, inputs, outputs, nothing⟩
      exact ⟨⟨⟨size, inputs, outputs⟩, extra, mixin⟩, nothing⟩
    · rintro ⟨⟨⟨size, inputs, outputs⟩, extra, mixin⟩, nothing⟩
      exact ⟨(), size, (), extra, (), mixin, inputs, outputs, nothing⟩

/-- One input, worth nothing, and no outputs. -/
theorem threw_nothing : (⟨Sample.env, [], 0, 0, 100000, true⟩ : ValidationContext).validate
      ⟨⟨0, [.key ⟨0, [0], 7⟩], [], 0, [1]⟩, 1, 100⟩ ⟨[]⟩ = .error .threw := by
  decide +kernel

/-! ### Rings -/

/-- `validateTransactionMixin` as it is written, with both attempts. The height of the second one is
that of the first, not the one computed for it. -/
def validateTransactionMixinTwice (context : ValidationContext) (tx : CachedTransaction) :
    Except TransactionFailure Unit :=
  let mixinChangeWindow := uint32 context.blockHeight
  let _mixinChangeWindow :=
    if minedMoneyUnlockWindow < mixinChangeWindow then
      mixinChangeWindow - minedMoneyUnlockWindow
    else mixinChangeWindow
  if Mixins.validate tx context.blockHeight then .ok ()
  else if context.isPoolTransaction then .error (.error .invalidMixin)
  else if Mixins.validate tx context.blockHeight then .ok ()
  else .error (.error .invalidMixin)

theorem validateTransactionMixinTwice_eq (context : ValidationContext) (tx : CachedTransaction) :
    context.validateTransactionMixinTwice tx = validateTransactionMixin tx context.blockHeight := by
  unfold validateTransactionMixinTwice validateTransactionMixin require
  dsimp only
  split_ifs <;> rfl

/-- The mixin of an input is in the range of a height. -/
def MixinAllowed (height : Nat) (input : KeyInput) : Prop :=
  (getMixinAllowableRange height).1 ≤ input.outputIndexes.length - 1 ∧
    input.outputIndexes.length - 1 ≤ (getMixinAllowableRange height).2

/-- Every input obeys the rule in force or, in a block, every one that of a window before. -/
def MixinRule (context : ValidationContext) (tx : Transaction) : Prop :=
  (∀ input ∈ tx.keyInputs, MixinAllowed context.blockHeight input) ∨
    context.isPoolTransaction = false ∧ ∀ input ∈ tx.keyInputs,
      MixinAllowed (context.blockHeight - minedMoneyUnlockWindow) input

/-- The largest ring is within a bound if every ring is. -/
theorem ringSize_le {tx : Transaction} {bound : Nat} :
    ringSize tx - 1 ≤ bound ↔ ∀ input ∈ tx.keyInputs, input.outputIndexes.length - 1 ≤ bound := by
  have loop : ∀ {f : Nat → TransactionInput → Nat}, (∀ size index, f size (.base index) = size) →
      (∀ size input, f size (.key input) = max size input.outputIndexes.length) →
      ∀ (inputs : List TransactionInput) (size : Nat), inputs.foldl f size - 1 ≤ bound ↔
      size - 1 ≤ bound ∧ ∀ input, .key input ∈ inputs → input.outputIndexes.length - 1 ≤ bound := by
    intro f base key inputs size
    induction inputs generalizing size with
    | nil => simp
    | cons input inputs ih =>
      rw [foldl_cons, ih]
      cases input with
      | base index => simp [base]
      | key input =>
        simp only [key, mem_cons, TransactionInput.key.injEq, forall_eq_or_imp, ← and_assoc]
        refine and_congr_left fun _ => ?_
        omega
  rw [ringSize, loop (fun _ _ => rfl) (fun _ _ => rfl)]
  simp only [Transaction.mem_keyInputs, Nat.sub_self, zero_le, true_and]

/-- The lower bound of every range is zero, so that the largest ring decides. -/
theorem mixin_passes_iff {height : Nat} : validateTransactionMixin tx height = .ok () ↔
      ∀ input ∈ tx.transaction.keyInputs, MixinAllowed height input := by
  have none_least : (getMixinAllowableRange height).1 = 0 := by
    unfold getMixinAllowableRange
    split <;> rfl
  simp only [validateTransactionMixin, require_eq_ok, Mixins.validate, none_least, zero_le,
    decide_true, Bool.and_true, decide_eq_true_eq, ringSize_le, MixinAllowed, true_and]

/-- The code agrees with the rule but for blocks in the window above the change of the rule: there
rings that were allowed before are refused. -/
theorem mixin_agrees_iff (context : ValidationContext) (tx : CachedTransaction) :
    (context.validateTransactionMixinTwice tx = .ok () ↔ context.MixinRule tx.transaction) ↔
      ¬ (context.isPoolTransaction = false ∧ mixinLimitsV1Height ≤ context.blockHeight ∧
        context.blockHeight < mixinLimitsV1Height + minedMoneyUnlockWindow ∧
        (∃ input ∈ tx.transaction.keyInputs, maximumMixinV1 < input.outputIndexes.length - 1) ∧
        ∀ input ∈ tx.transaction.keyInputs, input.outputIndexes.length - 1 < 2 ^ 64) := by
  rw [validateTransactionMixinTwice_eq, mixin_passes_iff, MixinRule, iff_self_or]
  have largest : ∀ height input, MixinAllowed height input ↔ input.outputIndexes.length - 1 ≤
      if mixinLimitsV1Height ≤ height then maximumMixinV1 else 2 ^ 64 - 1 := by
    intro height input
    unfold MixinAllowed getMixinAllowableRange
    split <;> simp [minimumMixinV1]
  simp only [largest]
  by_cases window : mixinLimitsV1Height ≤ context.blockHeight ∧
      context.blockHeight < mixinLimitsV1Height + minedMoneyUnlockWindow
  · obtain ⟨from_change, until_end⟩ := window
    have positive : 0 < mixinLimitsV1Height := by decide
    rw [if_pos from_change, if_neg (by omega)]
    constructor
    · rintro spared ⟨block, -, -, ⟨input, mem, large⟩, small⟩
      have fits := spared ⟨block, fun other mem => Nat.le_pred_of_lt (small other mem)⟩ input mem
      omega
    · rintro agrees ⟨block, small⟩ input mem
      by_contra large
      exact agrees ⟨block, from_change, until_end, ⟨input, mem, Nat.lt_of_not_le large⟩,
        fun other mem => Nat.lt_of_le_pred (by decide) (small other mem)⟩
  · refine iff_of_true ?_ fun inside => window ⟨inside.2.1, inside.2.2.1⟩
    rintro ⟨-, allowed⟩ input mem
    have before := allowed input mem
    split_ifs at before ⊢ with late early
    · exact before
    · omega
    · omega
    · exact before

/-- A ring of six in a block at the height of the change. -/
theorem mixin_no_grace : (⟨Sample.env, [], 0, 1470000, 100000, false⟩ : ValidationContext).MixinRule
        ⟨0, [.key ⟨100, [0, 1, 1, 1, 1, 1], 7⟩], [], 0, [6]⟩ ∧
      (⟨Sample.env, [], 0, 1470000, 100000, false⟩ : ValidationContext).validateTransactionMixinTwice
        ⟨⟨0, [.key ⟨100, [0, 1, 1, 1, 1, 1], 7⟩], [], 0, [6]⟩, 1, 100⟩ =
          .error (.error .invalidMixin) := by
  exact ⟨.inr ⟨rfl, forall_mem_singleton.2 ⟨by decide, by decide⟩⟩, by decide⟩

/-! ### Fusions -/

/-- What a transaction that is taken for a fusion is made of. -/
theorem fusion_ok {tx : Transaction} {size height : Nat}
    (keys : ∀ input ∈ tx.inputs, ∃ keyInput, input = .key keyInput)
    (fits : tx.sumOfInputs < 2 ^ 64) (fusion : isFusionTransaction tx size height = true) :
    12 ≤ tx.inputs.length ∧ tx.outputs.length * 4 ≤ tx.inputs.length ∧
      tx.outputs.map (·.amount) = (Digits.parts 10
        (if fusionFeeV1Height ≤ height ∧ height < fusionFeeV1ExitHeight then
          subUInt64 tx.sumOfInputs fusionFeeV1
        else tx.sumOfInputs)).insertionSort (· ≤ ·) := by
  have total : (tx.inputs.map (·.amount)).foldl (fun sum amount => uint64 (sum + amount)) 0 =
      tx.sumOfInputs := by
    have sum := foldl_uint64_add id (tx.inputs.map (·.amount)) 0
    rw [map_id, zero_add] at sum
    exact sum.trans (uint64_of_lt fits)
  have amounts {amount? : TransactionInput → Option Amount}
      (key : ∀ input, amount? (.key input) = some input.amount) :
      tx.inputs.filterMap amount? = tx.inputs.map (·.amount) := by
    rw [← filterMap_eq_map]
    refine filterMap_congr fun input mem => ?_
    obtain ⟨keyInput, rfl⟩ := keys input mem
    exact key keyInput
  simp only [isFusionTransaction] at fusion
  rw [amounts fun _ => rfl, total, length_map, length_map] at fusion
  split_ifs at fusion with large few many window
  all_goals
    rw [beq_iff_eq, decomposeAmount_eq_parts] at fusion
  · refine ⟨Nat.le_of_not_lt few, Nat.le_of_not_lt many, ?_⟩
    rw [if_pos window, fusion]
  · exact uint64_lt _
  · refine ⟨Nat.le_of_not_lt few, Nat.le_of_not_lt many, ?_⟩
    rw [if_neg window, fusion]
  · exact fits

/-- An accepted transaction below the minimum fee pays the fee of a fusion exactly, and its outputs
are the digits of the rest. -/
theorem fusion_of_cheap {state' : TransactionValidatorState} {fee : Nat}
    (passed : context.validate tx state = .ok (state', fee))
    (cheap : fee < getMinimumFee context.blockHeight) :
    fee = (if fusionFeeV1Height ≤ context.blockHeight ∧
        context.blockHeight < fusionFeeV1ExitHeight then fusionFeeV1 else 0) ∧
      tx.transaction.sumOfOutputs + fee = tx.transaction.sumOfInputs ∧
      tx.transaction.outputs.map (·.amount) =
        (Digits.parts 10 (tx.transaction.sumOfInputs - fee)).insertionSort (· ≤ ·) ∧
      12 ≤ tx.transaction.inputs.length ∧
      tx.transaction.outputs.length * 4 ≤ tx.transaction.inputs.length := by
  obtain ⟨inputs, sumOfOutputs, checks, -⟩ := checks_of_validate passed
  obtain ⟨-, -, sum, fits, keys⟩ := validateTransactionInputs_ok checks.inputsPass
  obtain ⟨le, fee_eq, minimum | fusion⟩ := validateTransactionFee_ok checks.feePasses
  · exact absurd minimum (Nat.not_le_of_lt cheap)
  rw [validateTransactionOutputs_ok checks.outputsPass, sum] at le fee_eq
  obtain ⟨many, ratio, outputs⟩ := fusion_ok keys fits fusion
  -- the outputs add up to what was split, so that it cannot have wrapped around
  have total := congrArg List.sum outputs
  rw [(perm_insertionSort _ _).sum_eq, Digits.sum_parts] at total
  change tx.transaction.sumOfOutputs = _ at total
  split_ifs at total outputs ⊢ with window
  · have covered : fusionFeeV1 ≤ tx.transaction.sumOfInputs := by
      by_contra short
      unfold subUInt64 uint64 at total
      rw [fusionFeeV1] at total short
      omega
    rw [subUInt64_of_le fits covered] at total outputs
    have exact_fee : fee = fusionFeeV1 := by omega
    exact ⟨exact_fee, by omega, exact_fee ▸ outputs, many, ratio⟩
  · have exact_fee : fee = 0 := by omega
    exact ⟨exact_fee, by omega, by rw [exact_fee]; exact outputs, many, ratio⟩

/-- Twelve inputs of ten in one transaction, below a checkpoint. -/
theorem fusion_of_cheap_twelve : ([20, 100] : List Amount) =
    (Digits.parts 10 (120 - 0)).insertionSort (· ≤ ·) := by
  have passed : (⟨⟨Sample.crypto, ⟨[(100, 0)]⟩⟩, [], 0, 5, 100000, false⟩ : ValidationContext).validate
      ⟨⟨0, (range 12).map fun i => .key ⟨10, [i], i⟩, [⟨20, 5⟩, ⟨100, 6⟩], 0, []⟩, 300, 1000⟩
      ⟨[]⟩ = .ok (⟨range 12⟩, 0) := by
    decide +kernel
  exact (fusion_of_cheap passed (by decide)).2.2.1

end ValidationContext

end DeroGold
