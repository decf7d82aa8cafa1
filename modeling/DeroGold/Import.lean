import DeroGold.Supply

/-!
Fast import: `Core::importRawBlock` pushes a block on the main leaf without validating
it, from sizes, fees, key images and an emission change that it works out by itself.
For a block that `addBlock` accepts on the main leaf the two agree.

The import starts above the genesis block, so the height is at least one.
-/

namespace DeroGold

open Checked List Sample

/-! ### The spent key images -/

/-- The key images are a set in the source; here each is kept once, in the order in
which it came. -/
def TransactionValidatorState.insert (state : TransactionValidatorState) (keyImage : KeyImage) :
    TransactionValidatorState :=
  if keyImage ∈ state.spentKeyImages then state else ⟨state.spentKeyImages ++ [keyImage]⟩

def mergeStates (destination source : TransactionValidatorState) : TransactionValidatorState :=
  source.spentKeyImages.foldl .insert destination

/-- Key images of one transaction; other kinds of input are passed over. -/
def extractTransactionSpentOutputs (tx : CachedTransaction) : TransactionValidatorState :=
  tx.transaction.inputs.foldl (fun state input => match input with
    | .key input => state.insert input.keyImage
    | .base _ => state) ⟨[]⟩

def extractSpentOutputs (transactions : List CachedTransaction) : TransactionValidatorState :=
  transactions.foldl (fun state tx => mergeStates state (extractTransactionSpentOutputs tx)) ⟨[]⟩

/-- Inserting new and distinct key images appends them. -/
theorem foldl_insert_of_nodup {keyImages : List KeyImage} {state : TransactionValidatorState}
    (nodup : (state.spentKeyImages ++ keyImages).Nodup) :
    keyImages.foldl .insert state = ⟨state.spentKeyImages ++ keyImages⟩ := by
  induction keyImages generalizing state with
  | nil =>
    rw [foldl_nil, append_nil]
  | cons keyImage keyImages ih =>
    have fresh : keyImage ∉ state.spentKeyImages := fun mem =>
      disjoint_of_nodup_append nodup mem mem_cons_self
    have inserted : state.insert keyImage = ⟨state.spentKeyImages ++ [keyImage]⟩ := if_neg fresh
    rw [foldl_cons, inserted, ih (by simpa using nodup)]
    simp

variable {tx : CachedTransaction} {raw : RawBlock}

theorem extractTransactionSpentOutputs_eq (nodup : tx.transaction.keyImages.Nodup) :
    extractTransactionSpentOutputs tx = ⟨tx.transaction.keyImages⟩ := by
  refine .trans ?_ (@foldl_insert_of_nodup tx.transaction.keyImages ⟨[]⟩ nodup)
  rw [Transaction.keyImages, foldl_filterMap, extractTransactionSpentOutputs]
  congr 1
  funext state input
  cases input <;> rfl

theorem extractSpentOutputs_eq {txs : List CachedTransaction}
    (nodup : (txs.flatMap fun tx => tx.transaction.keyImages).Nodup) :
    extractSpentOutputs txs = ⟨txs.flatMap fun tx => tx.transaction.keyImages⟩ := by
  refine .trans ?_ (@foldl_insert_of_nodup (txs.flatMap _) ⟨[]⟩ nodup)
  rw [foldl_flatMap]
  refine foldl_ext _ _ _ fun state tx mem => ?_
  rw [extractTransactionSpentOutputs_eq ((nodup_flatMap.1 nodup).1 tx mem)]
  rfl

/-! ### The fees -/

/-- A sum over key inputs does not stop. -/
theorem foldl_keyInputs {f : Option Nat → TransactionInput → Option Nat}
    (step : ∀ sum keyInput, f (some sum) (.key keyInput) = some (uint64 (sum + keyInput.amount)))
    {inputs : List TransactionInput} (keys : ∀ input ∈ inputs, ∃ keyInput, input = .key keyInput)
    (start : Nat) : inputs.foldl f (some start) =
      some (inputs.foldl (fun sum input => uint64 (sum + input.amount)) start) := by
  induction inputs generalizing start with
  | nil => rfl
  | cons input inputs ih =>
    obtain ⟨keyInput, rfl⟩ := keys _ mem_cons_self
    rw [foldl_cons, step]
    exact ih (forall_mem_cons.1 keys).2 _

/-- The fee worked out from the parsed transaction is the validated one. -/
theorem getTransactionFee_eq
    (keys : ∀ input ∈ tx.transaction.inputs, ∃ keyInput, input = .key keyInput)
    (inputs_lt : tx.transaction.sumOfInputs < 2 ^ 64)
    (le : tx.transaction.sumOfOutputs ≤ tx.transaction.sumOfInputs) :
    tx.getTransactionFee = tx.fee := by
  have inputs_eq := foldl_uint64_add TransactionInput.amount tx.transaction.inputs 0
  have outputs_eq := foldl_uint64_add TransactionOutput.amount tx.transaction.outputs 0
  rw [zero_add] at inputs_eq outputs_eq
  have inputs_word : uint64 (tx.transaction.inputs.map (·.amount)).sum =
      tx.transaction.sumOfInputs := uint64_of_lt inputs_lt
  have outputs_word : uint64 (tx.transaction.outputs.map (·.amount)).sum =
      tx.transaction.sumOfOutputs := uint64_of_lt (lt_of_le_of_lt le inputs_lt)
  calc tx.getTransactionFee
      = subUInt64 (tx.transaction.inputs.foldl (fun sum input => uint64 (sum + input.amount)) 0)
          (tx.transaction.outputs.foldl (fun sum output => uint64 (sum + output.amount)) 0) := by
        unfold CachedTransaction.getTransactionFee
        rw [foldl_keyInputs (fun _ _ => rfl) keys]
    _ = subUInt64 tx.transaction.sumOfInputs tx.transaction.sumOfOutputs :=
        congrArg₂ subUInt64 (inputs_eq.trans inputs_word) (outputs_eq.trans outputs_word)
    _ = tx.fee := subUInt64_of_le inputs_lt le

/-- Every transaction of a block that passes has the fee that the import works out. -/
theorem getTransactionFee_of_validateBlockTransactions {context : ValidationContext}
    {state : TransactionValidatorState} {fee : Nat}
    (passed : validateBlockTransactions context raw.cachedTransactions = .ok (state, fee)) :
    ∀ tx ∈ raw.cachedTransactions, tx.getTransactionFee = tx.fee := by
  obtain ⟨-, -, each⟩ := validateBlockTransactions_ok passed
  intro tx mem
  obtain ⟨le, -, keys⟩ := each tx mem
  refine getTransactionFee_eq keys ?_ le
  -- the bound on the sum of the inputs is read off the round that validated them
  obtain ⟨before, after, valid⟩ := validate_of_validateBlockTransactions passed mem
  obtain ⟨inputs, sumOfOutputs, checks, -⟩ := checks_of_validate valid
  exact (validateTransactionInputs_ok checks.inputsPass).2.2.2.1

/-! ### The import -/

/-- How an import ends without success: with a message, or with an exception. -/
inductive ImportFailure where
  | invalid (message : String)
  | threw
  deriving DecidableEq

def ImportFailure.previousHashMismatch (height : Nat) : ImportFailure :=
  .invalid <| "Blockchain import file is invalid, previous block hash of rawBlock at height " ++
    s!"{height} does not match calculated block hash for rawBlock at height {height - 1}"

def ImportFailure.unparsedTransactions (height : Nat) : ImportFailure :=
  .invalid s!"Blockchain import file is invalid, cannot parse rawBlock transactions at height {height}"

/-- The emission change of a block above `previousBlockIndex`. -/
def getEmissionChange (lineage : Lineage) (previousBlockIndex : Nat) (block : CachedBlock)
    (cumulativeSize cumulativeFee : Nat) : Except ImportFailure Int :=
  let sizes := lineage.getLastBlocksSizes Parameters.rewardBlocksWindow previousBlockIndex true
  match getBlockReward block.majorVersion (medianValue sizes) cumulativeSize
    (lineage.getAlreadyGeneratedCoins previousBlockIndex) cumulativeFee
    (previousBlockIndex + 1) with
  | some reward => .ok reward.emissionChange
  | none => .error .threw

/-- What `importRawBlock` hands to `pushBlock`. -/
def importedBlock (lineage : Lineage) (raw : RawBlock) (previousBlockHash : Hash) (height : Nat) :
    Except ImportFailure PushedBlockInfo := do
  require (raw.block.previousBlockHash = previousBlockHash ∨ height = 0)
    (.previousHashMismatch height)
  let transactions ← match extractTransactions raw.transactions with
    | .ok transactions => .ok transactions
    | .error _ => .error (.unparsedTransactions height)
  let spentOutputs := extractSpentOutputs transactions
  let currentDifficulty ← match lineage.getDifficultyForNextBlock (height - 1) with
    | some difficulty => .ok difficulty
    | none => .error .threw
  let cumulativeFee := transactions.foldl (fun sum tx => uint64 (sum + tx.getTransactionFee)) 0
  let emissionChange ← getEmissionChange lineage (height - 1) raw.block raw.cumulativeBlockSize
    cumulativeFee
  .ok {
    rawBlock := raw
    spentKeyImages := spentOutputs.spentKeyImages
    blockSize := raw.cumulativeBlockSize
    generatedCoins := uint64OfInt emissionChange
    blockDifficulty := currentDifficulty }

/-- The branch checks of `addBlock` leave the import nothing else to push. -/
theorem importedBlock_of_branchChecks {env : Env} {now : Nat} {lineage : Lineage}
    {median previous difficulty cumulativeFee : Nat}
    {validatorState : TransactionValidatorState} {reward : BlockReward}
    (checks : BranchChecks env now lineage median previous raw difficulty
      cumulativeFee validatorState reward) :
    importedBlock lineage raw raw.block.previousBlockHash (previous + 1) =
      .ok (BranchChecks.pushed raw difficulty validatorState reward) := by
  obtain ⟨images, nodup, -⟩ := validateBlockTransactions_ok checks.transactions
  have spent : (extractSpentOutputs raw.cachedTransactions).spentKeyImages =
      validatorState.spentKeyImages := by
    rw [extractSpentOutputs_eq nodup, images]
    rfl
  have fees : raw.cachedTransactions.foldl
      (fun sum tx => uint64 (sum + tx.getTransactionFee)) 0 = cumulativeFee := by
    have total := foldl_uint64_add CachedTransaction.getTransactionFee raw.cachedTransactions 0
    rw [zero_add, map_congr_left
      (getTransactionFee_of_validateBlockTransactions checks.transactions)] at total
    rw [fee_validateBlockTransactions checks.transactions]
    exact total
  have difficulty_eq : lineage.getDifficultyForNextBlock previous = some difficulty := by
    have found := checks.nextDifficulty
    unfold difficultyForNextBlock at found
    split at found
    · rename_i value found_eq
      cases found
      exact found_eq
    · cases found
  have emission : getEmissionChange lineage previous raw.block raw.cumulativeBlockSize
      cumulativeFee = .ok reward.emissionChange := by
    have rewarded := checks.rewarded
    unfold blockReward at rewarded
    rw [validateBlock_index checks.block] at rewarded
    unfold getEmissionChange
    dsimp only at rewarded ⊢
    generalize getBlockReward .. = found at rewarded ⊢
    cases found with
    | none => cases rewarded
    | some found => cases rewarded; rfl
  unfold importedBlock
  refine of_require_bind.2 ⟨.inl rfl, ?_⟩
  rw [checks.parsed, Nat.add_sub_cancel, difficulty_eq]
  refine of_bind.2 ⟨_, rfl, ?_⟩
  refine of_bind.2 ⟨_, rfl, ?_⟩
  rw [fees]
  refine of_bind.2 ⟨_, emission, ?_⟩
  rw [spent]
  rfl

namespace Core

/-- The block is pushed on the main leaf; pool and median size are left alone. -/
def importRawBlock (core : Core) (raw : RawBlock) (previousBlockHash : Hash) (height : Nat) :
    Except ImportFailure (Core × Hash) :=
  match importedBlock core.mainLineage raw previousBlockHash height with
  | .ok pushed => .ok (core.pushBlock core.mainLeaf pushed, raw.block.blockHash)
  | .error failure => .error failure

/-- The two cores hold the same chains: the same segments in the same tree, the same
leaves in the same order, the same main chain. -/
def SameChains (core core' : Core) : Prop :=
  core'.chainsStorage = core.chainsStorage ∧ core'.chainsLeaves = core.chainsLeaves ∧
    core'.mainChainSet = core.mainChainSet

/-- For every block that `addBlock` accepts on top of the main leaf the import, called
in the same state with the block's previous hash and the next height, pushes the same
and leaves the same chains behind. -/
theorem importRawBlock_of_addedToMain (env : Env) (order : HashOrder) (now : Nat) (core : Core)
    (raw : RawBlock) (added : (core.addBlock env order now raw).2 = .added .addedToMain) :
    ∃ pushed imported,
      core.checkBlock env now raw = .ok (core.mainLeaf, core.getTopBlockIndex, pushed) ∧
      importedBlock core.mainLineage raw raw.block.previousBlockHash
        (core.getTopBlockIndex + 1) = .ok pushed ∧
      core.importRawBlock raw raw.block.previousBlockHash (core.getTopBlockIndex + 1) =
        .ok (imported, raw.block.blockHash) ∧
      SameChains (core.addBlock env order now raw).1 imported := by
  rcases addBlock_cases env order now core raw with
    ⟨reason, failed, -⟩ | ⟨segment, previous, pushed, result, passed, result_eq, committed⟩
  · cases failed.symm.trans added
  cases result_eq.symm.trans added
  -- only the first branch of the commit reports the main chain
  generalize (core.addBlock env order now raw).1 = core' at committed
  cases committed with
  | extendMain top childless main =>
    subst main
    have top_eq : core.getTopBlockIndex = previous := top
    obtain ⟨-, -, cache, -, -, checked⟩ := checkBlock_ok passed
    obtain ⟨difficulty, cumulativeFee, validatorState, reward, checks, rfl⟩ :=
      checkOnBranch_ok checked
    have same := importedBlock_of_branchChecks checks
    change importedBlock core.mainLineage _ _ _ = _ at same
    rw [← top_eq] at same passed
    refine ⟨_, core.pushBlock core.mainLeaf (BranchChecks.pushed raw difficulty
      validatorState reward), passed,
      same, ?_, ?_⟩
    · rw [importRawBlock, same]
    · exact ⟨rfl, rfl, rfl⟩

/-- A first block that spends the genesis output with a fee of ten. -/
theorem importRawBlock_of_addedToMain_spend : ∃ imported,
      (load unlockedGenesis).importRawBlock (next 1 0 1 [spend] 10) 0 1 = .ok (imported, 1) ∧
      SameChains ((load unlockedGenesis).addBlock env .insertion 100000
        (next 1 0 1 [spend] 10)).1 imported := by
  have added : ((load unlockedGenesis).addBlock env .insertion 100000
      (next 1 0 1 [spend] 10)).2 = .added .addedToMain := by decide +kernel
  obtain ⟨-, imported, -, -, run, chains⟩ := importRawBlock_of_addedToMain env .insertion
    100000 (load unlockedGenesis) (next 1 0 1 [spend] 10) added
  exact ⟨imported, run, chains⟩

end Core

end DeroGold
