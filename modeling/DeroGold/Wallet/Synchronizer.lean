import DeroGold.Lib.Checked
import DeroGold.Wallet.SubWallets

/-!
How the wallet takes a block in.

The outputs of a block that belong to the wallet are found from the keys, and filled with
the indexes that the daemon answers. Then `completeBlockProcessing` removes what a fork
made void, prunes old outputs (`prepare`), and makes one call to the container after another:
for the transactions to add, for the outputs to store, for the key images to mark as spent. The
calls are listed before they are made (`scanCalls`), since other threads may come between them.
-/

namespace DeroGold.Wallet

open List Option Checked

/-- Keys, the configuration, and what stands in an optional coinbase that has no value:
the source reads it without a check. -/
structure WalletEnv where
  crypto : WalletCrypto
  skipCoinbaseTransactions : Bool
  uninitialised : RawCoinbaseTransaction

/-- `PRUNE_SPENT_INPUTS_INTERVAL`, the blocks of two days. -/
def pruneSpentInputsInterval : Nat := 24 * 60 * 60 / Parameters.difficultyTargetV3 * 2

/-- Outputs found in a block, each with the key of the subwallet it belongs to. -/
abbrev BlockInputsAndOwners := List (PublicKey × TransactionInput)

section Scan

variable (env : WalletEnv) (c : SubWallets) (block : WalletBlockInfo)
  (inputs : BlockInputsAndOwners)

/-- One output of a transaction, if it belongs to the wallet. -/
def processOutput (rawTX : RawCoinbaseTransaction) (blockHeight : Nat)
    (derivation : KeyDerivation) (output : KeyOutput) (outputIndex : Nat) :
    Except WalletException BlockInputsAndOwners :=
  let derivedSpendKey := env.crypto.underivePublicKey derivation outputIndex output.key
  if derivedSpendKey ∈ c.publicSpendKeys then do
    let keyImage ← c.getTxInputKeyImage env.crypto derivedSpendKey derivation outputIndex
    .ok [(derivedSpendKey,
      { keyImage := keyImage
        amount := output.amount
        blockHeight := blockHeight
        transactionPublicKey := rawTX.transactionPublicKey
        transactionIndex := outputIndex
        globalOutputIndex := output.globalOutputIndex
        key := output.key
        spendHeight := 0
        unlockTime := rawTX.unlockTime
        parentTransactionHash := rawTX.hash })]
  else .ok []

def processTransactionOutputs (rawTX : RawCoinbaseTransaction) (blockHeight : Nat) :
    Except WalletException BlockInputsAndOwners := do
  let derivation := env.crypto.generateKeyDerivation rawTX.transactionPublicKey c.privateViewKey
  let found ← rawTX.keyOutputs.zipIdx.mapM fun output =>
    processOutput env c rawTX blockHeight derivation output.1 output.2
  .ok found.flatten

/-- The transactions whose outputs are looked at. -/
def scannedTransactions : List RawCoinbaseTransaction :=
  (if env.skipCoinbaseTransactions then [] else block.coinbaseTransaction.toList) ++
    block.transactions.map (·.toRawCoinbaseTransaction)

def processBlockOutputs : Except WalletException BlockInputsAndOwners := do
  let found ← (scannedTransactions env block).mapM fun tx =>
    processTransactionOutputs env c tx block.blockHeight
  .ok found.flatten

/-- Fill in the indexes that the daemon answers. While it has no answer for an output, the
thread waits: `none`. -/
def fillGlobalIndexes (isViewWallet : Bool) (indexOf : Hash → Nat → Option Nat)
    (inputs : BlockInputsAndOwners) : Option BlockInputsAndOwners :=
  inputs.mapM fun (publicKey, input) =>
    if isViewWallet || input.globalOutputIndex.isSome then some (publicKey, input)
    else (indexOf input.parentTransactionHash input.transactionIndex).map fun index =>
      (publicKey, { input with globalOutputIndex := some index })

/-- What the outputs of one transaction bring to each subwallet. -/
def receivedTransfers (hash : Hash) : List (PublicKey × Int) :=
  (inputs.filter fun owned => decide (owned.2.parentTransactionHash = hash)).foldl
    (fun transfers owned => addTransfer transfers owned.1 owned.2.amount) []

def processCoinbaseTransaction : Option Transaction :=
  let tx := block.coinbaseTransaction.getD env.uninitialised
  let transfers := receivedTransfers inputs tx.hash
  if transfers ≠ [] then some
    { transfers := transfers
      hash := tx.hash
      fee := 0
      timestamp := block.blockTimestamp
      blockHeight := block.blockHeight
      paymentID := ""
      unlockTime := tx.unlockTime
      isCoinbaseTransaction := true }
  else none

/-- Key images of the wallet that a transaction spends, with their owners. -/
def spentKeyImages (tx : RawTransaction) : List (PublicKey × KeyInput) :=
  tx.keyInputs.filterMap fun input => (c.getKeyImageOwner input.keyImage).map fun owner => (owner, input)

def processTransaction (tx : RawTransaction) : Option Transaction × List (PublicKey × KeyImage) :=
  let spent := spentKeyImages c tx
  let transfers := spent.foldl (fun transfers (owner, input) =>
    addTransfer transfers owner (-(input.amount : Int))) (receivedTransfers inputs tx.hash)
  if transfers ≠ [] then
    let added := tx.keyInputs.foldl (fun fee input => uint64 (fee + input.amount)) 0
    let fee := tx.keyOutputs.foldl (fun fee output => subUInt64 fee output.amount) added
    (some
      { transfers := transfers
        hash := tx.hash
        fee := fee
        timestamp := block.blockTimestamp
        blockHeight := block.blockHeight
        paymentID := tx.paymentID
        unlockTime := tx.unlockTime
        isCoinbaseTransaction := false },
      spent.map fun owned => (owned.1, owned.2.keyImage))
  else (none, [])

/-- What a block brings. -/
structure BlockScanTmpInfo where
  transactionsToAdd : List Transaction
  inputsToAdd : BlockInputsAndOwners
  keyImagesToMarkSpent : List (PublicKey × KeyImage)

def processBlockTransactions : BlockScanTmpInfo :=
  let coinbase := if env.skipCoinbaseTransactions then [] else
    (processCoinbaseTransaction env block inputs).toList
  let processed := block.transactions.map (processTransaction c block inputs)
  { transactionsToAdd := coinbase ++ processed.flatMap (·.1.toList)
    inputsToAdd := inputs
    keyImagesToMarkSpent := processed.flatMap (·.2) }

end Scan

variable {c : SubWallets} {block : WalletBlockInfo} {found : BlockInputsAndOwners}

/-- An output that is found stands in a transaction of the block and pays to a key that the
wallet looks for. -/
theorem found_spec {env : WalletEnv} (found_eq : processBlockOutputs env c block = .ok found)
    {owned : PublicKey × TransactionInput} (mem : owned ∈ found) :
    owned.1 ∈ c.publicSpendKeys ∧
      ∃ tx ∈ scannedTransactions env block, owned.2.parentTransactionHash = tx.hash := by
  obtain ⟨perTransaction, scanned, flat⟩ := of_bind.1 found_eq
  cases flat
  obtain ⟨inputs, inputs_mem, owned_mem⟩ := mem_flatten.1 mem
  obtain ⟨tx, tx_mem, tx_eq⟩ := exists_of_mem_mapM_ok scanned inputs_mem
  obtain ⟨perOutput, outputs, flat⟩ := of_bind.1 tx_eq
  cases flat
  obtain ⟨inputs, inputs_mem, owned_mem⟩ := mem_flatten.1 owned_mem
  obtain ⟨output, -, output_eq⟩ := exists_of_mem_mapM_ok outputs inputs_mem
  unfold processOutput at output_eq
  dsimp only at output_eq
  split at output_eq
  · rename_i ours
    obtain ⟨keyImage, -, single⟩ := of_bind.1 output_eq
    cases single
    cases mem_singleton.1 owned_mem
    exact ⟨ours, tx, tx_mem, rfl⟩
  · cases output_eq
    exact absurd owned_mem not_mem_nil

/-- Filling in the indexes leaves everything else as it is. -/
theorem map_fillGlobalIndexes {γ : Type} {g : PublicKey × TransactionInput → γ}
    (ignores : ∀ publicKey input index,
      g (publicKey, { input with globalOutputIndex := index }) = g (publicKey, input))
    {isViewWallet : Bool} {indexOf : Hash → Nat → Option Nat} {ourInputs : BlockInputsAndOwners}
    (filled : fillGlobalIndexes isViewWallet indexOf found = some ourInputs) :
    ourInputs.map g = found.map g := by
  induction found generalizing ourInputs with
  | nil =>
    cases filled
    rfl
  | cons owned found ih =>
    simp only [fillGlobalIndexes, mapM_cons, bind_eq_bind, bind_eq_some_iff] at filled
    obtain ⟨first, first_eq, rest, rest_eq, done⟩ := filled
    cases done
    rw [map_cons, map_cons, ih rest_eq]
    split at first_eq
    · cases first_eq
      rfl
    · obtain ⟨index, -, rfl⟩ := map_eq_some_iff.1 first_eq
      rw [ignores]

/-- A key image is marked as spent in the subwallet that the index names. -/
theorem exists_owner_of_spent {inputs : BlockInputsAndOwners} {tx : RawTransaction}
    {spent : PublicKey × KeyImage} (mem : spent ∈ (processTransaction c block inputs tx).2) :
    ∃ entry ∈ c.keyImageOwners, entry = (spent.2, spent.1) := by
  unfold processTransaction at mem
  dsimp only at mem
  split at mem
  · obtain ⟨⟨owner, input⟩, owned, rfl⟩ := mem_map.1 mem
    obtain ⟨keyInput, -, owner_eq⟩ := mem_filterMap.1 owned
    obtain ⟨_, found, same⟩ := map_eq_some_iff.1 owner_eq
    obtain ⟨entry, lookup, rfl⟩ := map_eq_some_iff.1 found
    cases same
    exact ⟨entry, Keyed.mem_of_lookup lookup, Prod.ext (Keyed.key_of_lookup lookup) rfl⟩
  · exact absurd mem not_mem_nil

/-! ### Calls to the container -/

/-- The calls that two threads make to the container: the one that takes blocks in, and
the one that sends transactions. -/
inductive Call where
  | addTransaction (tx : Transaction)
  | storeTransactionInput (publicSpendKey : PublicKey) (input : TransactionInput)
  | markInputAsSpent (keyImage : KeyImage) (publicKey : PublicKey) (spendHeight : Nat)
  | addUnconfirmedTransaction (tx : Transaction)
  | storeUnconfirmedIncomingInput (input : UnconfirmedInput) (publicSpendKey : PublicKey)
  | storeTxPrivateKey (txPrivateKey : SecretKey) (txHash : Hash)
  | markInputAsLocked (keyImage : KeyImage) (publicKey : PublicKey)
  deriving DecidableEq

def Call.perform (c : SubWallets) : Call → Except WalletException SubWallets
  | .addTransaction tx => .ok (c.addTransaction tx)
  | .storeTransactionInput publicSpendKey input => c.storeTransactionInput publicSpendKey input
  | .markInputAsSpent keyImage publicKey spendHeight =>
    c.markInputAsSpent keyImage publicKey spendHeight
  | .addUnconfirmedTransaction tx => .ok (c.addUnconfirmedTransaction tx)
  | .storeUnconfirmedIncomingInput input publicSpendKey =>
    .ok (c.storeUnconfirmedIncomingInput input publicSpendKey)
  | .storeTxPrivateKey txPrivateKey txHash => .ok (c.storeTxPrivateKey txPrivateKey txHash)
  | .markInputAsLocked keyImage publicKey => c.markInputAsLocked keyImage publicKey

/-- What a block at this height makes void: what a fork replaced, and outputs that were
spent long ago. -/
def prepare (walletHeight blockHeight : Nat) (c : SubWallets) : SubWallets :=
  let c := if blockHeight ≤ walletHeight ∧ blockHeight ≠ 0 then c.removeForkedTransactions blockHeight
    else c
  if blockHeight % pruneSpentInputsInterval = 0 ∧ pruneSpentInputsInterval < blockHeight then
    c.pruneSpentInputs (blockHeight - pruneSpentInputsInterval)
  else c

/-- The calls for a block, in order. -/
def scanCalls (env : WalletEnv) (c : SubWallets) (block : WalletBlockInfo)
    (ourInputs : BlockInputsAndOwners) : List Call :=
  let scan := processBlockTransactions env c block ourInputs
  scan.transactionsToAdd.map Call.addTransaction ++
    (scan.inputsToAdd.map fun owned => Call.storeTransactionInput owned.1 owned.2) ++
    scan.keyImagesToMarkSpent.map fun spent => Call.markInputAsSpent spent.2 spent.1 block.blockHeight

end DeroGold.Wallet
