import DeroGold.ParseExtra
import DeroGold.Wallet.Selection

/-!
Sending (`walletbackend/Transfer.cpp`): rings around the inputs, outputs for the digits of the
amounts, the extra field, and the checks before a transaction is relayed.

What the wallet does not decide itself is a parameter: the daemon's answers, random numbers,
the nonce of the proof of work, whether signatures come out right, and the order in which
`std::sort` leaves elements that compare equal. Of the errors about rings and sizes only the
codes are kept; their texts print amounts and sizes.
-/

namespace DeroGold.Wallet

open Parameters List

open Checked (of_bind of_require_bind)

structure RandomOutput where
  globalAmountIndex : Nat
  outKey : PublicKey
  deriving DecidableEq

/-- Outputs of an amount, from the daemon. -/
structure RandomOuts where
  amount : Amount
  outs : List RandomOutput
  deriving DecidableEq

structure GlobalIndexKey where
  index : Nat
  key : PublicKey
  deriving DecidableEq

/-- An input hidden among others. -/
structure ObscuredInput where
  realTransactionPublicKey : PublicKey
  realOutputTransactionIndex : Nat
  amount : Amount
  ownerPublicSpendKey : PublicKey
  ownerPrivateSpendKey : SecretKey
  outputs : List GlobalIndexKey
  /-- Position of the real output among them. -/
  realOutput : Nat
  deriving DecidableEq

structure TransactionDestination where
  receiverPublicSpendKey : PublicKey
  receiverPublicViewKey : PublicKey
  amount : Amount
  deriving DecidableEq

/-- A transaction that is being made, with the bytes of its extra field. -/
structure BuiltTransaction where
  transaction : DeroGold.Transaction
  extra : Bytes
  deriving DecidableEq

structure TransactionResult where
  transaction : BuiltTransaction
  outputs : List KeyOutput
  txPublicKey : PublicKey
  txSecretKey : SecretKey
  deriving DecidableEq

/-- What one call of `makeTransaction` meets. -/
structure Attempt where
  /-- The daemon's answer, and whether there was one. -/
  getRandomOutsByAmounts : List Amount → Nat → Bool × List RandomOuts
  /-- The random key of the transaction. -/
  txSecretKey : SecretKey
  /-- What is in the variable of the payment id before it is written. -/
  uninitialised : Pod 32
  /-- The nonce the proof of work ends with. -/
  powNonce : Pod 8
  /-- Whether the signatures of an input can be made and pass their own check. -/
  signs : Nat → Bool

/-- A sort by amount; elements of equal amounts come in any order. -/
structure AmountSort (α : Type) (amount : α → Amount) where
  sort : List α → List α
  perm : ∀ xs, (sort xs).Perm xs
  sorted : ∀ xs, (sort xs).Pairwise fun a b => amount a ≤ amount b

/-- What stays the same during a send. -/
structure SendEnv where
  crypto : WalletCrypto
  addresses : AddressCrypto
  sortInputs : AmountSort TxInputAndOwner TxInputAndOwner.amount
  sortDestinations : AmountSort TransactionDestination TransactionDestination.amount
  /-- Size of a transaction in bytes. -/
  binarySize : BuiltTransaction → Nat
  transactionHash : BuiltTransaction → Hash
  /-- Text of an address that the wallet keeps. -/
  addressText : Address → Bytes

def fails {α : Type} (code : ErrorCode) : Outcome α := .error (.error ⟨code, ""⟩)

/-! ### Rings -/

/-- The outputs are sorted in a copy, so that the result keeps the daemon's order. -/
def getRingParticipants (attempt : Attempt) (mixin : Nat) (sources : List TxInputAndOwner) :
    Outcome (List RandomOuts) :=
  if mixin = 0 then .ok []
  else do
    let amounts := sources.map fun source => source.input.amount
    let (success, fakeOuts) := attempt.getRandomOutsByAmounts amounts (uint64 (mixin + 1))
    check (success = true) .daemonOffline
    amounts.forM fun amount =>
      match fakeOuts.find? fun outs => decide (outs.amount = amount) with
      | none => fails .notEnoughFakeOutputs
      | some found => check (mixin ≤ found.outs.length) .notEnoughFakeOutputs
    check (fakeOuts.length = amounts.length) .notEnoughFakeOutputs
    fakeOuts.forM fun fakeOut => check (mixin ≤ fakeOut.outs.length) .notEnoughFakeOutputs
    return fakeOuts

/-- Outputs of others up to the mixin; the real one is left out. -/
def takeFakes (mixin : Nat) (real : Option Nat) : List GlobalIndexKey → List RandomOutput →
    List GlobalIndexKey
  | outputs, [] => outputs
  | outputs, fakeOut :: fakeOuts =>
    if real = some fakeOut.globalAmountIndex then takeFakes mixin real outputs fakeOuts
    else
      let outputs := outputs ++ [⟨fakeOut.globalAmountIndex, fakeOut.outKey⟩]
      if mixin ≤ outputs.length then outputs else takeFakes mixin real outputs fakeOuts

/-- One input among its fakes. An output whose global index is not known is read all the same. -/
def obscureInput (mixin : Nat) (fakeOuts : List RandomOutput) (source : TxInputAndOwner) :
    Outcome ObscuredInput := do
  let outputs := if mixin ≠ 0 then takeFakes mixin source.input.globalOutputIndex [] fakeOuts else []
  check (mixin ≤ outputs.length) .notEnoughFakeOutputs
  match source.input.globalOutputIndex with
  | none => .error (.exception .undefined)
  | some globalOutputIndex =>
    let realOutput := outputs.findIdx fun output => decide (globalOutputIndex ≤ output.index)
    return {
      realTransactionPublicKey := source.input.transactionPublicKey
      realOutputTransactionIndex := source.input.transactionIndex
      amount := source.input.amount
      ownerPublicSpendKey := source.publicSpendKey
      ownerPrivateSpendKey := source.privateSpendKey
      outputs := outputs.insertIdx realOutput ⟨globalOutputIndex, source.input.key⟩
      realOutput }

def prepareRingParticipants (env : SendEnv) (attempt : Attempt) (sources : List TxInputAndOwner)
    (mixin : Nat) : Outcome (List ObscuredInput) := do
  let sources := env.sortInputs.sort sources
  let fakeOuts ← getRingParticipants attempt mixin sources
  sources.zipIdx.mapM fun (source, i) => obscureInput mixin ((fakeOuts[i]?.map (·.outs)).getD []) source

/-- The key pair an input was sent to, and its key image. -/
def genKeyImage (crypto : WalletCrypto) (input : ObscuredInput) (privateViewKey : SecretKey) :
    PublicKey × KeyImage :=
  let derivation := crypto.generateKeyDerivation input.realTransactionPublicKey privateViewKey
  let publicKey := crypto.derivePublicKey derivation input.realOutputTransactionIndex
    input.ownerPublicSpendKey
  let secretKey := crypto.deriveSecretKey derivation input.realOutputTransactionIndex
    input.ownerPrivateSpendKey
  (publicKey, crypto.generateKeyImage publicKey secretKey)

/-- Differences of neighbours in 32 bits; the first index stays. -/
def relativeIndexes : List Nat → List Nat
  | [] => []
  | first :: indexes =>
    first :: (zipWith (fun index before => uint32 (index + 2 ^ 32 - before)) indexes (first :: indexes))

def setupInput (crypto : WalletCrypto) (privateViewKey : SecretKey) (input : ObscuredInput) :
    Outcome KeyInput := do
  let (publicKey, keyImage) := genKeyImage crypto input privateViewKey
  check (some publicKey = (input.outputs[input.realOutput]?).map (·.key)) .invalidGeneratedKeyimage
  return {
    amount := input.amount
    outputIndexes := relativeIndexes (input.outputs.map fun output => uint32 output.index)
    keyImage }

def setupInputs (crypto : WalletCrypto) (inputsAndFakes : List ObscuredInput)
    (privateViewKey : SecretKey) : Outcome (List KeyInput) :=
  inputsAndFakes.mapM (setupInput crypto privateViewKey)

/-! ### Outputs -/

/-- The digits of an amount at their places, smallest first. A 64-bit amount has at most twenty
digits; the first argument bounds their number. -/
def splitFrom : Nat → Nat → Nat → List Amount
  | 0, _, _ => []
  | digits + 1, amount, multiplier =>
    if amount = 0 then []
    else
      let denomination := uint64 (multiplier * (amount % 10))
      let rest := splitFrom digits (amount / 10) (uint64 (multiplier * 10))
      if denomination ≠ 0 then denomination :: rest else rest

def splitAmountIntoDenominations (amount : Amount) : List Amount := splitFrom 20 amount 1

/-- An amount for a receiver, split. -/
def splitFor (receiver : PublicKey × PublicKey) (amount : Amount) : List TransactionDestination :=
  (splitAmountIntoDenominations amount).map fun denomination =>
    ⟨receiver.1, receiver.2, denomination⟩

/-- An amount for an address, split. -/
def destinationsFor (addresses : AddressCrypto) (addressAndAmount : Bytes × Amount) :
    Outcome (List TransactionDestination) := do
  let receiver ← uncaught (addressToKeys addresses addressAndAmount.1)
  return splitFor receiver addressAndAmount.2

/-- The change goes last, when there is any. -/
def setupDestinations (addresses : AddressCrypto) (addressesAndAmounts : List (Bytes × Amount))
    (changeRequired : Amount) (changeAddress : Bytes) : Outcome (List TransactionDestination) := do
  let addressesAndAmounts :=
    if changeRequired ≠ 0 then addressesAndAmounts ++ [(changeAddress, changeRequired)]
    else addressesAndAmounts
  let destinations ← addressesAndAmounts.mapM (destinationsFor addresses)
  return destinations.flatten

/-- The output at a position, to which only its receiver has the key. -/
def setupOutput (crypto : WalletCrypto) (txSecretKey : SecretKey)
    (destination : TransactionDestination) (outputIndex : Nat) : KeyOutput :=
  let derivation := crypto.generateKeyDerivation destination.receiverPublicViewKey txSecretKey
  { key := crypto.derivePublicKey derivation outputIndex destination.receiverPublicSpendKey
    amount := destination.amount
    globalOutputIndex := none }

def setupOutputs (env : SendEnv) (txSecretKey : SecretKey) (destinations : List TransactionDestination) :
    List KeyOutput :=
  (env.sortDestinations.sort destinations).zipIdx.map fun (destination, outputIndex) =>
    setupOutput env.crypto txSecretKey destination outputIndex

/-- A digit followed by zeros, up to `2 ^ 64`. -/
def prettyAmounts : List Amount :=
  ((range 19).flatMap fun zeros => (range 9).map fun digit => (digit + 1) * 10 ^ zeros) ++ [10 ^ 19]

def verifyAmounts (tx : DeroGold.Transaction) : Bool :=
  tx.outputs.all fun output => decide (output.amount ∈ prettyAmounts)

def keyInputAmount : DeroGold.TransactionInput → Option Amount
  | .base _ => none
  | .key input => some input.amount

/-- The difference of the sums, in 64 bits. -/
def verifyTransactionFee (expectedFee : Nat) (tx : DeroGold.Transaction) : Bool :=
  let inputTotal := (tx.inputs.filterMap keyInputAmount).foldl (fun sum amount => uint64 (sum + amount)) 0
  let outputTotal := tx.outputs.foldl (fun sum output => uint64 (sum + output.amount)) 0
  decide (expectedFee = subUInt64 inputTotal outputTotal)

/-! ### The transaction -/

/-- The payment id as bytes. Digits that could not be read leave the variable as it was, and the
failure is not looked at. -/
def paymentIDBin (uninitialised : Pod 32) (paymentID : Bytes) : Option (Pod 32) :=
  if paymentID = [] then none else some (podFromHex paymentID uninitialised).1

def keyBytes (key : PublicKey) : Pod 32 :=
  ⟨ByteOrder.littleEndian 32 key, ByteOrder.length_littleEndian 32 key⟩

def makeTransaction (env : SendEnv) (attempt : Attempt) (mixin : Nat)
    (ourInputs : List TxInputAndOwner) (paymentID : Bytes)
    (destinations : List TransactionDestination) (subWallets : SubWallets) (unlockTime : Nat)
    (extraData : Bytes) : Outcome TransactionResult := do
  let inputsAndFakes ← prepareRingParticipants env attempt ourInputs mixin
  let inputs ← setupInputs env.crypto inputsAndFakes subWallets.privateViewKey
  let outputs := setupOutputs env attempt.txSecretKey destinations
  let txPublicKey := env.crypto.secretKeyToPublicKey attempt.txSecretKey
  let extra := Extra.makeExtra (paymentIDBin attempt.uninitialised paymentID) extraData
    (keyBytes txPublicKey) attempt.powNonce
  check ((range inputs.length).all attempt.signs = true) .failedToCreateRingSignature
  return {
    transaction := {
      transaction := {
        unlockTime
        inputs := inputs.map .key
        outputs := outputs.map fun output => ⟨output.amount, output.key⟩
        extraSize := extra.length
        signatures := inputsAndFakes.map fun input => input.outputs.length }
      extra }
    outputs
    txPublicKey
    txSecretKey := attempt.txSecretKey }

/-! ### Sending -/

def getMaxTxSize (currentHeight : Nat) : Nat :=
  let growth := uint64 (currentHeight * maxBlockSizeGrowthSpeedNumerator) /
    maxBlockSizeGrowthSpeedDenominator
  min (uint64 (maxBlockSizeInitial + growth)) 125000 - minerTxBlobReservedSize

/-- The daemon's answer to a transaction. -/
inductive RelayAnswer where
  | success
  | connectionError
  | refused
  deriving DecidableEq

/-- What one send meets. The network's block count and the time are asked for several times, and
may change in between. -/
structure SendOutside where
  nodeFee : UInt64 × Bytes
  blockCountAtValidation : Nat
  nowAtValidation : Nat
  blockCountAtSelection : Nat
  nowAtSelection : Nat
  shuffle : List TxInputAndOwner → List TxInputAndOwner
  isShuffle : IsShuffle shuffle
  attempt : Attempt
  blockCountAtSizeCheck : Nat
  relay : BuiltTransaction → RelayAnswer

structure SendParameters where
  addressesAndAmounts : List Destination
  mixin : Nat
  fee : UInt64
  paymentID : Bytes
  addressesToTakeFrom : List Bytes
  changeAddress : Bytes
  unlockTime : Nat
  extraData : Bytes

/-- A transaction that the daemon has taken, and what the wallet will keep of it. -/
structure SentByWallet where
  result : TransactionResult
  txHash : Hash
  paymentID : Bytes
  ourInputs : List TxInputAndOwner
  changeAddress : Bytes
  changeRequired : Amount
  deriving DecidableEq

def SubWallets.getPrimaryAddress (c : SubWallets) : Except Exception Address :=
  match c.subWallets.find? (·.isPrimaryAddress) with
  | some w => .ok w.address
  | none => .error .noPrimaryAddress

/-- The primary address where none is given. -/
def SubWallets.changeAddressOr (addressText : Address → Bytes) (changeAddress : Bytes) (c : SubWallets) :
    Outcome Bytes :=
  if changeAddress = [] then uncaught (c.getPrimaryAddress.map addressText) else .ok changeAddress

/-- Integrated addresses are replaced by the standard ones, and the payment id by theirs. -/
def replaceIntegrated (addresses : AddressCrypto) : List Destination → Bytes →
    Outcome (List Destination × Bytes)
  | [], paymentID => .ok ([], paymentID)
  | (address, amount) :: destinations, paymentID => do
    if address.length ≠ integratedAddressLength then
      let (replaced, paymentID) ← replaceIntegrated addresses destinations paymentID
      return ((address, amount) :: replaced, paymentID)
    else
      let (extractedAddress, extractedPaymentID) ←
        uncaught (extractIntegratedAddressData addresses address)
      let (replaced, paymentID) ← replaceIntegrated addresses destinations extractedPaymentID
      return ((extractedAddress, amount) :: replaced, paymentID)

def relayTransaction (env : SendEnv) (relay : BuiltTransaction → RelayAnswer) (tx : BuiltTransaction) :
    Outcome Hash :=
  match relay tx with
  | .connectionError => fails .daemonOffline
  | .refused => fails .daemonError
  | .success => .ok (env.transactionHash tx)

/-- The node's fee is one more destination. -/
def withNodeFee (nodeFee : UInt64 × Bytes) (destinations : List Destination) : List Destination :=
  if nodeFee.1 ≠ 0 then destinations ++ [(nodeFee.2, nodeFee.1)] else destinations

/-- A send up to the point where the daemon has the transaction. What is stored then is in the
model of the backend. -/
def sendTransactionAdvanced (env : SendEnv) (outside : SendOutside) (parameters : SendParameters)
    (subWallets : SubWallets) : Outcome SentByWallet := do
  let addressesAndAmounts := withNodeFee outside.nodeFee parameters.addressesAndAmounts
  let changeAddress ← subWallets.changeAddressOr env.addressText parameters.changeAddress
  validateTransaction env.addresses outside.nowAtValidation addressesAndAmounts parameters.mixin
    parameters.fee parameters.paymentID parameters.addressesToTakeFrom changeAddress subWallets
    outside.blockCountAtValidation
  let (addressesAndAmounts, paymentID) ←
    replaceIntegrated env.addresses addressesAndAmounts parameters.paymentID
  let total := totalAmount addressesAndAmounts parameters.fee
  let subWalletsToTakeFrom ← uncaught (addressesToSpendKeys env.addresses parameters.addressesToTakeFrom)
  let (ourInputs, sumOfInputs) ← uncaught ((subWallets.getTransactionInputsForAmount outside.shuffle
    outside.nowAtSelection total.toNat parameters.addressesToTakeFrom.isEmpty subWalletsToTakeFrom
    outside.blockCountAtSelection).mapError .subWallets)
  let changeRequired := subUInt64 sumOfInputs total.toNat
  let destinations ← setupDestinations env.addresses
    (addressesAndAmounts.map fun destination => (destination.1, destination.2.toNat)) changeRequired
    changeAddress
  let result ← makeTransaction env outside.attempt parameters.mixin ourInputs paymentID destinations
    subWallets parameters.unlockTime parameters.extraData
  check (env.binarySize result.transaction ≤ getMaxTxSize outside.blockCountAtSizeCheck)
    .tooManyInputsToFitInBlock
  check (verifyAmounts result.transaction.transaction = true) .amountsNotPretty
  check (verifyTransactionFee parameters.fee.toNat result.transaction.transaction = true) .unexpectedFee
  let txHash ← relayTransaction env outside.relay result.transaction
  return { result, txHash, paymentID, ourInputs, changeAddress, changeRequired }

/-! ### The payment id of a transaction -/

variable {paymentID : Bytes}

theorem length_of_validatePaymentID (accepted : validatePaymentID paymentID = .ok ()) :
    paymentID = [] ∨ paymentID.length = 64 := by
  rw [validatePaymentID] at accepted
  by_cases empty : paymentID = []
  · exact .inl empty
  · rw [if_neg empty] at accepted
    exact .inr (of_check_bind.1 accepted).1

/-- The payment id of an integrated address that was accepted has digits only. -/
theorem digits_of_validateAddress {crypto : AddressCrypto} {address standard : Bytes}
    (integrated : address.length = integratedAddressLength)
    (accepted : validateAddress crypto true address = .ok ())
    (extracted : extractIntegratedAddressData crypto address = .ok (standard, paymentID)) :
    ∀ c ∈ paymentID, (characterValue c).isSome = true := by
  obtain ⟨-, accepted⟩ := of_check_bind.1 accepted
  obtain ⟨-, accepted⟩ := of_check_bind.1 accepted
  rw [if_pos integrated] at accepted
  obtain ⟨_, standard_eq, -⟩ := of_bind.1 accepted
  obtain ⟨-, standard_eq⟩ := of_check_bind.1 standard_eq
  rw [extractIntegratedAddressData] at extracted
  cases decoded_eq : Base58.decodeAddr crypto.cnFastHash address with
  | none =>
    rw [decoded_eq] at standard_eq
    cases standard_eq
  | some decoded =>
    rw [decoded_eq] at standard_eq extracted
    obtain ⟨read, -⟩ := of_check_bind.1 standard_eq
    simp only [Option.map_some, Option.getD_some] at extracted
    split_ifs at extracted
    split at extracted
    · cases extracted
    · cases extracted
      exact digits_of_podFromHex read

/-- The payment id that is read from a transaction is the one that was asked for, up to the case
of letters, if and only if that one has digits only; one from an integrated address always has.
An extra fits a vector. -/
theorem paymentID_sent_iff {env : SendEnv} {attempt : Attempt} {mixin : Nat}
    {ourInputs : List TxInputAndOwner} {paymentID : Bytes}
    {destinations : List TransactionDestination} {c : SubWallets} {unlockTime : Nat}
    {extraData : Bytes} {result : TransactionResult}
    (accepted : validatePaymentID paymentID = .ok ())
    (made : makeTransaction env attempt mixin ourInputs paymentID destinations c unlockTime extraData =
      .ok result) (fits : result.transaction.extra.length < 2 ^ 63) :
    ∃ parsed, Extra.parseExtra result.transaction.extra = some parsed ∧
      (parsed.paymentID.map toLower = paymentID.map toLower ↔
        ∀ c ∈ paymentID, (characterValue c).isSome = true) ∧
      ∀ address standard, address.length = integratedAddressLength →
        validateAddress env.addresses true address = .ok () →
        extractIntegratedAddressData env.addresses address = .ok (standard, paymentID) →
        parsed.paymentID.map toLower = paymentID.map toLower := by
  have extra : result.transaction.extra = Extra.makeExtra
      (paymentIDBin attempt.uninitialised paymentID) extraData
      (keyBytes (env.crypto.secretKeyToPublicKey attempt.txSecretKey)) attempt.powNonce := by
    obtain ⟨inputsAndFakes, -, made⟩ := of_bind.1 made
    obtain ⟨inputs, -, made⟩ := of_bind.1 made
    cases (of_check_bind.1 made).2
    rfl
  rw [extra] at fits
  have same_iff : (((paymentIDBin attempt.uninitialised paymentID).map podToHex).getD []).map toLower =
      paymentID.map toLower ↔ ∀ c ∈ paymentID, (characterValue c).isSome = true := by
    rcases length_of_validatePaymentID accepted with rfl | length
    · simp [paymentIDBin]
    · have some_id : paymentID ≠ [] := by
        rintro rfl
        simp at length
      rw [paymentIDBin, if_neg some_id]
      exact podToHex_podFromHex_iff length
  refine ⟨_, by rw [extra, Extra.parseExtra_makeExtra fits], same_iff, ?_⟩
  intro address standard integrated address_accepted extracted
  exact same_iff.2 (digits_of_validateAddress integrated address_accepted extracted)

namespace Sample

/-- A sort that keeps the order of equal amounts. -/
def stableSort {α : Type} (amount : α → Amount) : AmountSort α amount where
  sort xs := xs.insertionSort fun a b => amount a ≤ amount b
  perm xs := perm_insertionSort _ xs
  sorted xs := by
    have total : Std.Total fun a b => amount a ≤ amount b := ⟨fun a b => Nat.le_total _ _⟩
    have trans : IsTrans α fun a b => amount a ≤ amount b := ⟨fun a b c => Nat.le_trans⟩
    exact pairwise_insertionSort _ xs

def walletCrypto : WalletCrypto where
  secretKeyToPublicKey key := key
  generateKeyDerivation _ _ := 0
  derivePublicKey _ outputIndex _ := outputIndex
  deriveSecretKey _ _ key := key
  underivePublicKey _ _ key := key
  generateKeyImage key _ := key
  addressToKeys address := (address, address)
  privateKeysToAddress key _ := key
  publicKeysToAddress key _ := key

def sendEnv : SendEnv where
  crypto := walletCrypto
  addresses := addressCrypto
  sortInputs := stableSort _
  sortDestinations := stableSort _
  binarySize _ := 500
  transactionHash _ := 9
  addressText _ := ownAddress

def plainAttempt : Attempt where
  getRandomOutsByAmounts _ _ := (false, [])
  txSecretKey := 11
  uninitialised := .filled 32 0
  powNonce := .filled 8 9
  signs _ := true

def built (paymentID : Bytes) : Outcome TransactionResult :=
  makeTransaction sendEnv plainAttempt 0 [⟨unspent 1 1000, 1, 5⟩] paymentID [⟨1, 2, 900⟩] spendable 0 []

/-- Sixty-four letters `A` are digits, and come back as `a`. -/
theorem paymentID_sent_digits : ∃ result parsed, built (replicate 64 65) = .ok result ∧
      Extra.parseExtra result.transaction.extra = some parsed ∧
      parsed.paymentID.map toLower = replicate 64 97 := by
  obtain ⟨result, made, size⟩ : ∃ result, built (replicate 64 65) = .ok result ∧
      result.transaction.extra.length = 77 :=
    Checked.exists_of_toOption_map (by decide +kernel)
  have fits : result.transaction.extra.length < 2 ^ 63 := lt_of_eq_of_lt size (by decide)
  obtain ⟨parsed, found, same, -⟩ := paymentID_sent_iff (by decide +kernel) made fits
  exact ⟨result, parsed, made, found, (same.2 (by decide +kernel)).trans (by decide +kernel)⟩

/-- Sixty-four letters `z` are accepted; what is sent is what was in the variable. -/
theorem letters_not_sent : validatePaymentID (replicate 64 122) = .ok () ∧
      ((built (replicate 64 122)).toOption.bind fun result =>
        (Extra.parseExtra result.transaction.extra).map (·.paymentID)) = some (replicate 64 48) := by
  decide +kernel

end Sample

end DeroGold.Wallet
