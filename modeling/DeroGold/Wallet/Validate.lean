import DeroGold.Currency
import DeroGold.Wallet.Addresses
import DeroGold.Wallet.SubWallets

/-!
The parameters of a send, before anything is done with them (`errors/ValidateParameters.cpp`).

A check that does not pass gives an error, of which the code and the text that the code makes
up are kept. A check may also throw.
-/

namespace DeroGold.Wallet

open List

open Checked (of_bind of_require_bind require require_eq_ok)

inductive ErrorCode where
  | willOverflow
  | addressNotInWallet
  | notEnoughBalance
  | addressWrongLength
  | addressWrongPrefix
  | addressNotBase58
  | addressNotValid
  | integratedAddressPaymentIdInvalid
  | feeTooSmall
  | noDestinationsGiven
  | amountIsZero
  | failedToCreateRingSignature
  | mixinTooSmall
  | mixinTooBig
  | paymentIdWrongLength
  | paymentIdInvalid
  | addressIsIntegrated
  | conflictingPaymentIds
  | notEnoughFakeOutputs
  | invalidGeneratedKeyimage
  | daemonOffline
  | daemonError
  | tooManyInputsToFitInBlock
  | fullyOptimized
  | fusionMixinTooLarge
  | amountsNotPretty
  | unexpectedFee
  deriving DecidableEq

/-- The message is empty where the standard one of the code is meant. -/
structure Error where
  code : ErrorCode
  customMessage : String := ""
  deriving DecidableEq

inductive Failure where
  | error (error : Error)
  | exception (exception : Exception)
  deriving DecidableEq

abbrev Outcome := Except Failure

/-- An exception is not caught. -/
def uncaught {α : Type} (call : Except Exception α) : Outcome α := call.mapError .exception

/-- A check with the code of its error. -/
def check (condition : Prop) [Decidable condition] (code : ErrorCode) (customMessage : String := "") :
    Outcome Unit :=
  require condition (.error ⟨code, customMessage⟩)

def textOf (bytes : Bytes) : String := String.ofList (bytes.map fun byte => Char.ofNat byte.toNat)

/-- A receiver, whose address may be integrated, and an amount. -/
abbrev Destination := Bytes × UInt64

/-! ### Addresses and payment ids -/

/-- `createTxExtraWithPaymentId` fails when the text is not the digits of a hash. What was in the
variable before makes no difference to that. -/
def parsePaymentId (paymentID : Bytes) : Bool := (podFromHex paymentID (Pod.filled 32 0)).2

def isAlphanumeric (c : UInt8) : Bool :=
  (97 ≤ c && c ≤ 122) || (65 ≤ c && c ≤ 90) || (48 ≤ c && c ≤ 57)

/-- The regular expression admits every letter, not only those that are digits. -/
def validatePaymentID (paymentID : Bytes) : Outcome Unit := do
  if paymentID = [] then return ()
  check (paymentID.length = 64) .paymentIdWrongLength
  check (paymentID.all isAlphanumeric = true) .paymentIdInvalid

section Crypto

variable (crypto : AddressCrypto)

/-- The standard address in an integrated one. -/
def standardAddress (integratedAddressesAllowed : Bool) (address : Bytes) : Outcome Bytes := do
  check (integratedAddressesAllowed = true) .addressIsIntegrated
    ("The address given (" ++ textOf address ++ ") is an integrated address, but integrated " ++
      "addresses aren't valid for this parameter.")
  match Base58.decodeAddr crypto.cnFastHash address with
  | none => .error (.error ⟨.addressNotBase58, ""⟩)
  | some (_, decoded) =>
    check (parsePaymentId (decoded.take paymentIDLength) = true) .integratedAddressPaymentIdInvalid
    require (paymentIDLength ≤ decoded.length) (.exception .positionOutOfRange)
    match keysFromBinaryArray (decoded.drop paymentIDLength) with
    | none => .error (.error ⟨.addressNotValid, ""⟩)
    | some keys =>
      match getAccountAddressAsStr crypto publicAddressTag keys with
      | none => .error (.exception .undefined)
      | some address => return address

def validateAddress (integratedAddressesAllowed : Bool) (address : Bytes) : Outcome Unit := do
  check (address.length = standardAddressLength ∨ address.length = integratedAddressLength)
    .addressWrongLength
    ("The address given is the wrong length. It should be " ++ toString standardAddressLength ++
      " chars or " ++ toString integratedAddressLength ++ " chars, but it is " ++
      toString address.length ++ " chars.")
  check (address.take addressStart.length = addressStart) .addressWrongPrefix
  let address ←
    if address.length = integratedAddressLength then
      standardAddress crypto integratedAddressesAllowed address
    else .ok address
  check ((parseAccountAddressString crypto address).isSome = true) .addressNotValid

def validateAddresses (addresses : List Bytes) (integratedAddressesAllowed : Bool) : Outcome Unit :=
  addresses.forM (validateAddress crypto integratedAddressesAllowed)

def validateOurAddress (subWallets : SubWallets) (address : Bytes) : Outcome Unit := do
  let (spendKey, _) ← uncaught (addressToKeys crypto address)
  check (spendKey ∈ subWallets.publicSpendKeys) .addressNotInWallet
    ("The address given (" ++ textOf address ++ ") does not exist in the wallet container, but " ++
      "it is required to exist for this operation.")

def validateOurAddresses (addresses : List Bytes) (subWallets : SubWallets) : Outcome Unit := do
  validateAddresses crypto addresses false
  addresses.forM (validateOurAddress crypto subWallets)

/-- The amounts are looked at before the first address is. -/
def validateDestinations (destinations : List Destination) : Outcome Unit := do
  check (destinations ≠ []) .noDestinationsGiven
  destinations.forM fun destination => check (destination.2 ≠ 0) .amountIsZero
  validateAddresses crypto (destinations.map Prod.fst) true

/-- A payment id and those of the integrated addresses must be one. -/
def validateIntegratedAddresses : List Destination → Bytes → Outcome Unit
  | [], _ => .ok ()
  | (address, _) :: destinations, paymentID => do
    if address.length ≠ integratedAddressLength then validateIntegratedAddresses destinations paymentID
    else
      let (_, extractedPaymentID) ← uncaught (extractIntegratedAddressData crypto address)
      if paymentID = [] then validateIntegratedAddresses destinations extractedPaymentID
      else
        check (paymentID = extractedPaymentID) .conflictingPaymentIds
        validateIntegratedAddresses destinations paymentID

end Crypto

variable (destinations : List Destination)

/-! ### Amounts and mixins -/

def validateMixin (mixin height : Nat) : Outcome Unit := do
  let (minMixin, maxMixin) := getMixinAllowableRange height
  check (minMixin ≤ mixin) .mixinTooSmall
    ("The mixin value given (" ++ toString mixin ++ ") is lower than the minimum mixin allowed (" ++
      toString minMixin ++ ")")
  check (mixin ≤ maxMixin) .mixinTooBig
    ("The mixin value given (" ++ toString mixin ++ ") is greater than the maximum mixin allowed (" ++
      toString maxMixin ++ ")")

def getTransactionSum : UInt64 :=
  destinations.foldl (fun amountSum destination => amountSum + destination.2) 0

def additionWillOverflow (a b : UInt64) : Bool := decide (a + b < max a b)

def sumWillOverflow : List UInt64 → UInt64 → Bool
  | [], _ => false
  | item :: amounts, sum =>
    if additionWillOverflow item sum then true else sumWillOverflow amounts (sum + item)

/-- What a send takes from the wallet. -/
def totalAmount (fee : UInt64) : UInt64 :=
  getTransactionSum destinations + fee

def validateAmount (crypto : AddressCrypto) (now : Nat) (destinations : List Destination)
    (fee : UInt64) (subWalletsToTakeFrom : List Bytes) (subWallets : SubWallets)
    (currentHeight : Nat) : Outcome Unit := do
  check (getMinimumFee currentHeight ≤ fee.toNat) .feeTooSmall
  let spendKeys ← uncaught (addressesToSpendKeys crypto subWalletsToTakeFrom)
  let (availableBalance, _) ← uncaught ((subWallets.getBalance now spendKeys
    subWalletsToTakeFrom.isEmpty currentHeight).mapError .subWallets)
  check (sumWillOverflow (fee :: destinations.map Prod.snd) 0 = false) .willOverflow
  check ((totalAmount destinations fee).toNat ≤ availableBalance) .notEnoughBalance

def validateTransaction (crypto : AddressCrypto) (now : Nat) (destinations : List Destination)
    (mixin : Nat) (fee : UInt64) (paymentID : Bytes) (subWalletsToTakeFrom : List Bytes)
    (changeAddress : Bytes) (subWallets : SubWallets) (currentHeight : Nat) : Outcome Unit := do
  validateDestinations crypto destinations
  validateIntegratedAddresses crypto destinations paymentID
  validateOurAddresses crypto subWalletsToTakeFrom subWallets
  validateAmount crypto now destinations fee subWalletsToTakeFrom subWallets currentHeight
  validateMixin mixin currentHeight
  validatePaymentID paymentID
  validateOurAddresses crypto [changeAddress] subWallets

def validateFusionTransaction (crypto : AddressCrypto) (mixin : Nat)
    (subWalletsToTakeFrom : List Bytes) (destinationAddress : Bytes) (subWallets : SubWallets)
    (currentHeight : Nat) : Outcome Unit := do
  validateMixin mixin currentHeight
  validateOurAddresses crypto subWalletsToTakeFrom subWallets
  validateOurAddresses crypto [destinationAddress] subWallets

/-! ### What has passed -/

variable {condition : Prop} {code : ErrorCode} {message : String} {α : Type} {a : α}

theorem of_check_bind [Decidable condition] {f : Unit → Outcome α} :
    check condition code message >>= f = .ok a ↔ condition ∧ f () = .ok a :=
  of_require_bind

theorem mapError_eq_ok {ε ε' : Type} {f : ε → ε'} {call : Except ε α} :
    call.mapError f = .ok a ↔ call = .ok a := by
  cases call <;> simp [Except.mapError]

theorem uncaught_eq_ok {call : Except Exception α} : uncaught call = .ok a ↔ call = .ok a :=
  mapError_eq_ok

theorem toNat_getTransactionSum :
    (getTransactionSum destinations).toNat =
      (destinations.map fun destination => destination.2.toNat).sum % 2 ^ 64 := by
  have from_sum : ∀ (sum : UInt64), (destinations.foldl (fun amountSum destination =>
      amountSum + destination.2) sum).toNat =
        (sum.toNat + (destinations.map fun destination => destination.2.toNat).sum) % 2 ^ 64 := by
    induction destinations with
    | nil =>
      intro sum
      simp [Nat.mod_eq_of_lt sum.toNat_lt]
    | cons destination destinations ih =>
      intro sum
      rw [foldl_cons, ih, UInt64.toNat_add, Nat.mod_add_mod, map_cons, sum_cons, add_assoc]
  have whole := from_sum 0
  rwa [UInt64.toNat_zero, zero_add] at whole

/-- An addition overflows if and only if the result is smaller than the larger summand. -/
theorem additionWillOverflow_eq_false {a b : UInt64} :
    additionWillOverflow a b = false ↔ a.toNat + b.toNat < 2 ^ 64 := by
  have a_lt := a.toNat_lt
  have b_lt := b.toNat_lt
  have larger : (max a b).toNat = max a.toNat b.toNat := by
    change (if a ≤ b then b else a).toNat = _
    split_ifs with le
    · exact (max_eq_right (UInt64.le_iff_toNat_le.1 le)).symm
    · exact (max_eq_left (not_le.1 (mt UInt64.le_iff_toNat_le.2 le)).le).symm
  rw [additionWillOverflow, decide_eq_false_iff_not, UInt64.lt_iff_toNat_lt, larger, UInt64.toNat_add]
  omega

theorem sum_lt_of_sumWillOverflow {amounts : List UInt64} {sum : UInt64}
    (fits : sumWillOverflow amounts sum = false) :
    sum.toNat + (amounts.map UInt64.toNat).sum < 2 ^ 64 := by
  induction amounts generalizing sum with
  | nil => simp [sum.toNat_lt]
  | cons item amounts ih =>
    rw [sumWillOverflow] at fits
    split_ifs at fits with overflow
    have small := additionWillOverflow_eq_false.1 (by simpa using overflow)
    have rest := ih fits
    rw [UInt64.toNat_add, Nat.mod_eq_of_lt (by omega)] at rest
    rw [map_cons, sum_cons]
    omega

/-- What a send takes, as a number without bound. -/
def exactTotal (fee : UInt64) : Nat :=
  (destinations.map fun destination => destination.2.toNat).sum + fee.toNat

theorem toNat_totalAmount {destinations : List Destination} {fee : UInt64}
    (fits : sumWillOverflow (fee :: destinations.map Prod.snd) 0 = false) :
    (totalAmount destinations fee).toNat = exactTotal destinations fee ∧
      exactTotal destinations fee < 2 ^ 64 := by
  have small := sum_lt_of_sumWillOverflow fits
  simp only [map_cons, map_map, sum_cons, UInt64.toNat_zero, zero_add] at small
  change fee.toNat + (destinations.map fun destination => destination.2.toNat).sum < 2 ^ 64 at small
  rw [totalAmount, UInt64.toNat_add, toNat_getTransactionSum, Nat.mod_add_mod, exactTotal]
  omega

section Passed

variable {crypto : AddressCrypto} {now : Nat} {destinations : List Destination} {mixin : Nat}
  {fee : UInt64} {paymentID : Bytes} {sources : List Bytes} {changeAddress : Bytes} {c : SubWallets}
  {height : Nat}

theorem exists_balance_of_validateAmount
    (passed : validateAmount crypto now destinations fee sources c height = .ok ()) :
    getMinimumFee height ≤ fee.toNat ∧
      ∃ spendKeys balance, addressesToSpendKeys crypto sources = .ok spendKeys ∧
        c.getBalance now spendKeys sources.isEmpty height = .ok balance ∧
        sumWillOverflow (fee :: destinations.map Prod.snd) 0 = false := by
  obtain ⟨enough, passed⟩ := of_check_bind.1 passed
  obtain ⟨spendKeys, keys_eq, passed⟩ := of_bind.1 passed
  obtain ⟨balance, balance_eq, passed⟩ := of_bind.1 passed
  obtain ⟨fits, -⟩ := of_check_bind.1 passed
  exact ⟨enough, spendKeys, balance, uncaught_eq_ok.1 keys_eq,
    mapError_eq_ok.1 (uncaught_eq_ok.1 balance_eq), fits⟩

/-- What a send that was not refused has gone through. -/
structure Validated (crypto : AddressCrypto) (now : Nat) (destinations : List Destination)
    (mixin : Nat) (fee : UInt64) (paymentID : Bytes) (sources : List Bytes) (changeAddress : Bytes)
    (c : SubWallets) (height : Nat) : Prop where
  destinationsPass : validateDestinations crypto destinations = .ok ()
  integratedAddressesPass : validateIntegratedAddresses crypto destinations paymentID = .ok ()
  sourcesPass : validateOurAddresses crypto sources c = .ok ()
  amountPasses : validateAmount crypto now destinations fee sources c height = .ok ()
  mixinPasses : validateMixin mixin height = .ok ()
  paymentIDPasses : validatePaymentID paymentID = .ok ()
  changeAddressPasses : validateOurAddresses crypto [changeAddress] c = .ok ()

theorem validated_of_validateTransaction
    (passed : validateTransaction crypto now destinations mixin fee paymentID sources changeAddress c
      height = .ok ()) :
    Validated crypto now destinations mixin fee paymentID sources changeAddress c height := by
  obtain ⟨_, destinations_ok, passed⟩ := of_bind.1 passed
  obtain ⟨_, integrated_ok, passed⟩ := of_bind.1 passed
  obtain ⟨_, sources_ok, passed⟩ := of_bind.1 passed
  obtain ⟨_, amount_ok, passed⟩ := of_bind.1 passed
  obtain ⟨_, mixin_ok, passed⟩ := of_bind.1 passed
  obtain ⟨_, paymentID_ok, passed⟩ := of_bind.1 passed
  exact ⟨destinations_ok, integrated_ok, sources_ok, amount_ok, mixin_ok, paymentID_ok, passed⟩

end Passed

end DeroGold.Wallet
