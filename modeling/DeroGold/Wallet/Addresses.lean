import DeroGold.Base58
import DeroGold.Lib.Checked
import DeroGold.Serializer
import DeroGold.Text
import DeroGold.Wallet.Types

/-!
Addresses as text (`utilities/Addresses.cpp`): the keys an address spells, and the payment id
of an integrated address.

Keys are 32 bytes in an address and numbers in the rest of the wallet; the number of a key is
the one its bytes spell.
-/

namespace DeroGold.Wallet

/-- Why a function of the wallet did not return. -/
inductive Exception where
  /-- `invalid_argument("Address is not valid!")` -/
  | addressNotValid
  /-- `runtime_error("This container has no primary address!")` -/
  | noPrimaryAddress
  /-- `out_of_range`, thrown by `substr` -/
  | positionOutOfRange
  | subWallets (thrown : WalletException)
  /-- A value that was never set is read; nothing is thrown, and nothing is known. -/
  | undefined
  deriving DecidableEq

/-- The functions that decide what an address is. -/
structure AddressCrypto where
  cnFastHash : Bytes → Pod 32
  checkKey : Pod 32 → Bool

structure AccountPublicAddress where
  spendPublicKey : Pod 32
  viewPublicKey : Pod 32
  deriving DecidableEq

/-- `CRYPTONOTE_PUBLIC_ADDRESS_BASE58_PREFIX` -/
def publicAddressTag : Nat := 8411

/-- The text every address begins with, `dg`. -/
def addressStart : Bytes := [100, 103]

def standardAddressLength : Nat := 97

def integratedAddressLength : Nat := standardAddressLength + 64 * 11 / 8

def paymentIDLength : Nat := 64

def keyOfBytes (key : Pod 32) : PublicKey := ByteOrder.ofLittleEndian key.val

def readAccountPublicAddress : InputSerializer AccountPublicAddress := do
  let spendPublicKey ← readBinary 32
  let viewPublicKey ← readBinary 32
  return ⟨spendPublicKey, viewPublicKey⟩

/-- The keys of an address, when they are all there is. -/
def keysFromBinaryArray (bytes : Bytes) : Option AccountPublicAddress :=
  (fromBinaryArray readAccountPublicAddress bytes).toOption

section Crypto

variable (crypto : AddressCrypto)

def getAccountAddressAsStr (tag : Nat) (address : AccountPublicAddress) : Option Bytes :=
  Base58.encodeAddr crypto.cnFastHash tag (address.spendPublicKey.val ++ address.viewPublicKey.val)

def parseAccountAddressString (str : Bytes) : Option (Nat × AccountPublicAddress) := do
  let (tag, data) ← Base58.decodeAddr crypto.cnFastHash str
  let address ← keysFromBinaryArray data
  if crypto.checkKey address.spendPublicKey && crypto.checkKey address.viewPublicKey then
    some (tag, address)
  else none

/-- Public spend key and public view key. -/
def addressToKeys (address : Bytes) : Except Exception (PublicKey × PublicKey) :=
  match parseAccountAddressString crypto address with
  | none => .error .addressNotValid
  | some (tag, parsed) =>
    if tag = publicAddressTag then
      .ok (keyOfBytes parsed.spendPublicKey, keyOfBytes parsed.viewPublicKey)
    else .error .addressNotValid

def addressesToSpendKeys (addresses : List Bytes) : Except Exception (List PublicKey) :=
  addresses.mapM fun address => (addressToKeys crypto address).map Prod.fst

/-- The address and the payment id in an integrated address, which must be a valid one. -/
def extractIntegratedAddressData (address : Bytes) : Except Exception (Bytes × Bytes) :=
  let decoded := ((Base58.decodeAddr crypto.cnFastHash address).map Prod.snd).getD []
  if decoded.length < paymentIDLength then .error .positionOutOfRange
  else
    match (keysFromBinaryArray (decoded.drop paymentIDLength)).bind
        (getAccountAddressAsStr crypto publicAddressTag) with
    | none => .error .undefined
    | some actualAddress => .ok (actualAddress, decoded.take paymentIDLength)

end Crypto

end DeroGold.Wallet
