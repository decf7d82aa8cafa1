import DeroGold.Types

/-!
The data of the wallet backend: what it is sent by a daemon, what it keeps, and the
cryptography it calls.

Keys, derivations and addresses are opaque values, as hashes are in the core. The
cryptographic functions are parameters: nothing is assumed of them but that they are
functions.
-/

namespace DeroGold.Wallet

open Parameters

abbrev SecretKey := Nat
abbrev KeyDerivation := Nat
abbrev Address := Nat

/-- The functions on keys and addresses that the wallet calls. -/
structure WalletCrypto where
  secretKeyToPublicKey : SecretKey → PublicKey
  generateKeyDerivation : PublicKey → SecretKey → KeyDerivation
  derivePublicKey : KeyDerivation → Nat → PublicKey → PublicKey
  deriveSecretKey : KeyDerivation → Nat → SecretKey → SecretKey
  underivePublicKey : KeyDerivation → Nat → PublicKey → PublicKey
  generateKeyImage : PublicKey → SecretKey → KeyImage
  /-- Public spend key and public view key of an address. -/
  addressToKeys : Address → PublicKey × PublicKey
  /-- Address of a private spend key and a private view key. -/
  privateKeysToAddress : SecretKey → SecretKey → Address
  publicKeysToAddress : PublicKey → PublicKey → Address

structure KeyOutput where
  key : PublicKey
  amount : Amount
  globalOutputIndex : Option Nat
  deriving DecidableEq

structure RawCoinbaseTransaction where
  keyOutputs : List KeyOutput
  hash : Hash
  transactionPublicKey : PublicKey
  unlockTime : Nat
  deriving DecidableEq

structure RawTransaction extends RawCoinbaseTransaction where
  paymentID : String
  keyInputs : List KeyInput
  deriving DecidableEq

/-- A block with the basics needed to find the wallet's transactions. -/
structure WalletBlockInfo where
  coinbaseTransaction : Option RawCoinbaseTransaction
  transactions : List RawTransaction
  blockHeight : Nat
  blockHash : Hash
  blockTimestamp : Nat
  deriving DecidableEq

/-- An output that belongs to the wallet. -/
structure TransactionInput where
  keyImage : KeyImage
  amount : Amount
  /-- Height of the block it was received in. -/
  blockHeight : Nat
  transactionPublicKey : PublicKey
  transactionIndex : Nat
  globalOutputIndex : Option Nat
  key : PublicKey
  /-- Height it was spent at, zero while it is not. -/
  spendHeight : Nat
  unlockTime : Nat
  /-- Hash of the transaction that contains this output. -/
  parentTransactionHash : Hash
  deriving DecidableEq

structure TxInputAndOwner where
  input : TransactionInput
  publicSpendKey : PublicKey
  privateSpendKey : SecretKey
  deriving DecidableEq

/-- Change of a sent transaction that no block contains yet. -/
structure UnconfirmedInput where
  amount : Amount
  key : PublicKey
  parentTransactionHash : Hash
  deriving DecidableEq

/-- A transaction as the wallet lists it. The transfers map keys to signed 64-bit amounts. -/
structure Transaction where
  transfers : List (PublicKey × Int)
  hash : Hash
  fee : Nat
  timestamp : Nat
  blockHeight : Nat
  paymentID : String
  unlockTime : Nat
  isCoinbaseTransaction : Bool
  deriving DecidableEq

/-- `transfers[key] += amount`, where a missing entry counts as zero. -/
def addTransfer (transfers : List (PublicKey × Int)) (key : PublicKey) (amount : Int) :
    List (PublicKey × Int) :=
  if key ∈ transfers.map Prod.fst then
    transfers.map fun entry => if entry.1 = key then (entry.1, int64 (entry.2 + amount)) else entry
  else transfers ++ [(key, int64 amount)]

/-- Errors that the operations on subwallets answer with. -/
inductive WalletError where
  | illegalViewWalletOperation
  | illegalNonViewWalletOperation
  | subwalletAlreadyExists
  | addressNotInWallet
  | cannotDeletePrimaryAddress
  deriving DecidableEq

/-- Exceptions that the operations on subwallets throw. -/
inductive WalletException where
  /-- `runtime_error("Subwallet not found!")` -/
  | subwalletNotFound
  /-- `out_of_range`, thrown by `at` -/
  | outOfRange
  /-- `runtime_error` of `throwIfViewWallet` -/
  | viewWallet
  /-- `invalid_argument("Not enough funds found!")` -/
  | notEnoughFunds
  deriving DecidableEq

/-- Outputs below this amount are not spent. -/
def inputNotSending : Amount := 1000

/-- Whether an output is past its unlock height or its unlock time. -/
def isInputUnlocked (now unlockTime currentHeight : Nat) : Bool :=
  if unlockTime = 0 then true
  else if maxBlockNumber ≤ unlockTime then
    decide (unlockTime ≤ uint64 (now + lockedTxAllowedDeltaSeconds))
  else decide (unlockTime ≤ uint64 (currentHeight + lockedTxAllowedDeltaBlocks))

end DeroGold.Wallet
