import DeroGold.Wallet.SubWallet

/-!
The container of all subwallets: what they own together, the transactions of the wallet,
and the index from key images to the subwallets that own them.

A function that can throw answers in `Except WalletException`; one that can refuse, in
`Except WalletError`. A container whose subwallets share a key cannot be built.
-/

namespace DeroGold.Wallet

open SubWallet Keyed

structure SubWallets where
  subWallets : List SubWallet
  distinct : (subWallets.map publicSpendKey).Nodup
  transactions : List Transaction
  /-- Sent, but not seen in a block yet. -/
  lockedTransactions : List Transaction
  privateViewKey : SecretKey
  isViewWallet : Bool
  publicSpendKeys : List PublicKey
  keyImageOwners : List (KeyImage × PublicKey)
  transactionPrivateKeys : List (Hash × SecretKey)
  deriving DecidableEq

namespace SubWallets

/-- A container with its primary subwallet. -/
def ofSubWallet (w : SubWallet) (privateViewKey : SecretKey) (isViewWallet : Bool) : SubWallets where
  subWallets := [w]
  distinct := List.nodup_singleton _
  transactions := []
  lockedTransactions := []
  privateViewKey := privateViewKey
  isViewWallet := isViewWallet
  publicSpendKeys := [w.publicSpendKey]
  keyImageOwners := []
  transactionPrivateKeys := []

/-- Makes a new wallet. -/
def new (crypto : WalletCrypto) (privateSpendKey privateViewKey : SecretKey) (address : Address)
    (scanHeight timestamp : Nat) : SubWallets :=
  ofSubWallet (SubWallet.new (crypto.secretKeyToPublicKey privateSpendKey) privateSpendKey address
    scanHeight timestamp true) privateViewKey false

variable (c : SubWallets)

def find (publicKey : PublicKey) : Option SubWallet :=
  lookup publicSpendKey publicKey c.subWallets

/-- Change one subwallet. -/
def update (publicKey : PublicKey) (f : SubWallet → SubWallet)
    (same : ∀ w, (f w).publicSpendKey = w.publicSpendKey) : SubWallets :=
  { c with
    subWallets := modify publicSpendKey publicKey f c.subWallets
    distinct := by
      rw [map_key_modify fun w _ at_key => (same w).trans at_key]
      exact c.distinct }

/-- Change every subwallet. -/
def updateAll (f : SubWallet → SubWallet) (same : ∀ w, (f w).publicSpendKey = w.publicSpendKey) :
    SubWallets :=
  { c with
    subWallets := c.subWallets.map f
    distinct := by
      rw [map_key_map fun w _ => same w]
      exact c.distinct }

/-- `m_subWallets[key] = subWallet`, and the key becomes known. -/
def addWallet (w : SubWallet) : SubWallets :=
  { c with
    subWallets := assign publicSpendKey w c.subWallets
    distinct := nodup_map_key_assign c.distinct w
    publicSpendKeys := c.publicSpendKeys ++ [w.publicSpendKey] }

/-- A new subwallet for a spend key that was just generated. -/
def addSubWallet (crypto : WalletCrypto) (spendKey : SecretKey) (timestamp : Nat) :
    Except WalletError (Address × SecretKey × SubWallets) :=
  if c.isViewWallet then .error .illegalViewWalletOperation
  else
    let address := crypto.privateKeysToAddress spendKey c.privateViewKey
    .ok (address, spendKey, c.addWallet
      (.new (crypto.secretKeyToPublicKey spendKey) spendKey address 0 timestamp false))

def importSubWallet (crypto : WalletCrypto) (privateSpendKey : SecretKey) (scanHeight : Nat) :
    Except WalletError (Address × SubWallets) :=
  if c.isViewWallet then .error .illegalViewWalletOperation
  else
    let publicSpendKey := crypto.secretKeyToPublicKey privateSpendKey
    let address := crypto.privateKeysToAddress privateSpendKey c.privateViewKey
    if (c.find publicSpendKey).isSome then .error .subwalletAlreadyExists
    else .ok (address, c.addWallet (.new publicSpendKey privateSpendKey address scanHeight 0 false))

def importViewSubWallet (crypto : WalletCrypto) (publicSpendKey : PublicKey) (scanHeight : Nat) :
    Except WalletError (Address × SubWallets) :=
  if ¬ c.isViewWallet then .error .illegalNonViewWalletOperation
  else if (c.find publicSpendKey).isSome then .error .subwalletAlreadyExists
  else
    let address := crypto.publicKeysToAddress publicSpendKey
      (crypto.secretKeyToPublicKey c.privateViewKey)
    .ok (address, c.addWallet (.new publicSpendKey nullSecretKey address scanHeight 0 false))

/-- Drop the transfers of a subwallet, and the transactions that have no other. -/
def deleteAddressTransactions (txs : List Transaction) (spendKey : PublicKey) : List Transaction :=
  (txs.filter fun tx => !(decide (spendKey ∈ tx.transfers.map Prod.fst) &&
      decide (tx.transfers.length = 1))).map fun tx =>
    { tx with transfers := tx.transfers.filter fun transfer => decide (transfer.1 ≠ spendKey) }

/-- The index of key images is left as it is. -/
def deleteSubWallet (crypto : WalletCrypto) (address : Address) : Except WalletError SubWallets :=
  let spendKey := (crypto.addressToKeys address).1
  match c.find spendKey with
  | none => .error .addressNotInWallet
  | some w =>
    if w.isPrimaryAddress then .error .cannotDeletePrimaryAddress
    else .ok
      { c with
        subWallets := remove publicSpendKey spendKey c.subWallets
        distinct := nodup_map_key_remove c.distinct spendKey
        transactions := deleteAddressTransactions c.transactions spendKey
        lockedTransactions := deleteAddressTransactions c.lockedTransactions spendKey
        publicSpendKeys := c.publicSpendKeys.filter fun key => decide (key ≠ spendKey) }

def addUnconfirmedTransaction (tx : Transaction) : SubWallets :=
  if tx.hash ∈ c.lockedTransactions.map (·.hash) then c
  else { c with lockedTransactions := c.lockedTransactions ++ [tx] }

def addTransaction (tx : Transaction) : SubWallets :=
  { c with
    lockedTransactions := c.lockedTransactions.filter fun other => decide (tx.hash ≠ other.hash)
    transactions :=
      if tx.hash ∈ c.transactions.map (·.hash) then c.transactions else c.transactions ++ [tx] }

def getTxInputKeyImage (crypto : WalletCrypto) (publicSpendKey : PublicKey)
    (derivation : KeyDerivation) (outputIndex : Nat) :
    Except WalletException KeyImage :=
  match c.find publicSpendKey with
  | some w => .ok (w.getTxInputKeyImage crypto derivation outputIndex c.isViewWallet)
  | none => .error .subwalletNotFound

/-- `m_keyImageOwners[keyImage] = publicSpendKey`, unless the wallet is view only. -/
def ownKeyImage (keyImage : KeyImage) (publicSpendKey : PublicKey) : SubWallets :=
  { c with
    keyImageOwners :=
      if c.isViewWallet then c.keyImageOwners
      else assign Prod.fst (keyImage, publicSpendKey) c.keyImageOwners }

/-- Keep a received output. Nothing is compared with the outputs that are there. -/
def storeTransactionInput (publicSpendKey : PublicKey) (input : TransactionInput) :
    Except WalletException SubWallets :=
  match c.find publicSpendKey with
  | some _ => .ok ((c.ownKeyImage input.keyImage publicSpendKey).update publicSpendKey
      (·.storeTransactionInput input c.isViewWallet) fun _ => rfl)
  | none => .error .subwalletNotFound

def getKeyImageOwner (keyImage : KeyImage) : Option PublicKey :=
  (lookup Prod.fst keyImage c.keyImageOwners).map Prod.snd

/-- Take outputs, in order, until the amount is reached. -/
def pickInputs (amount : Amount) (used : List TxInputAndOwner) (foundMoney : Amount) :
    List TxInputAndOwner → Except WalletException (List TxInputAndOwner × Amount)
  | [] => .error .notEnoughFunds
  | owned :: rest =>
    if inputNotSending ≤ owned.input.amount then
      let used := used ++ [owned]
      let foundMoney := uint64 (foundMoney + owned.input.amount)
      if amount ≤ foundMoney then .ok (used, foundMoney) else pickInputs amount used foundMoney rest
    else pickInputs amount used foundMoney rest

/-- The wallets under the keys, or all of them. -/
def walletsOf (takeFromAll : Bool) (subWalletsToTakeFrom : List PublicKey) :
    Except WalletException (List SubWallet) :=
  (if takeFromAll then c.publicSpendKeys else subWalletsToTakeFrom).mapM fun publicKey =>
    match c.find publicKey with
    | some w => .ok w
    | none => .error .outOfRange

/-- Outputs to spend for an amount, from the outputs that can be spent, in a random order. -/
def getTransactionInputsForAmount (shuffle : List TxInputAndOwner → List TxInputAndOwner)
    (now : Nat) (amount : Amount) (takeFromAll : Bool) (subWalletsToTakeFrom : List PublicKey)
    (height : Nat) :
    Except WalletException (List TxInputAndOwner × Amount) :=
  if c.isViewWallet then .error .viewWallet
  else do
    let wallets ← c.walletsOf takeFromAll subWalletsToTakeFrom
    let availableInputs := wallets.flatMap fun w => (w.getSpendableInputs now height).filter
      fun owned => decide (inputNotSending ≤ owned.input.amount)
    pickInputs amount [] 0 (shuffle availableInputs)

/-- Unlocked and locked balance. -/
def getBalance (now : Nat) (subWalletsToTakeFrom : List PublicKey) (takeFromAll : Bool)
    (currentHeight : Nat) : Except WalletException (Nat × Nat) := do
  let wallets ← c.walletsOf takeFromAll subWalletsToTakeFrom
  .ok (wallets.foldl (fun (balance : Nat × Nat) w =>
    let (unlocked, locked) := w.getBalance now currentHeight
    (uint64 (balance.1 + unlocked), uint64 (balance.2 + locked))) (0, 0))

/-- Address, unlocked and locked balance of every subwallet. -/
def getBalances (now currentHeight : Nat) : List (Address × Nat × Nat) :=
  c.subWallets.map fun w => (w.address, w.getBalance now currentHeight)

def markInputAsSpent (keyImage : KeyImage) (publicKey : PublicKey) (spendHeight : Nat) :
    Except WalletException SubWallets :=
  if c.isViewWallet then .error .viewWallet
  else match c.find publicKey with
    | some _ => .ok (c.update publicKey (·.markInputAsSpent keyImage spendHeight)
        fun w => w.publicSpendKey_markInputAsSpent keyImage spendHeight)
    | none => .error .outOfRange

def markInputAsLocked (keyImage : KeyImage) (publicKey : PublicKey) :
    Except WalletException SubWallets :=
  if c.isViewWallet then .error .viewWallet
  else match c.find publicKey with
    | some _ => .ok (c.update publicKey (·.markInputAsLocked keyImage)
        fun w => w.publicSpendKey_markInputAsLocked keyImage)
    | none => .error .outOfRange

/-- Drop what happened at the fork height or above. -/
def removeForkedTransactions (forkHeight : Nat) : SubWallets :=
  let keyImagesToRemove := c.subWallets.flatMap fun w =>
    (w.removeForkedInputs forkHeight c.isViewWallet).1
  { c.updateAll (fun w => (w.removeForkedInputs forkHeight c.isViewWallet).2) fun _ => rfl with
    transactions := c.transactions.filter fun tx => !decide (forkHeight ≤ tx.blockHeight)
    keyImageOwners := keyImagesToRemove.foldl (fun owners keyImage => remove Prod.fst keyImage owners)
      c.keyImageOwners }

def removeCancelledTransactions (cancelled : List Hash) : Except WalletException SubWallets :=
  if c.isViewWallet then .error .viewWallet
  else .ok
    { c.updateAll (·.removeCancelledTransactions cancelled) fun _ => rfl with
      lockedTransactions := c.lockedTransactions.filter fun tx => decide (tx.hash ∉ cancelled) }

/-- Forget all transactions and outputs. The index of key images stays. -/
def reset (scanHeight : Nat) : SubWallets :=
  { c.updateAll (·.reset scanHeight) fun _ => rfl with
    lockedTransactions := []
    transactions := []
    transactionPrivateKeys := [] }

def storeTxPrivateKey (txPrivateKey : SecretKey) (txHash : Hash) : SubWallets :=
  { c with
    transactionPrivateKeys := assign Prod.fst (txHash, txPrivateKey) c.transactionPrivateKeys }

def storeUnconfirmedIncomingInput (input : UnconfirmedInput) (publicSpendKey : PublicKey) :
    SubWallets :=
  c.update publicSpendKey (·.storeUnconfirmedIncomingInput input) fun _ => rfl

def convertSyncTimestampToHeight (timestamp height : Nat) : SubWallets :=
  c.updateAll (·.convertSyncTimestampToHeight timestamp height)
    fun w => w.publicSpendKey_convertSyncTimestampToHeight timestamp height

def pruneSpentInputs (pruneHeight : Nat) : SubWallets :=
  c.updateAll (·.pruneSpentInputs pruneHeight) fun _ => rfl

end SubWallets

end DeroGold.Wallet
