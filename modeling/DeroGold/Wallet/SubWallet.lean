import DeroGold.Lib.Keyed
import DeroGold.Wallet.Types

/-!
One subwallet: the outputs it has received, in three lists, and the change it expects.

Every operation moves outputs between the lists, adds one, or drops some. What it does to
the three lists together is stated for each operation; only `storeTransactionInput` adds an
output.
-/

namespace DeroGold.Wallet

open List DeroGold.Wallet.TransactionInput

structure SubWallet where
  publicSpendKey : PublicKey
  privateSpendKey : SecretKey
  address : Address
  syncStartHeight : Nat
  syncStartTimestamp : Nat
  isPrimaryAddress : Bool
  unspentInputs : List TransactionInput
  /-- Spent by transactions that were sent and that no block contains yet. -/
  lockedInputs : List TransactionInput
  spentInputs : List TransactionInput
  unconfirmedIncomingAmounts : List UnconfirmedInput
  deriving DecidableEq

def nullSecretKey : SecretKey := 0

/-- A standard subwallet; a view only one has the null secret key. -/
def SubWallet.new (publicSpendKey : PublicKey) (privateSpendKey : SecretKey) (address : Address)
    (scanHeight scanTimestamp : Nat) (isPrimaryAddress : Bool) : SubWallet where
  publicSpendKey := publicSpendKey
  privateSpendKey := privateSpendKey
  address := address
  syncStartHeight := scanHeight
  syncStartTimestamp := scanTimestamp
  isPrimaryAddress := isPrimaryAddress
  unspentInputs := []
  lockedInputs := []
  spentInputs := []
  unconfirmedIncomingAmounts := []

def TransactionInput.hasKeyImage (keyImage : KeyImage) (input : TransactionInput) : Bool :=
  decide (input.keyImage = keyImage)

/-- An output that is not spent any more. -/
def TransactionInput.unspend (input : TransactionInput) : TransactionInput :=
  { input with spendHeight := 0 }

namespace SubWallet

variable (w : SubWallet)

/-- Key image of an output, from the derived key pair. A view wallet cannot make one. -/
def getTxInputKeyImage (crypto : WalletCrypto) (derivation : KeyDerivation) (outputIndex : Nat)
    (isViewWallet : Bool) : KeyImage :=
  if isViewWallet then 0
  else
    let publicKey := crypto.derivePublicKey derivation outputIndex w.publicSpendKey
    let secretKey := crypto.deriveSecretKey derivation outputIndex w.privateSpendKey
    crypto.generateKeyImage publicKey secretKey

/-- A received output. Change that was expected is no longer. -/
def storeTransactionInput (input : TransactionInput) (isViewWallet : Bool) : SubWallet :=
  { w with
    unconfirmedIncomingAmounts :=
      if isViewWallet then w.unconfirmedIncomingAmounts
      else w.unconfirmedIncomingAmounts.filter fun stored => decide (stored.key ≠ input.key)
    unspentInputs := w.unspentInputs ++ [input] }

/-- Count an output to the unlocked or to the locked balance. -/
def addInput (now currentHeight : Nat) (balance : Nat × Nat) (input : TransactionInput) :
    Nat × Nat :=
  if isInputUnlocked now input.unlockTime currentHeight then
    (uint64 (balance.1 + input.amount), balance.2)
  else (balance.1, uint64 (balance.2 + input.amount))

/-- Unlocked and locked balance. -/
def getBalance (now currentHeight : Nat) : Nat × Nat :=
  let unspent := w.unspentInputs.foldl (addInput now currentHeight) (0, 0)
  (unspent.1, w.unconfirmedIncomingAmounts.foldl
    (fun locked input => uint64 (locked + input.amount)) unspent.2)

def reset (scanHeight : Nat) : SubWallet :=
  { w with
    syncStartTimestamp := 0
    syncStartHeight := scanHeight
    lockedInputs := []
    unconfirmedIncomingAmounts := []
    unspentInputs := []
    spentInputs := [] }

/-- Move the first output with the key image, unspent or else locked, to the spent ones. -/
def markInputAsSpent (keyImage : KeyImage) (spendHeight : Nat) : SubWallet :=
  match w.unspentInputs.find? (hasKeyImage keyImage) with
  | some input =>
    { w with
      spentInputs := w.spentInputs ++ [{ input with spendHeight := spendHeight }]
      unspentInputs := w.unspentInputs.eraseP (hasKeyImage keyImage) }
  | none =>
    match w.lockedInputs.find? (hasKeyImage keyImage) with
    | some input =>
      { w with
        spentInputs := w.spentInputs ++ [{ input with spendHeight := spendHeight }]
        lockedInputs := w.lockedInputs.eraseP (hasKeyImage keyImage) }
    | none => w

/-- Move the first unspent output with the key image to the locked ones, as it is: it
keeps the hash of the transaction it was received in. -/
def markInputAsLocked (keyImage : KeyImage) : SubWallet :=
  match w.unspentInputs.find? (hasKeyImage keyImage) with
  | some input =>
    { w with
      lockedInputs := w.lockedInputs ++ [input]
      unspentInputs := w.unspentInputs.eraseP (hasKeyImage keyImage) }
  | none => w

/-- Drop what was received at the fork height or above, and take back what was spent
there. The key images of what was dropped are returned. -/
def removeForkedInputs (forkHeight : Nat) (isViewWallet : Bool) : List KeyImage × SubWallet :=
  let isForked := fun (input : TransactionInput) => decide (forkHeight ≤ input.blockHeight)
  let isSpentLater := fun (input : TransactionInput) => decide (forkHeight ≤ input.spendHeight)
  let dropped := w.lockedInputs.filter isForked ++ w.unspentInputs.filter isForked ++
    w.spentInputs.filter isForked
  let spent := w.spentInputs.filter fun input => !isForked input
  (if isViewWallet then [] else dropped.map (·.keyImage),
    { w with
      unconfirmedIncomingAmounts := []
      lockedInputs := w.lockedInputs.filter fun input => !isForked input
      unspentInputs := (w.unspentInputs.filter fun input => !isForked input) ++
        (spent.filter isSpentLater).map unspend
      spentInputs := spent.filter fun input => !isSpentLater input })

/-- Return the locked outputs that carry one of the hashes, and forget the change that
does. -/
def removeCancelledTransactions (cancelled : List Hash) : SubWallet :=
  let isCancelled := fun (input : TransactionInput) =>
    decide (input.parentTransactionHash ∈ cancelled)
  { w with
    unspentInputs := w.unspentInputs ++ (w.lockedInputs.filter isCancelled).map unspend
    lockedInputs := w.lockedInputs.filter fun input => !isCancelled input
    unconfirmedIncomingAmounts := w.unconfirmedIncomingAmounts.filter fun input =>
      decide (input.parentTransactionHash ∉ cancelled) }

def getSpendableInputs (now height : Nat) : List TxInputAndOwner :=
  (w.unspentInputs.filter fun input => isInputUnlocked now input.unlockTime height).map fun input =>
    ⟨input, w.publicSpendKey, w.privateSpendKey⟩

def storeUnconfirmedIncomingInput (input : UnconfirmedInput) : SubWallet :=
  { w with unconfirmedIncomingAmounts := w.unconfirmedIncomingAmounts ++ [input] }

def convertSyncTimestampToHeight (timestamp height : Nat) : SubWallet :=
  if w.syncStartTimestamp ≠ 0 then
    { w with syncStartTimestamp := timestamp, syncStartHeight := height }
  else w

/-- Forget what was spent at the height or below. -/
def pruneSpentInputs (pruneHeight : Nat) : SubWallet :=
  { w with spentInputs := w.spentInputs.filter fun input => decide (pruneHeight < input.spendHeight) }

/-- The three lists one after another. -/
def inputs : List TransactionInput :=
  w.unspentInputs ++ w.lockedInputs ++ w.spentInputs

end SubWallet

/-! ### What the operations do to the lists -/

@[simp] theorem TransactionInput.hasKeyImage_unspend (keyImage : KeyImage) (input : TransactionInput) :
    input.unspend.hasKeyImage keyImage = input.hasKeyImage keyImage := rfl

namespace SubWallet

variable (w : SubWallet)

/-- The key stays when outputs move. -/
@[simp] theorem publicSpendKey_markInputAsSpent (keyImage : KeyImage) (spendHeight : Nat) :
    (w.markInputAsSpent keyImage spendHeight).publicSpendKey = w.publicSpendKey := by
  unfold markInputAsSpent
  split
  · rfl
  · split <;> rfl

@[simp] theorem publicSpendKey_markInputAsLocked (keyImage : KeyImage) :
    (w.markInputAsLocked keyImage).publicSpendKey = w.publicSpendKey := by
  unfold markInputAsLocked
  split <;> rfl

@[simp] theorem publicSpendKey_convertSyncTimestampToHeight (timestamp height : Nat) :
    (w.convertSyncTimestampToHeight timestamp height).publicSpendKey = w.publicSpendKey := by
  unfold convertSyncTimestampToHeight
  split <;> rfl

@[simp] theorem inputs_convertSyncTimestampToHeight (timestamp height : Nat) :
    (w.convertSyncTimestampToHeight timestamp height).inputs = w.inputs := by
  unfold convertSyncTimestampToHeight
  split <;> rfl

/-! Below, `g` is what is looked at of an output, such as its key image. Nothing moves an
output without leaving that alone, as long as it does not depend on the spend height. -/

section Held

variable {γ : Type} {g : TransactionInput → γ}

theorem map_inputs : w.inputs.map g =
    w.unspentInputs.map g ++ w.lockedInputs.map g ++ w.spentInputs.map g := by
  simp only [inputs, map_append]

/-- An output that is found and taken out of one list stands in another. -/
theorem perm_map_move {keyImage : KeyImage} {xs : List TransactionInput} {input : TransactionInput}
    (found : xs.find? (hasKeyImage keyImage) = some input) :
    (xs.map g).Perm (g input :: (xs.eraseP (hasKeyImage keyImage)).map g) :=
  (Keyed.perm_cons_eraseP found).map g

theorem map_inputs_markInputAsLocked (keyImage : KeyImage) :
    ((w.markInputAsLocked keyImage).inputs.map g).Perm (w.inputs.map g) := by
  unfold markInputAsLocked
  split
  · rename_i input found
    simp only [map_inputs, map_append, map_singleton, ← append_assoc]
    apply List.Perm.append_right _
    refine List.Perm.trans ?_ ((perm_map_move found).symm.append_right _)
    rw [cons_append]
    exact perm_append_comm
  · exact List.Perm.refl _

variable (ignores : ∀ input spendHeight, g { input with spendHeight := spendHeight } = g input)
include ignores

theorem map_inputs_markInputAsSpent (keyImage : KeyImage) (spendHeight : Nat) :
    ((w.markInputAsSpent keyImage spendHeight).inputs.map g).Perm (w.inputs.map g) := by
  unfold markInputAsSpent
  split
  · rename_i input found
    simp only [map_inputs, map_append, map_singleton, ignores, ← append_assoc]
    apply perm_append_comm.trans
    simp only [append_assoc]
    exact (perm_map_move found).symm.append_right _
  · split
    · rename_i input found
      simp only [map_inputs, map_append, map_singleton, ignores, append_assoc]
      apply List.Perm.append_left _
      rw [← append_assoc]
      apply perm_append_comm.trans
      exact (perm_map_move found).symm.append_right _
    · exact List.Perm.refl _

theorem map_unspend (xs : List TransactionInput) : (xs.map unspend).map g = xs.map g := by
  rw [map_map]
  exact map_congr_left fun input _ => ignores input 0

theorem map_inputs_removeCancelledTransactions (cancelled : List Hash) :
    ((w.removeCancelledTransactions cancelled).inputs.map g).Perm (w.inputs.map g) := by
  simp only [map_inputs, removeCancelledTransactions, map_append, map_unspend ignores, append_assoc]
  apply List.Perm.append_left _
  rw [← append_assoc]
  apply List.Perm.append_right _
  rw [← map_append]
  exact (filter_append_perm _ w.lockedInputs).map g

theorem map_inputs_removeForkedInputs (forkHeight : Nat) (isViewWallet : Bool) :
    ((w.removeForkedInputs forkHeight isViewWallet).2.inputs.map g).Subperm (w.inputs.map g) := by
  have kept : ∀ xs : List TransactionInput, ((xs.filter fun input =>
      !decide (forkHeight ≤ input.blockHeight)).map g).Subperm (xs.map g) :=
    fun xs => (filter_sublist.map g).subperm
  -- what was taken back and what stays spent make up the spent outputs below the fork
  have returned := (filter_append_perm (fun input => decide (forkHeight ≤ input.spendHeight))
    (w.spentInputs.filter fun input => !decide (forkHeight ≤ input.blockHeight))).map g
  simp only [map_inputs, removeForkedInputs, map_append, map_unspend ignores,
    append_assoc] at returned ⊢
  apply (kept _).append
  apply (perm_append_comm_assoc ..).subperm.trans
  exact (kept _).append (returned.subperm.trans (kept _))

end Held

end SubWallet

end DeroGold.Wallet
