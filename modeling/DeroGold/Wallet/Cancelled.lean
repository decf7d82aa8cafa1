import DeroGold.Wallet.Inputs
import DeroGold.Wallet.Owners

/-!
Transactions that were sent and that the daemon knows nothing of any more.

Sending locks inputs by their key images, and an input keeps the hash of the transaction it
was received in. `removeCancelledTransactions` returns the locked inputs that carry the hash
of the cancelled transaction, which is another one. So the inputs of a cancelled transaction
come back exactly where they are back already (`cancelled_frees_iff`); in the ordinary run
they stay locked, while the transaction is forgotten (`Sample.cancelled_stays_locked`).

What sending locks is recorded beside the backend, not in it.
-/

namespace DeroGold.Wallet

open List TransitionSystem SubWallet SubWallets Keyed

/-! ### What sending has locked -/

namespace SubWallets

/-- Unspent outputs of a subwallet with a key image. -/
def unspentWith (publicKey : PublicKey) (keyImage : KeyImage) (c : SubWallets) : Nat :=
  ((c.find publicKey).elim [] SubWallet.unspentInputs).countP (TransactionInput.hasKeyImage keyImage)

/-- Locked outputs of a subwallet with a key image that carry a hash. -/
def lockedWith (publicKey : PublicKey) (keyImage : KeyImage) (hash : Hash) (c : SubWallets) : Nat :=
  ((c.find publicKey).elim [] SubWallet.lockedInputs).countP fun input =>
    input.hasKeyImage keyImage && decide (input.parentTransactionHash = hash)

end SubWallets

/-- A backend, and the inputs that each sent transaction has locked and that have not been
seen spent in a block since. -/
structure History where
  backend : Backend
  /-- The transaction whose inputs are being locked. -/
  sent : Hash
  outstanding : List (Hash × PublicKey × KeyImage)

namespace History

/-- The input that the next call of the sending thread locks. -/
def locks (b : Backend) : Action → List (PublicKey × KeyImage)
  | .sendNext =>
    match b.sending with
    | .markInputAsLocked keyImage publicKey :: _ =>
      if b.subWallets.unspentWith publicKey keyImage ≠ 0 then [(publicKey, keyImage)] else []
    | _ => []
  | _ => []

def spentBy : Call → Option (PublicKey × KeyImage)
  | .markInputAsSpent keyImage publicKey _ => some (publicKey, keyImage)
  | _ => none

/-- Inputs that a step marks as spent. Work on the subwallets completes the block at hand. -/
def spends (b : Backend) : Action → List (PublicKey × KeyImage)
  | .next => ((b.scanning.getD []).take 1).filterMap spentBy
  | .addSubWallet _ _ | .importSubWallet _ _ | .importViewSubWallet _ _ | .deleteSubWallet _
  | .reset _ => (b.scanning.getD []).filterMap spentBy
  | .download _ | .process _ | .send _ | .sendNext | .cancelled _ => []

def step (env : WalletEnv) (h : History) (action : Action) : History :=
  if h.backend.thrown.isSome then h
  else
    { backend := h.backend.step env action
      sent := match action with
        | .send sent =>
          if h.backend.sending = [] ∧ ¬ h.backend.subWallets.isViewWallet then sent.hash else h.sent
        | _ => h.sent
      outstanding :=
        (h.outstanding ++ (locks h.backend action).map fun input => (h.sent, input)).filter
          fun entry => decide (entry.2 ∉ spends h.backend action) }

def initial (b : Backend) : History := ⟨b, 0, []⟩

def after (env : WalletEnv) (b : Backend) (actions : List Action) : History :=
  run (step env) (initial b) actions

/-- Inputs that were locked when the transaction was sent and have not been seen spent. -/
def lockedBy (hash : Hash) (h : History) : List (PublicKey × KeyImage) :=
  (h.outstanding.filter fun entry => decide (entry.1 = hash)).map Prod.snd

end History

/-! ### Cancelling -/

/-- Every input that the transaction has locked and that was not seen spent is unspent and
counted once, and no change of the transaction is expected. -/
structure FreesInputs (hash : Hash) (locked : List (PublicKey × KeyImage)) (c : SubWallets) : Prop where
  unspent : ∀ input ∈ locked, c.unspentWith input.1 input.2 = 1
  change : ∀ w ∈ c.subWallets, ∀ change ∈ w.unconfirmedIncomingAmounts,
    change.parentTransactionHash ≠ hash

namespace SubWallets

variable {c c' : SubWallets} {hash : Hash}

theorem removeCancelledTransactions_eq_ok {cancelled : List Hash}
    (removed : c.removeCancelledTransactions cancelled = .ok c') :
    c'.subWallets = c.subWallets.map (·.removeCancelledTransactions cancelled) := by
  unfold removeCancelledTransactions at removed
  split at removed
  · cases removed
  · cases removed
    rfl

section

variable (removed : c.removeCancelledTransactions [hash] = .ok c')
include removed

/-- Cancelling returns the locked outputs that carry the hash. -/
theorem unspentWith_removeCancelledTransactions (publicKey : PublicKey) (keyImage : KeyImage) :
    c'.unspentWith publicKey keyImage =
      c.unspentWith publicKey keyImage + c.lockedWith publicKey keyImage hash := by
  have looked : lookup publicSpendKey publicKey c'.subWallets =
      (lookup publicSpendKey publicKey c.subWallets).map
        (·.removeCancelledTransactions [hash]) := by
    rw [removeCancelledTransactions_eq_ok removed]
    exact lookup_map fun _ _ => rfl
  unfold unspentWith lockedWith find
  rw [looked]
  cases lookup publicSpendKey publicKey c.subWallets with
  | none => rfl
  | some w =>
    rw [Option.map_some, Option.elim_some, Option.elim_some, Option.elim_some,
      SubWallet.removeCancelledTransactions, countP_append, countP_map, countP_filter]
    refine congrArg _ (countP_congr fun input _ => ?_)
    simp only [Function.comp, TransactionInput.hasKeyImage_unspend, Bool.and_eq_true,
      decide_eq_true_eq, mem_singleton]

theorem not_mem_change_removeCancelledTransactions :
    ∀ w ∈ c'.subWallets, ∀ change ∈ w.unconfirmedIncomingAmounts,
      change.parentTransactionHash ≠ hash := by
  intro w mem change change_mem
  rw [removeCancelledTransactions_eq_ok removed] at mem
  obtain ⟨w, -, rfl⟩ := mem_map.1 mem
  have kept := of_decide_eq_true (mem_filter.1 change_mem).2
  exact fun same => kept (mem_singleton.2 same)

theorem freesInputs_iff (locked : List (PublicKey × KeyImage)) :
    FreesInputs hash locked c' ↔ ∀ input ∈ locked,
      c.unspentWith input.1 input.2 + c.lockedWith input.1 input.2 hash = 1 := by
  constructor
  · intro frees input mem
    rw [← unspentWith_removeCancelledTransactions removed]
    exact frees.unspent input mem
  · intro counted
    refine ⟨fun input mem => ?_, not_mem_change_removeCancelledTransactions removed⟩
    rw [unspentWith_removeCancelledTransactions removed]
    exact counted input mem

end

end SubWallets

/-! ### Runs -/

/-- A block that is begun does not contain the transaction. -/
def NotContains (env : WalletEnv) (hash : Hash) (b : Backend) : Action → Prop
  | .process _ =>
    ∀ block ∈ b.storedBlocks.head?, ∀ tx ∈ scannedTransactions env block, tx.hash ≠ hash
  | _ => True

/-- No output carries the hash of a transaction that no block contained. -/
theorem kept_notCarried (env : WalletEnv) (hash : Hash) :
    Kept env (HeldWith (·.parentTransactionHash) (hash ∉ ·)) (NotContains env hash) := by
  refine kept_held (fun _ _ => rfl) (fun fewer absent mem => absent (fewer.subset mem))
    (fun _ _ => rfl) ?_
  intro b indexOf block rest found outside stored found_eq absent mem
  obtain there | new := mem_append.1 mem
  · exact absent there
  · obtain ⟨owned, owned_mem, carries⟩ := mem_map.1 new
    obtain ⟨-, tx, tx_mem, parent⟩ := found_spec found_eq owned_mem
    exact outside block (by rw [stored]; rfl) tx tx_mem (parent.symm.trans carries)

/-- A wallet that can spend stays one. -/
theorem kept_standard (env : WalletEnv) :
    Kept env (fun c _ => c.isViewWallet = false) fun _ _ => True where
  called := fun standard performed => (sameSubWallets_perform performed).isViewWallet.trans standard
  sent := fun _ standard performed => (sameSubWallets_perform performed).isViewWallet.trans standard
  converted := fun _ _ standard => standard
  cancelled := fun standard removed =>
    (SubWallets.SameSubWallets.removeCancelledTransactions removed).isViewWallet.trans standard
  added := fun _ _ _ _ _ standard => standard
  reset := fun _ standard => standard
  scanned := fun _ _ _ _ _ standard =>
    (SubWallets.SameSubWallets.prepare _ _ _).isViewWallet.trans standard
  deleted := fun _ standard deleted =>
    (deleteSubWallet_eq_ok deleted).2.2.2.1.trans standard

theorem SubWallets.lockedWith_eq_zero {c : SubWallets} {hash : Hash}
    (absent : hash ∉ c.held (·.parentTransactionHash)) (publicKey : PublicKey) (keyImage : KeyImage) :
    c.lockedWith publicKey keyImage hash = 0 := by
  unfold lockedWith find
  cases found : lookup publicSpendKey publicKey c.subWallets with
  | none => rfl
  | some w =>
    refine countP_eq_zero.2 fun input mem counted => absent ?_
    have carries : input.parentTransactionHash = hash := by
      simpa using (Bool.and_eq_true_iff.1 counted).2
    have held : input ∈ w.inputs := by
      rw [inputs, append_assoc]
      exact mem_append_right _ (mem_append_left _ mem)
    exact carries ▸ mem_flatMap.2 ⟨w, mem_of_lookup found, mem_map_of_mem held⟩

/-- Cancelling a transaction frees its inputs exactly where each of them is unspent already
or is locked under the hash of the transaction. Where no block contained the transaction,
none is locked so, and cancelling frees nothing that was not free. -/
theorem cancelled_frees_iff (env : WalletEnv) (privateSpendKey privateViewKey : SecretKey)
    (address : Address) (scanHeight timestamp startHeight startTimestamp : Nat)
    (actions : List Action) (hash : Hash) :
    let b : Backend :=
      .initial (.new env.crypto privateSpendKey privateViewKey address scanHeight timestamp)
        startHeight startTimestamp
    let c := (b.after env actions).subWallets
    let locked := (History.after env b actions).lockedBy hash
    ∃ c', c.removeCancelledTransactions [hash] = .ok c' ∧
      (FreesInputs hash locked c' ↔ ∀ input ∈ locked,
        c.unspentWith input.1 input.2 + c.lockedWith input.1 input.2 hash = 1) ∧
      (Along (Backend.step env) (NotContains env hash) b actions →
        (FreesInputs hash locked c' ↔ ∀ input ∈ locked, c.unspentWith input.1 input.2 = 1)) := by
  intro b c locked
  have idle : ∀ call ∈ b.sending, call.IsSend := forall_mem_nil _
  have standard : c.isViewWallet = false :=
    ((kept_standard env).run (b := b) ⟨rfl, idle⟩ (along_true b actions)).holds
  obtain ⟨c', removed⟩ : ∃ c', c.removeCancelledTransactions [hash] = .ok c' :=
    ⟨_, if_neg (Bool.eq_false_iff.1 standard)⟩
  have counts := freesInputs_iff removed locked
  refine ⟨c', removed, counts, fun outside => ?_⟩
  have absent : hash ∉ c.held (·.parentTransactionHash) := fun mem =>
    ((kept_notCarried env hash).run (b := b) ⟨not_mem_nil, idle⟩ outside).holds
      (mem_append_left _ mem)
  rw [counts]
  refine forall₂_congr fun input _ => ?_
  rw [lockedWith_eq_zero absent, Nat.add_zero]

namespace Sample

/-- A wallet that has received one payment. -/
def paid : List Action := takeIn [block 1 10 [payment 11 5 4000 1 []]]

/-- The input that is selected for sending 3000. -/
def chosen : TxInputAndOwner where
  input :=
    { keyImage := 7501
      amount := 4000
      blockHeight := 1
      transactionPublicKey := 5
      transactionIndex := 0
      globalOutputIndex := some 0
      key := 7001
      spendHeight := 0
      unlockTime := 0
      parentTransactionHash := 11 }
  publicSpendKey := 1
  privateSpendKey := 1

/-- A transaction that spends it, with change. -/
def spends : SentTransaction where
  hash := 77
  fee := 10
  paymentID := ""
  ourInputs := [chosen]
  changeAddress := 1
  changeRequired := 990
  outputs := [⟨10001, 990, none⟩, ⟨99999, 3000, none⟩]
  txPublicKey := 8
  txSecretKey := 88

/-- The transaction is sent, and the daemon then knows nothing of it. -/
def sentAndCancelled : List Action :=
  paid ++ .send spends :: List.replicate 4 .sendNext ++ [.cancelled [77]]

/-- The input was selected from the unspent ones and locked. After cancelling it is not
unspent, the balance is zero and the transaction is forgotten. -/
theorem cancelled_stays_locked :
    (fresh.after env paid).subWallets.getTransactionInputsForAmount id 0 3010 true [] 1 =
      .ok ([chosen], 4000) ∧
    (History.after env fresh sentAndCancelled).lockedBy 77 = [(1, 7501)] ∧
    ¬ FreesInputs 77 [(1, 7501)] (fresh.after env sentAndCancelled).subWallets ∧
    (fresh.after env sentAndCancelled).subWallets.getBalances 0 1 = [(1, 0, 0)] ∧
    (fresh.after env sentAndCancelled).subWallets.lockedTransactions = [] := by
  refine ⟨by rfl, by decide +kernel, fun frees => ?_, by decide +kernel, by decide +kernel⟩
  have missing : (fresh.after env sentAndCancelled).subWallets.unspentWith 1 7501 = 0 := by
    decide +kernel
  have counted := frees.unspent (1, 7501) mem_cons_self
  cases missing.symm.trans counted

end Sample

end DeroGold.Wallet
