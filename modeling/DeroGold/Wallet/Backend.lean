import DeroGold.Lib.Run
import DeroGold.Wallet.Synchronizer

/-!
The wallet backend as a system of threads.

One thread downloads blocks, one takes them in, one sends transactions. A step is one call
to the container, so every order in which the calls of the threads can come is a run. Work
on the subwallets themselves (adding, importing, deleting, resetting) stops the threads
that synchronise first: the block at hand is taken in completely before.

What the daemon answers is part of the actions and not restricted here.
-/

namespace DeroGold.Wallet

open List TransitionSystem

/-! ### Remembered blocks -/

def lastKnownBlockHashesSize : Nat := 50
def blockHashCheckpointsInterval : Nat := 5000

structure SynchronizationStatus where
  blockHashCheckpoints : List Hash
  /-- Newest first. -/
  lastKnownBlockHashes : List Hash
  lastKnownBlockHeight : Nat
  lastSavedCheckpointAt : Nat
  deriving DecidableEq

namespace SynchronizationStatus

def empty : SynchronizationStatus := ⟨[], [], 0, 0⟩

/-- A hash is not stored twice in a row only if it is the oldest one. -/
def storeBlockHash (hash : Hash) (height : Nat) (status : SynchronizationStatus) :
    SynchronizationStatus :=
  let status := { status with lastKnownBlockHeight := height }
  if status.lastKnownBlockHashes.getLast? = some hash then status
  else
    let status :=
      if status.lastSavedCheckpointAt + blockHashCheckpointsInterval < height then
        { status with
          lastSavedCheckpointAt := height
          blockHashCheckpoints := hash :: status.blockHashCheckpoints }
      else status
    let hashes := hash :: status.lastKnownBlockHashes
    { status with
      lastKnownBlockHashes :=
        if lastKnownBlockHashesSize < hashes.length then hashes.dropLast else hashes }

end SynchronizationStatus

/-- The top block, sent when there are no blocks to send. -/
structure TopBlock where
  hash : Hash
  height : Nat
  deriving DecidableEq

/-- What a daemon answers to a request for blocks; `none` when the request fails. -/
structure SyncAnswer where
  localDaemonBlockCount : Nat
  data : Option (List WalletBlockInfo × Option TopBlock)
  deriving DecidableEq

/-- A transaction that the daemon has accepted for relay, with what sending it chose. -/
structure SentTransaction where
  hash : Hash
  fee : Nat
  paymentID : String
  ourInputs : List TxInputAndOwner
  changeAddress : Address
  changeRequired : Amount
  outputs : List KeyOutput
  txPublicKey : PublicKey
  txSecretKey : SecretKey
  deriving DecidableEq

structure Backend where
  subWallets : SubWallets
  /-- Downloaded and not yet taken in, oldest first. -/
  storedBlocks : List WalletBlockInfo
  status : SynchronizationStatus
  startHeight : Nat
  startTimestamp : Nat
  /-- Calls left for the first stored block while it is being taken in. -/
  scanning : Option (List Call)
  /-- Calls left for the transaction that is being sent. -/
  sending : List Call
  /-- Exception that ended the synchronisation thread. -/
  thrown : Option WalletException

inductive Action where
  | download (answer : SyncAnswer)
  /-- Begin to take the next block in, with the daemon's answers for output indexes. -/
  | process (indexOf : Hash → Nat → Option Nat)
  /-- The synchronisation thread's next call. -/
  | next
  | send (sent : SentTransaction)
  /-- The sending thread's next call. -/
  | sendNext
  /-- The daemon knows nothing of these locked transactions. -/
  | cancelled (hashes : List Hash)
  | addSubWallet (spendKey : SecretKey) (timestamp : Nat)
  | importSubWallet (privateSpendKey : SecretKey) (scanHeight : Nat)
  | importViewSubWallet (publicSpendKey : PublicKey) (scanHeight : Nat)
  | deleteSubWallet (address : Address)
  | reset (scanHeight : Nat)

namespace Backend

variable (env : WalletEnv)

/-- A wallet that has seen nothing. -/
def initial (subWallets : SubWallets) (startHeight startTimestamp : Nat) : Backend where
  subWallets := subWallets
  storedBlocks := []
  status := .empty
  startHeight := startHeight
  startTimestamp := startTimestamp
  scanning := none
  sending := []
  thrown := none

/-! ### Downloading -/

variable (b : Backend)

def downloadBlocks (answer : SyncAnswer) : Backend :=
  if answer.localDaemonBlockCount < b.status.lastKnownBlockHeight then b
  else match answer.data with
    | none => b
    | some ([], topBlock) =>
      -- only when no block waits to be taken in
      if b.storedBlocks = [] then
        match topBlock with
        | some top => { b with status := b.status.storeBlockHash top.hash top.height }
        | none => b
      else b
    | some (first :: rest, _) =>
      let b := if b.startTimestamp ≠ 0 then
          { b with
            startTimestamp := 0
            startHeight := first.blockHeight
            subWallets := b.subWallets.convertSyncTimestampToHeight 0 first.blockHeight }
        else b
      { b with storedBlocks := b.storedBlocks ++ first :: rest }

/-! ### Taking blocks in -/

/-- The block has been taken in. -/
def dropBlock : Backend :=
  match b.storedBlocks with
  | [] => { b with scanning := none }
  | block :: rest =>
    { b with
      storedBlocks := rest
      status := b.status.storeBlockHash block.blockHash block.blockHeight
      scanning := none }

def beginBlock (indexOf : Hash → Nat → Option Nat) : Backend :=
  match b.scanning, b.storedBlocks with
  | none, block :: _ =>
    match processBlockOutputs env b.subWallets block with
    | .error e => { b with thrown := some e }
    | .ok found =>
      match fillGlobalIndexes b.subWallets.isViewWallet indexOf found with
      | none => b
      | some ourInputs =>
        let c := prepare b.status.lastKnownBlockHeight block.blockHeight b.subWallets
        { b with subWallets := c, scanning := some (scanCalls env c block ourInputs) }
  | _, _ => b

/-- The next call for the block at hand; when there is none left the block is dropped. -/
def nextCall : Backend :=
  match b.thrown, b.scanning with
  | none, some [] => b.dropBlock
  | none, some (call :: calls) =>
    match call.perform b.subWallets with
    | .ok c => { b with subWallets := c, scanning := some calls }
    | .error e => { b with thrown := some e }
  | _, _ => b

/-- Stop the synchronisation: its thread ends after the block at hand. -/
def stop : Backend :=
  match b.scanning with
  | none => b
  | some calls => nextCall^[calls.length + 1] b

/-! ### Sending -/

/-- Change that comes back to the wallet. -/
def unconfirmedIncomingInputs (c : SubWallets) (sent : SentTransaction) :
    List (UnconfirmedInput × PublicKey) :=
  let derivation := env.crypto.generateKeyDerivation sent.txPublicKey c.privateViewKey
  sent.outputs.zipIdx.filterMap fun (output, outputIndex) =>
    let spendKey := env.crypto.underivePublicKey derivation outputIndex output.key
    if spendKey ∈ c.publicSpendKeys then some (⟨output.amount, output.key, sent.hash⟩, spendKey)
    else none

/-- The transaction as the wallet lists it until a block contains it. -/
def unconfirmedTransaction (sent : SentTransaction) : Transaction :=
  let taken := sent.ourInputs.foldl (fun transfers owned =>
    addTransfer transfers owned.publicSpendKey (-(owned.input.amount : Int))) []
  { transfers :=
      if sent.changeRequired ≠ 0 then
        addTransfer taken (env.crypto.addressToKeys sent.changeAddress).1 sent.changeRequired
      else taken
    hash := sent.hash
    fee := sent.fee
    timestamp := 0
    blockHeight := 0
    paymentID := sent.paymentID
    unlockTime := 0
    isCoinbaseTransaction := false }

/-- The calls after a transaction has been relayed: the locks are the last ones. -/
def sendCalls (c : SubWallets) (sent : SentTransaction) : List Call :=
  [.addUnconfirmedTransaction (unconfirmedTransaction env sent)] ++
    ((unconfirmedIncomingInputs env c sent).map fun change =>
      .storeUnconfirmedIncomingInput change.1 change.2) ++
    [.storeTxPrivateKey sent.txSecretKey sent.hash] ++
    sent.ourInputs.map fun owned => .markInputAsLocked owned.input.keyImage owned.publicSpendKey

/-- An exception here goes to whoever asked for the transaction to be sent. -/
def nextSendCall : Backend :=
  match b.sending with
  | [] => b
  | call :: calls =>
    match call.perform b.subWallets with
    | .ok c => { b with subWallets := c, sending := calls }
    | .error _ => { b with sending := [] }

/-! ### The system -/

/-- `WalletSynchronizer::reset` -/
def resetSynchronizer (startHeight : Nat) : Backend :=
  { b with storedBlocks := [], status := .empty, startHeight := startHeight, startTimestamp := 0 }

/-- Put the container that an operation answers in place; a refusal changes nothing. -/
def adopt : Except WalletError SubWallets → Backend
  | .ok c => { b with subWallets := c }
  | .error _ => b

/-- After an import, scan again from a height that has been passed. -/
def adoptImported (scanHeight : Nat) : Except WalletError (Address × SubWallets) → Backend
  | .ok (_, c) =>
    if scanHeight ≤ b.status.lastKnownBlockHeight then
      { b.resetSynchronizer scanHeight with subWallets := c.reset scanHeight }
    else { b with subWallets := c }
  | .error _ => b

/-- An operation on the subwallets, with the synchronisation stopped. -/
def paused (operation : Backend → Backend) : Backend :=
  if b.stop.thrown.isSome then b.stop else operation b.stop

/-- An exception in the synchronisation thread ends the program. -/
def step (action : Action) : Backend :=
  if b.thrown.isSome then b
  else match action with
    | .download answer => b.downloadBlocks answer
    | .process indexOf => b.beginBlock env indexOf
    | .next => b.nextCall
    | .send sent =>
      if b.sending = [] ∧ ¬ b.subWallets.isViewWallet then
        { b with sending := sendCalls env b.subWallets sent }
      else b
    | .sendNext => b.nextSendCall
    | .cancelled hashes =>
      -- asked for by the thread that takes blocks in, between two blocks
      if b.scanning = none ∧ b.subWallets.lockedTransactions ≠ [] then
        match b.subWallets.removeCancelledTransactions hashes with
        | .ok c => { b with subWallets := c }
        | .error _ => b
      else b
    | .addSubWallet spendKey timestamp => b.paused fun b =>
      b.adopt ((b.subWallets.addSubWallet env.crypto spendKey timestamp).map (·.2.2))
    | .importSubWallet privateSpendKey scanHeight => b.paused fun b =>
      b.adoptImported scanHeight (b.subWallets.importSubWallet env.crypto privateSpendKey scanHeight)
    | .importViewSubWallet publicSpendKey scanHeight => b.paused fun b =>
      b.adoptImported scanHeight
        (b.subWallets.importViewSubWallet env.crypto publicSpendKey scanHeight)
    | .deleteSubWallet address => b.paused fun b =>
      b.adopt (b.subWallets.deleteSubWallet env.crypto address)
    | .reset scanHeight => b.paused fun b =>
      { b.resetSynchronizer scanHeight with subWallets := b.subWallets.reset scanHeight }

/-- State after a run of actions. -/
def after (actions : List Action) : Backend :=
  run (step env) b actions

end Backend

/-! ### What a run keeps -/

/-- Calls of the sending thread. -/
def Call.IsSend : Call → Prop
  | .addUnconfirmedTransaction _ | .storeUnconfirmedIncomingInput _ _ => True
  | .storeTxPrivateKey _ _ | .markInputAsLocked _ _ => True
  | .addTransaction _ | .storeTransactionInput _ _ | .markInputAsSpent _ _ _ => False

/-- What keeps a property of the container and of the calls left for the block at hand.
The conditions are needed where a block is begun and where a subwallet is deleted. -/
structure Kept (env : WalletEnv) (I : SubWallets → List Call → Prop)
    (ok : Backend → Action → Prop) : Prop where
  called : ∀ {c c' : SubWallets} {call : Call} {calls : List Call}, I c (call :: calls) →
    call.perform c = .ok c' → I c' calls
  sent : ∀ {c c' : SubWallets} {call : Call} {calls : List Call}, call.IsSend → I c calls →
    call.perform c = .ok c' → I c' calls
  converted : ∀ {c : SubWallets} {calls : List Call} (timestamp height : Nat), I c calls →
    I (c.convertSyncTimestampToHeight timestamp height) calls
  cancelled : ∀ {c c' : SubWallets} {hashes : List Hash}, I c [] →
    c.removeCancelledTransactions hashes = .ok c' → I c' []
  added : ∀ {c : SubWallets} (key : PublicKey) (secretKey : SecretKey) (address : Address)
    (scanHeight timestamp : Nat), I c [] →
      I (c.addWallet (.new key secretKey address scanHeight timestamp false)) []
  reset : ∀ {c : SubWallets} (scanHeight : Nat), I c [] → I (c.reset scanHeight) []
  scanned : ∀ {b : Backend} {indexOf : Hash → Nat → Option Nat} {block : WalletBlockInfo}
    {rest : List WalletBlockInfo} {found ourInputs : BlockInputsAndOwners},
    ok b (.process indexOf) → b.scanning = none → b.storedBlocks = block :: rest →
    processBlockOutputs env b.subWallets block = .ok found →
    fillGlobalIndexes b.subWallets.isViewWallet indexOf found = some ourInputs →
    I b.subWallets [] →
    I (prepare b.status.lastKnownBlockHeight block.blockHeight b.subWallets)
      (scanCalls env (prepare b.status.lastKnownBlockHeight block.blockHeight b.subWallets) block
        ourInputs)
  deleted : ∀ {b : Backend} {address : Address} {c' : SubWallets},
    ok b (.deleteSubWallet address) → I b.stop.subWallets [] →
    b.stop.subWallets.deleteSubWallet env.crypto address = .ok c' → I c' []

namespace Backend

/-- The property holds, and the sending thread has only calls of its own left. -/
structure Holds (I : SubWallets → List Call → Prop) (b : Backend) : Prop where
  holds : I b.subWallets (b.scanning.getD [])
  sends : ∀ call ∈ b.sending, call.IsSend

theorem isSend_of_mem_sendCalls {env : WalletEnv} {c : SubWallets} {sent : SentTransaction}
    {call : Call} (mem : call ∈ sendCalls env c sent) : call.IsSend := by
  simp only [sendCalls, append_assoc, mem_append, mem_singleton, mem_map] at mem
  obtain rfl | ⟨change, -, rfl⟩ | rfl | ⟨owned, -, rfl⟩ := mem <;> trivial

theorem dropBlock_spec (b : Backend) : b.dropBlock.scanning = none ∧
    b.dropBlock.subWallets = b.subWallets ∧ b.dropBlock.sending = b.sending ∧
    b.dropBlock.thrown = b.thrown := by
  unfold dropBlock
  split <;> exact ⟨rfl, rfl, rfl, rfl⟩

theorem thrown_of_iterate_nextCall {n : Nat} {b : Backend} (fine : (nextCall^[n] b).thrown = none) :
    b.thrown = none := by
  cases thrown : b.thrown with
  | none => rfl
  | some e =>
    rw [Function.iterate_fixed (by simp only [nextCall, thrown]) n, thrown] at fine
    cases fine

/-- All calls of the block at hand are made, or one of them throws. -/
theorem scanning_iterate_nextCall {calls : List Call} {b : Backend}
    (at_hand : b.scanning = some calls) (fine : (nextCall^[calls.length + 1] b).thrown = none) :
    (nextCall^[calls.length + 1] b).scanning = none := by
  have alive := thrown_of_iterate_nextCall fine
  induction calls generalizing b with
  | nil =>
    change b.nextCall.scanning = none
    simp only [nextCall, alive, at_hand]
    exact (dropBlock_spec b).1
  | cons call calls ih =>
    rw [length_cons, Function.iterate_succ_apply] at fine ⊢
    have alive' := thrown_of_iterate_nextCall fine
    refine ih ?_ fine alive'
    cases result : call.perform b.subWallets with
    | ok c => simp only [nextCall, alive, at_hand, result]
    | error e => simp only [nextCall, alive, at_hand, result, reduceCtorEq] at alive'

theorem scanning_stop {b : Backend} (fine : b.stop.thrown = none) : b.stop.scanning = none := by
  unfold stop at fine ⊢
  split at fine
  · assumption
  · rename_i calls at_hand
    exact scanning_iterate_nextCall at_hand fine

end Backend

namespace Kept

open Backend

variable {env : WalletEnv} {I : SubWallets → List Call → Prop} {ok : Backend → Action → Prop}
  {b : Backend}

section

variable (kept : Kept env I ok) (h : b.Holds I)
include kept h

theorem nextCall : b.nextCall.Holds I := by
  unfold Backend.nextCall
  split
  · rename_i at_hand
    obtain ⟨scanning, subWallets, sending, -⟩ := dropBlock_spec b
    refine ⟨?_, sending ▸ h.sends⟩
    have holds := h.holds
    rw [at_hand] at holds
    rw [scanning, subWallets]
    exact holds
  · rename_i call calls at_hand
    have holds := h.holds
    rw [at_hand] at holds
    split
    · rename_i c performed
      exact ⟨kept.called holds performed, h.sends⟩
    · exact ⟨h.holds, h.sends⟩
  · exact h

theorem stop : b.stop.Holds I := by
  unfold Backend.stop
  split
  · exact h
  · exact Function.Iterate.rec (Backend.Holds I) h (fun _ h => kept.nextCall h) _

theorem downloadBlocks (answer : SyncAnswer) : (b.downloadBlocks answer).Holds I := by
  unfold Backend.downloadBlocks
  split
  · exact h
  · split
    · exact h
    · split
      · split <;> exact ⟨h.holds, h.sends⟩
      · exact h
    · dsimp only
      split
      · exact ⟨kept.converted _ _ h.holds, h.sends⟩
      · exact ⟨h.holds, h.sends⟩

theorem beginBlock {indexOf : Hash → Nat → Option Nat} (meets : ok b (.process indexOf)) :
    (b.beginBlock env indexOf).Holds I := by
  unfold Backend.beginBlock
  split
  · rename_i block rest idle stored
    split
    · exact ⟨h.holds, h.sends⟩
    · rename_i found found_eq
      split
      · exact h
      · rename_i ourInputs filled
        have holds := h.holds
        rw [idle] at holds
        exact ⟨kept.scanned meets idle stored found_eq filled holds, h.sends⟩
  · exact h

theorem nextSendCall : b.nextSendCall.Holds I := by
  unfold Backend.nextSendCall
  split
  · exact h
  · rename_i call calls left
    have rest : ∀ call ∈ calls, call.IsSend := fun other mem =>
      h.sends other (left ▸ mem_cons_of_mem call mem)
    split
    · rename_i c performed
      exact ⟨kept.sent (h.sends call (left ▸ mem_cons_self)) h.holds performed, rest⟩
    · exact ⟨h.holds, forall_mem_nil _⟩

/-- An operation with the synchronisation stopped finds no calls left. -/
theorem paused {operation : Backend → Backend}
    (keeps : b.stop.scanning = none → I b.stop.subWallets [] →
      (operation b.stop).Holds I) : (b.paused operation).Holds I := by
  have stopped := kept.stop h
  unfold Backend.paused
  split
  · exact stopped
  · rename_i fine
    have idle := scanning_stop (Option.not_isSome_iff_eq_none.1 fine)
    have holds := stopped.holds
    rw [idle] at holds
    exact keeps idle holds

end

theorem adoptImported (kept : Kept env I ok) {scanHeight : Nat} (idle : b.scanning = none)
    (holds : I b.subWallets []) (sends : ∀ call ∈ b.sending, call.IsSend)
    {result : Except WalletError (Address × SubWallets)}
    (imported : ∀ address c', result = .ok (address, c') → I c' []) :
    (b.adoptImported scanHeight result).Holds I := by
  unfold Backend.adoptImported
  split
  · rename_i address c'
    have fine := imported address c' rfl
    split
    · exact ⟨idle ▸ kept.reset scanHeight fine, sends⟩
    · exact ⟨idle ▸ fine, sends⟩
  · exact ⟨idle ▸ holds, sends⟩

/-- One step keeps the property. -/
theorem step (kept : Kept env I ok) (h : b.Holds I) {action : Action} (meets : ok b action) :
    (b.step env action).Holds I := by
  have sends := (kept.stop h).sends
  unfold Backend.step
  split
  · exact h
  · cases action with
    | download answer => exact kept.downloadBlocks h answer
    | process indexOf => exact kept.beginBlock h meets
    | next => exact kept.nextCall h
    | send sent =>
      dsimp only
      split
      · exact ⟨h.holds, fun call mem => isSend_of_mem_sendCalls mem⟩
      · exact h
    | sendNext => exact kept.nextSendCall h
    | cancelled hashes =>
      dsimp only
      split
      · rename_i idle
        split
        · rename_i c removed
          have holds := h.holds
          rw [idle.1] at holds
          refine ⟨?_, h.sends⟩
          rw [idle.1]
          exact kept.cancelled holds removed
        · exact h
      · exact h
    | addSubWallet spendKey timestamp =>
      refine kept.paused h fun idle holds => ?_
      unfold SubWallets.addSubWallet
      split
      · exact ⟨idle ▸ holds, sends⟩
      · exact ⟨idle ▸ kept.added _ _ _ _ _ holds, sends⟩
    | importSubWallet privateSpendKey scanHeight =>
      refine kept.paused h fun idle holds => kept.adoptImported idle holds sends ?_
      unfold SubWallets.importSubWallet
      intro address c' imported
      split at imported
      · cases imported
      · dsimp only at imported
        split at imported
        · cases imported
        · cases imported
          exact kept.added _ _ _ _ _ holds
    | importViewSubWallet publicSpendKey scanHeight =>
      refine kept.paused h fun idle holds => kept.adoptImported idle holds sends ?_
      unfold SubWallets.importViewSubWallet
      intro address c' imported
      split at imported
      · cases imported
      · split at imported
        · cases imported
        · cases imported
          exact kept.added _ _ _ _ _ holds
    | deleteSubWallet address =>
      refine kept.paused h fun idle holds => ?_
      cases deleted : b.stop.subWallets.deleteSubWallet env.crypto address with
      | error e => exact ⟨idle ▸ holds, sends⟩
      | ok c' => exact ⟨idle ▸ kept.deleted meets holds deleted, sends⟩
    | reset scanHeight =>
      exact kept.paused h fun idle holds => ⟨idle ▸ kept.reset scanHeight holds, sends⟩

/-- A run keeps the property. -/
theorem run (kept : Kept env I ok) (h : b.Holds I) {actions : List Action}
    (meets : Along (Backend.step env) ok b actions) : (b.after env actions).Holds I :=
  invariant_run (I := Backend.Holds I)
    (fun _ _ h meets => kept.step h meets) h meets

end Kept

/-! ### A small wallet -/

namespace Sample

/-- Keys are numbers and a derivation is added to them. -/
def crypto : WalletCrypto where
  secretKeyToPublicKey secretKey := secretKey
  generateKeyDerivation publicKey secretKey := publicKey + secretKey
  derivePublicKey derivation index publicKey := publicKey + 1000 * (derivation + index)
  deriveSecretKey derivation index secretKey := secretKey + 1000 * (derivation + index)
  underivePublicKey derivation index publicKey := publicKey - 1000 * (derivation + index)
  generateKeyImage publicKey _ := publicKey + 500
  addressToKeys address := (address, 2)
  privateKeysToAddress spendKey _ := spendKey
  publicKeysToAddress spendKey _ := spendKey

def env : WalletEnv := ⟨crypto, true, ⟨[], 0, 0, 0⟩⟩

/-- A new wallet with spend key `1` and view key `2`. -/
def fresh : Backend := .initial (.new crypto 1 2 1 0 0) 0 0

/-- A transaction that pays one output to a spend key, under a transaction public key. -/
def payment (hash : Hash) (transactionPublicKey : PublicKey) (amount : Amount)
    (spendKey : PublicKey) (keyInputs : List KeyInput) : RawTransaction where
  keyOutputs := [⟨crypto.derivePublicKey (transactionPublicKey + 2) 0 spendKey, amount, some 0⟩]
  hash := hash
  transactionPublicKey := transactionPublicKey
  unlockTime := 0
  paymentID := ""
  keyInputs := keyInputs

def block (height : Nat) (hash : Hash) (transactions : List RawTransaction) : WalletBlockInfo :=
  ⟨none, transactions, height, hash, 0⟩

/-- Download blocks and take them in. -/
def takeIn (blocks : List WalletBlockInfo) : List Action :=
  .download ⟨100, some (blocks, none)⟩ ::
    blocks.flatMap fun _ => .process (fun _ _ => none) :: List.replicate 8 .next

end Sample

end DeroGold.Wallet
