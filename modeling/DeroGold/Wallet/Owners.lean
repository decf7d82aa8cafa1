import DeroGold.Wallet.Backend

/-!
The owners of key images exist.

The index from key images to subwallets is filled as outputs arrive, and thinned out by
forks. Deleting a subwallet leaves its entries, and a block that spends one of them then
ends the synchronisation thread with an exception (`Sample.owner_deleted`). So owners exist,
and nothing is thrown, exactly as long as no subwallet is deleted that owns a key image
(`ownersExist_iff`).
-/

namespace DeroGold.Wallet

open List TransitionSystem SubWallets Backend Keyed

namespace SubWallets

def keys (c : SubWallets) : List PublicKey := c.subWallets.map SubWallet.publicSpendKey

/-- Every key image in the index names a subwallet that exists. -/
def OwnersExist (c : SubWallets) : Prop := ∀ entry ∈ c.keyImageOwners, entry.2 ∈ c.keys

instance (c : SubWallets) : Decidable c.OwnersExist :=
  inferInstanceAs (Decidable (∀ entry ∈ c.keyImageOwners, _))

theorem find_isSome {c : SubWallets} {publicKey : PublicKey} :
    (c.find publicKey).isSome ↔ publicKey ∈ c.keys :=
  lookup_isSome

/-- The subwallets are the same ones, and new owners are among them. -/
structure SameSubWallets (c c' : SubWallets) : Prop where
  keys : c'.keys = c.keys
  isViewWallet : c'.isViewWallet = c.isViewWallet
  publicSpendKeys : c'.publicSpendKeys = c.publicSpendKeys
  owners : ∀ entry ∈ c'.keyImageOwners,
    entry ∈ c.keyImageOwners ∨ (c.isViewWallet = false ∧ entry.2 ∈ c.keys)

namespace SameSubWallets

variable {c c' c'' : SubWallets}

theorem refl (c : SubWallets) : c.SameSubWallets c := ⟨rfl, rfl, rfl, fun _ mem => .inl mem⟩

theorem trans (first : c.SameSubWallets c') (second : c'.SameSubWallets c'') : c.SameSubWallets c'' where
  keys := second.keys.trans first.keys
  isViewWallet := second.isViewWallet.trans first.isViewWallet
  publicSpendKeys := second.publicSpendKeys.trans first.publicSpendKeys
  owners := by
    intro entry mem
    obtain there | ⟨standard, known⟩ := second.owners entry mem
    · exact first.owners entry there
    · exact .inr ⟨first.isViewWallet ▸ standard, first.keys ▸ known⟩

variable {f : SubWallet → SubWallet}

theorem update (c : SubWallets) {publicKey : PublicKey}
    {same : ∀ w, (f w).publicSpendKey = w.publicSpendKey} :
    c.SameSubWallets (c.update publicKey f same) :=
  ⟨map_key_modify fun w _ at_key => (same w).trans at_key, rfl, rfl, fun _ mem => .inl mem⟩

theorem updateAll (c : SubWallets)
    {same : ∀ w, (f w).publicSpendKey = w.publicSpendKey} : c.SameSubWallets (c.updateAll f same) :=
  ⟨map_key_map fun w _ => same w, rfl, rfl, fun _ mem => .inl mem⟩

theorem ownKeyImage {keyImage : KeyImage} {publicSpendKey : PublicKey}
    (known : publicSpendKey ∈ c.keys) :
    c.SameSubWallets (c.ownKeyImage keyImage publicSpendKey) where
  keys := rfl
  isViewWallet := rfl
  publicSpendKeys := rfl
  owners := by
    intro entry mem
    unfold SubWallets.ownKeyImage at mem
    dsimp only at mem
    split at mem
    · exact .inl mem
    · rename_i standard
      obtain rfl | there := mem_of_mem_assign mem
      · exact .inr ⟨Bool.eq_false_iff.2 standard, known⟩
      · exact .inl there

theorem removeForkedTransactions (c : SubWallets) (forkHeight : Nat) :
    c.SameSubWallets (c.removeForkedTransactions forkHeight) where
  keys := map_key_map fun _ _ => rfl
  isViewWallet := rfl
  publicSpendKeys := rfl
  owners := by
    intro entry mem
    refine .inl ?_
    unfold SubWallets.removeForkedTransactions at mem
    dsimp only at mem
    generalize c.subWallets.flatMap _ = dropped at mem
    generalize c.keyImageOwners = owners at mem
    induction dropped generalizing owners with
    | nil => exact mem
    | cons keyImage dropped ih => exact mem_of_mem_filter (ih _ mem)

theorem reset (c : SubWallets) (scanHeight : Nat) : c.SameSubWallets (c.reset scanHeight) where
  keys := map_key_map fun _ _ => rfl
  isViewWallet := rfl
  publicSpendKeys := rfl
  owners := fun _ mem => .inl mem

theorem removeCancelledTransactions {hashes : List Hash}
    (removed : c.removeCancelledTransactions hashes = .ok c') : c.SameSubWallets c' := by
  unfold SubWallets.removeCancelledTransactions at removed
  split at removed
  · cases removed
  · cases removed
    exact {
      keys := map_key_map fun _ _ => rfl
      isViewWallet := rfl
      publicSpendKeys := rfl
      owners := fun _ mem => .inl mem }

theorem prepare (walletHeight height : Nat) (c : SubWallets) :
    c.SameSubWallets (Wallet.prepare walletHeight height c) := by
  unfold Wallet.prepare
  dsimp only
  split <;> split
  · exact (removeForkedTransactions c height).trans (updateAll _)
  · exact updateAll c
  · exact removeForkedTransactions c height
  · exact refl c

end SameSubWallets

end SubWallets

/-! ### Calls that throw nothing -/

/-- The subwallet that a call is about exists. -/
def Call.Safe (c : SubWallets) : Call → Prop
  | .storeTransactionInput publicSpendKey _ => publicSpendKey ∈ c.keys
  | .markInputAsSpent _ publicKey _ | .markInputAsLocked _ publicKey =>
    c.isViewWallet = false ∧ publicKey ∈ c.keys
  | .addTransaction _ | .addUnconfirmedTransaction _ => True
  | .storeUnconfirmedIncomingInput _ _ | .storeTxPrivateKey _ _ => True

variable {c c' : SubWallets} {call : Call} {calls : List Call}

open SubWallets (SameSubWallets)

theorem sameSubWallets_perform (performed : call.perform c = .ok c') : c.SameSubWallets c' := by
  cases call with
  | addTransaction tx | storeTxPrivateKey txPrivateKey txHash =>
    cases performed
    exact ⟨rfl, rfl, rfl, fun _ mem => .inl mem⟩
  | storeTransactionInput publicSpendKey input =>
    unfold Call.perform storeTransactionInput at performed
    dsimp only at performed
    split at performed
    · rename_i w found
      cases performed
      exact (SameSubWallets.ownKeyImage (find_isSome.1 (by rw [found]; rfl))).trans (.update _)
    · cases performed
  | markInputAsSpent keyImage publicKey spendHeight | markInputAsLocked keyImage publicKey =>
    simp only [Call.perform, markInputAsSpent, markInputAsLocked] at performed
    split at performed
    · cases performed
    · split at performed
      · cases performed
        exact .update c
      · cases performed
  | addUnconfirmedTransaction tx =>
    cases performed
    unfold addUnconfirmedTransaction
    split <;> exact ⟨rfl, rfl, rfl, fun _ mem => .inl mem⟩
  | storeUnconfirmedIncomingInput input publicSpendKey =>
    cases performed
    exact .update c

theorem Call.Safe.perform (safe : call.Safe c) : ∃ c', call.perform c = .ok c' := by
  have exists_wallet : ∀ {publicKey}, publicKey ∈ c.keys → ∃ w, c.find publicKey = some w :=
    fun known => Option.isSome_iff_exists.1 (find_isSome.2 known)
  cases call with
  | addTransaction tx => exact ⟨_, rfl⟩
  | storeTransactionInput publicSpendKey input =>
    obtain ⟨w, found⟩ := exists_wallet safe
    exact ⟨_, by rw [Call.perform, SubWallets.storeTransactionInput, found]⟩
  | markInputAsSpent keyImage publicKey spendHeight =>
    obtain ⟨w, found⟩ := exists_wallet safe.2
    exact ⟨_, by rw [Call.perform, SubWallets.markInputAsSpent, safe.1, found]; rfl⟩
  | addUnconfirmedTransaction tx | storeUnconfirmedIncomingInput input publicSpendKey
  | storeTxPrivateKey txPrivateKey txHash => exact ⟨_, rfl⟩
  | markInputAsLocked keyImage publicKey =>
    obtain ⟨w, found⟩ := exists_wallet safe.2
    exact ⟨_, by rw [Call.perform, SubWallets.markInputAsLocked, safe.1, found]; rfl⟩

theorem Call.Safe.of_same (safe : call.Safe c) (same : c.SameSubWallets c') : call.Safe c' := by
  cases call <;> simp only [Call.Safe, same.keys, same.isViewWallet] at safe ⊢ <;> exact safe

/-- Owners exist, outputs are looked for under keys of subwallets, and the calls at hand
are about subwallets that exist. -/
structure OwnersKnown (c : SubWallets) (calls : List Call) : Prop where
  owners : c.OwnersExist
  spendKeys : ∀ publicKey ∈ c.publicSpendKeys, publicKey ∈ c.keys
  view : c.isViewWallet = true → c.keyImageOwners = []
  safe : ∀ call ∈ calls, call.Safe c

theorem OwnersKnown.of_same (known : OwnersKnown c calls) (same : c.SameSubWallets c')
    {calls' : List Call} (fewer : ∀ call ∈ calls', call ∈ calls) : OwnersKnown c' calls' where
  owners := by
    intro entry mem
    rw [same.keys]
    exact (same.owners entry mem).elim (known.owners entry) And.right
  spendKeys := by
    rw [same.keys, same.publicSpendKeys]
    exact known.spendKeys
  view := by
    intro view
    rw [same.isViewWallet] at view
    refine eq_nil_iff_forall_not_mem.2 fun entry mem => ?_
    obtain there | ⟨standard, -⟩ := same.owners entry mem
    · rw [known.view view] at there
      exact not_mem_nil there
    · cases view.symm.trans standard
  safe := fun call mem => (known.safe call (fewer call mem)).of_same same

/-! ### Blocks that throw nothing -/

section Block

variable {env : WalletEnv} {block : WalletBlockInfo} {found ourInputs : BlockInputsAndOwners}

theorem OwnersKnown.exists_found (known : OwnersKnown c calls) (env : WalletEnv)
    (block : WalletBlockInfo) : ∃ found, processBlockOutputs env c block = .ok found := by
  have output : ∀ tx derivation output index, ∃ found,
      processOutput env c tx block.blockHeight derivation output index = .ok found := by
    intro tx derivation output index
    unfold processOutput
    dsimp only
    split
    · rename_i ours
      obtain ⟨w, found⟩ := Option.isSome_iff_exists.1
        (find_isSome.2 (known.spendKeys _ ours))
      exact ⟨_, by rw [getTxInputKeyImage, found]; rfl⟩
    · exact ⟨_, rfl⟩
  have transaction : ∀ tx, ∃ found, processTransactionOutputs env c tx block.blockHeight = .ok found := by
    intro tx
    obtain ⟨perOutput, outputs⟩ := Checked.exists_mapM_ok fun (entry : KeyOutput × Nat)
        (_ : entry ∈ tx.keyOutputs.zipIdx) =>
      output tx (env.crypto.generateKeyDerivation tx.transactionPublicKey c.privateViewKey)
        entry.1 entry.2
    exact ⟨_, Checked.of_bind.2 ⟨_, outputs, rfl⟩⟩
  obtain ⟨perTransaction, scanned⟩ := Checked.exists_mapM_ok
    fun tx (_ : tx ∈ scannedTransactions env block) => transaction tx
  exact ⟨_, Checked.of_bind.2 ⟨_, scanned, rfl⟩⟩

theorem OwnersKnown.safe_scanCalls (known : OwnersKnown c [])
    (ours : ∀ owned ∈ ourInputs, owned.1 ∈ c.publicSpendKeys) :
    ∀ call ∈ scanCalls env c block ourInputs, call.Safe c := by
  intro call mem
  simp only [scanCalls, processBlockTransactions, mem_append, mem_map, mem_flatMap] at mem
  obtain (⟨tx, -, rfl⟩ | ⟨owned, owned_mem, rfl⟩) |
    ⟨spent, ⟨processed, ⟨tx, -, rfl⟩, spent_mem⟩, rfl⟩ := mem
  · trivial
  · exact known.spendKeys _ (ours owned owned_mem)
  · obtain ⟨entry, there, rfl⟩ := exists_owner_of_spent spent_mem
    refine ⟨Bool.eq_false_iff.2 fun view => ?_, known.owners _ there⟩
    rw [known.view view] at there
    exact not_mem_nil there

end Block

/-! ### Runs -/

/-- A subwallet that is deleted owns no key image in the index. -/
def KeepsOwners (env : WalletEnv) (b : Backend) : Action → Prop
  | .deleteSubWallet address =>
    ∀ w ∈ b.stop.subWallets.find (env.crypto.addressToKeys address).1, w.isPrimaryAddress = false →
      ∀ entry ∈ b.stop.subWallets.keyImageOwners, entry.2 ≠ (env.crypto.addressToKeys address).1
  | _ => True

theorem OwnersKnown.addWallet (known : OwnersKnown c []) (w : SubWallet) :
    OwnersKnown (c.addWallet w) [] := by
  have more : ∀ publicKey, publicKey ∈ c.keys ∨ publicKey = w.publicSpendKey →
      publicKey ∈ (c.addWallet w).keys := by
    intro publicKey mem
    rw [SubWallets.keys, SubWallets.addWallet, map_key_assign]
    split
    · exact mem.elim id fun same => same ▸ ‹_›
    · exact mem_append.2 (mem.imp id mem_singleton.2)
  exact {
    owners := fun entry mem => more _ (.inl (known.owners entry mem))
    spendKeys := fun publicKey mem => more _
      ((mem_append.1 mem).imp (known.spendKeys publicKey) mem_singleton.1)
    view := known.view
    safe := forall_mem_nil _ }

/-- What a deletion does, when it is not refused. -/
theorem SubWallets.deleteSubWallet_eq_ok {crypto : WalletCrypto} {address : Address}
    (deleted : c.deleteSubWallet crypto address = .ok c') :
    (∃ w, c.find (crypto.addressToKeys address).1 = some w ∧ w.isPrimaryAddress = false) ∧
    c'.keys = c.keys.filter (fun key => decide (key ≠ (crypto.addressToKeys address).1)) ∧
    c'.publicSpendKeys =
      c.publicSpendKeys.filter (fun key => decide (key ≠ (crypto.addressToKeys address).1)) ∧
    c'.isViewWallet = c.isViewWallet ∧ c'.keyImageOwners = c.keyImageOwners := by
  unfold deleteSubWallet at deleted
  dsimp only at deleted
  split at deleted
  · cases deleted
  · rename_i w found
    split at deleted
    · cases deleted
    · rename_i secondary
      cases deleted
      exact ⟨⟨w, found, Bool.eq_false_iff.2 secondary⟩, map_key_remove _ _, rfl, rfl, rfl⟩

theorem kept_ownersKnown (env : WalletEnv) : Kept env OwnersKnown (KeepsOwners env) where
  called := fun known performed =>
    known.of_same (sameSubWallets_perform performed) fun _ mem => mem_cons_of_mem _ mem
  sent := fun _ known performed =>
    known.of_same (sameSubWallets_perform performed) fun _ mem => mem
  converted := fun _ _ known => known.of_same (.updateAll _) fun _ mem => mem
  cancelled := fun known removed =>
    known.of_same (.removeCancelledTransactions removed) fun _ mem => mem
  added := fun _ _ _ _ _ known => known.addWallet _
  reset := fun scanHeight known => known.of_same (.reset _ scanHeight) fun _ mem => mem
  scanned := by
    intro b indexOf block rest found ourInputs _ idle stored found_eq filled known
    have same := SameSubWallets.prepare b.status.lastKnownBlockHeight block.blockHeight b.subWallets
    have prepared := known.of_same same (fun _ mem => mem)
    refine { prepared with safe := prepared.safe_scanCalls fun owned mem => ?_ }
    rw [same.publicSpendKeys]
    have owners : owned.1 ∈ found.map Prod.fst := by
      rw [← map_fillGlobalIndexes (fun _ _ _ => rfl) filled]
      exact mem_map_of_mem mem
    obtain ⟨first, first_mem, same_owner⟩ := mem_map.1 owners
    exact same_owner ▸ (found_spec found_eq first_mem).1
  deleted := by
    intro b address c' keeps known deleted
    obtain ⟨⟨w, found, secondary⟩, keys, spendKeys, view, owners⟩ := deleteSubWallet_eq_ok deleted
    have unowned := keeps w found secondary
    exact {
      owners := by
        intro entry mem
        rw [owners] at mem
        rw [keys, mem_filter]
        exact ⟨known.owners entry mem, decide_eq_true (unowned entry mem)⟩
      spendKeys := by
        intro publicKey mem
        rw [spendKeys, mem_filter] at mem
        rw [keys, mem_filter]
        exact ⟨known.spendKeys publicKey mem.1, mem.2⟩
      view := by
        rw [view, owners]
        exact known.view
      safe := forall_mem_nil _ }

namespace Backend

/-- Owners are known and nothing was thrown. -/
structure Sound (b : Backend) : Prop where
  holds : b.Holds OwnersKnown
  fine : b.thrown = none

namespace Sound

variable {env : WalletEnv} {b : Backend}

theorem nextCall (sound : b.Sound) (env : WalletEnv) : b.nextCall.Sound := by
  refine ⟨(kept_ownersKnown env).nextCall sound.holds, ?_⟩
  have safe := sound.holds.holds.safe
  unfold Backend.nextCall
  split
  · rw [(dropBlock_spec b).2.2.2]
    exact sound.fine
  · rename_i call calls fine at_hand
    rw [at_hand] at safe
    obtain ⟨c', performed⟩ := (safe call mem_cons_self).perform
    rw [performed]
    exact sound.fine
  · exact sound.fine

theorem stop (sound : b.Sound) (env : WalletEnv) : b.stop.Sound := by
  unfold Backend.stop
  split
  · exact sound
  · exact Function.Iterate.rec Sound sound (fun _ sound => sound.nextCall env) _

theorem thrown_beginBlock (sound : b.Sound) (env : WalletEnv) (indexOf : Hash → Nat → Option Nat) :
    (b.beginBlock env indexOf).thrown = none := by
  unfold beginBlock
  split
  · rename_i block rest idle stored
    obtain ⟨found, found_eq⟩ := sound.holds.holds.exists_found env block
    rw [found_eq]
    dsimp only
    split <;> exact sound.fine
  · exact sound.fine

theorem thrown_paused (sound : b.Sound) (env : WalletEnv) {operation : Backend → Backend}
    (quiet : ∀ b, (operation b).thrown = b.thrown) : (b.paused operation).thrown = none := by
  have fine := (sound.stop env).fine
  unfold paused
  rw [if_neg (by rw [fine]; exact Bool.false_ne_true), quiet, fine]

theorem step (sound : b.Sound) {action : Action} (keeps : KeepsOwners env b action) :
    (b.step env action).Sound := by
  refine ⟨(kept_ownersKnown env).step sound.holds keeps, ?_⟩
  have fine := sound.fine
  unfold Backend.step
  rw [if_neg (by rw [fine]; exact Bool.false_ne_true)]
  cases action with
  | download answer =>
    simp only [downloadBlocks]
    repeat' split
    all_goals exact fine
  | process indexOf => exact sound.thrown_beginBlock env indexOf
  | next => exact (sound.nextCall env).fine
  | send sent =>
    dsimp only
    split <;> exact fine
  | sendNext =>
    simp only [nextSendCall]
    repeat' split
    all_goals exact fine
  | cancelled hashes =>
    dsimp only
    repeat' split
    all_goals exact fine
  | addSubWallet spendKey timestamp | deleteSubWallet address =>
    refine sound.thrown_paused env fun b => ?_
    unfold adopt
    split <;> rfl
  | importSubWallet privateSpendKey scanHeight | importViewSubWallet publicSpendKey scanHeight =>
    refine sound.thrown_paused env fun b => ?_
    unfold adoptImported
    repeat' split
    all_goals rfl
  | reset scanHeight => exact sound.thrown_paused env fun b => rfl

/-- Deleting a subwallet leaves the entries of its key images without an owner. -/
theorem not_ownersExist_step (sound : b.Sound) {action : Action} (fails : ¬ KeepsOwners env b action) :
    ¬ (b.step env action).subWallets.OwnersExist := by
  cases action with
  | deleteSubWallet address =>
    simp only [KeepsOwners, not_forall, not_not] at fails
    obtain ⟨w, found, secondary, entry, mem, owned⟩ := fails
    obtain ⟨c', deleted⟩ : ∃ c', b.stop.subWallets.deleteSubWallet env.crypto address = .ok c' := by
      unfold deleteSubWallet
      dsimp only
      rw [Option.mem_def.1 found]
      exact ⟨_, if_neg (Bool.eq_false_iff.1 secondary)⟩
    obtain ⟨-, keys, -, -, owners⟩ := deleteSubWallet_eq_ok deleted
    have after : (b.step env (.deleteSubWallet address)).subWallets = c' := by
      unfold Backend.step Backend.paused
      rw [if_neg (by rw [sound.fine]; exact Bool.false_ne_true)]
      dsimp only
      rw [if_neg (by rw [(sound.stop env).fine]; exact Bool.false_ne_true), deleted]
      rfl
    intro exist
    have known := exist entry (by rw [after, owners]; exact mem)
    rw [after, keys, mem_filter, owned] at known
    exact of_decide_eq_true known.2 rfl
  | download answer | process indexOf | next | send sent | sendNext | cancelled hashes
  | addSubWallet spendKey timestamp | importSubWallet privateSpendKey scanHeight
  | importViewSubWallet publicSpendKey scanHeight | reset scanHeight => exact absurd trivial fails

end Sound

end Backend

/-- In every state of a run each key image in the index names a subwallet that exists, and
no block was taken in with an exception, exactly when no subwallet is deleted that owns a
key image. -/
theorem ownersExist_iff (env : WalletEnv) (primary : SubWallet) (privateViewKey : SecretKey)
    (isViewWallet : Bool) (startHeight startTimestamp : Nat) (actions : List Action) :
    Always (step env)
        (fun b => b.subWallets.OwnersExist ∧ b.thrown = none)
        (.initial (.ofSubWallet primary privateViewKey isViewWallet) startHeight startTimestamp)
        actions ↔
      Along (step env) (KeepsOwners env)
        (.initial (.ofSubWallet primary privateViewKey isViewWallet) startHeight startTimestamp)
        actions := by
  refine always_iff_along (I := Backend.Sound)
    (fun b action sound _ keeps => sound.step keeps)
    (fun b sound => ⟨sound.holds.holds.owners, sound.fine⟩)
    (fun b action sound _ fails exist => sound.not_ownersExist_step fails exist.1) ?_
    (along_true _ _)
  exact {
    holds := {
      holds := {
        owners := forall_mem_nil _
        spendKeys := fun _ mem => mem
        view := fun _ => rfl
        safe := forall_mem_nil _ }
      sends := forall_mem_nil _ }
    fine := rfl }

namespace Sample

/-- A second subwallet receives a payment and is deleted. -/
def deletedOwner : List Action :=
  .addSubWallet 3 0 :: takeIn [block 1 10 [payment 11 5 4000 3 []]] ++ [.deleteSubWallet 3]

/-- A block then spends the payment. -/
def spentAfterwards : List Action := takeIn [block 2 20 [payment 21 6 4000 9 [⟨4000, [0], 7503⟩]]]

theorem owner_deleted : ¬ (fresh.after env deletedOwner).subWallets.OwnersExist ∧
    (fresh.after env deletedOwner).thrown = none ∧
    (fresh.after env (deletedOwner ++ spentAfterwards)).thrown = some .outOfRange := by
  decide +kernel

end Sample

end DeroGold.Wallet
