import DeroGold.Wallet.Backend

/-!
The outputs that a wallet holds, along its runs.

Whatever the threads do, the lists of the subwallets gain an output only when one is stored
that was found in a block. So a property of what is held that is not lost when some of it
goes away holds along a run as long as every block that is begun brings nothing against it
(`kept_held`).
-/

namespace DeroGold.Wallet

open List SubWallets Keyed

namespace SubWallets

variable {γ : Type} {g : TransactionInput → γ} {c c' : SubWallets}

/-- What is looked at of the outputs in the lists of all subwallets. -/
def held (g : TransactionInput → γ) (c : SubWallets) : List γ :=
  c.subWallets.flatMap fun w => w.inputs.map g

theorem held_update {publicKey : PublicKey} {f : SubWallet → SubWallet}
    {same : ∀ w, (f w).publicSpendKey = w.publicSpendKey}
    (moves : ∀ w, ((f w).inputs.map g).Perm (w.inputs.map g)) :
    ((c.update publicKey f same).held g).Perm (c.held g) := by
  refine perm_flatMap_map fun w _ => ?_
  split
  · exact moves w
  · exact List.Perm.refl _

theorem held_storeTransactionInput {publicSpendKey : PublicKey} {input : TransactionInput}
    (stored : c.storeTransactionInput publicSpendKey input = .ok c') :
    (c'.held g).Perm (g input :: c.held g) := by
  unfold storeTransactionInput at stored
  split at stored
  · rename_i w found
    cases stored
    have gains : ((w.storeTransactionInput input c.isViewWallet).inputs.map g).Perm
        ([g input] ++ w.inputs.map g) := by
      simp only [SubWallet.map_inputs, SubWallet.storeTransactionInput, map_append, map_singleton,
        append_assoc]
      exact perm_append_comm_assoc ..
    exact perm_flatMap_modify (f := (·.storeTransactionInput input c.isViewWallet))
      (g := fun w => w.inputs.map g) c.distinct found gains
  · cases stored

theorem held_markInputAsLocked {keyImage : KeyImage} {publicKey : PublicKey}
    (marked : c.markInputAsLocked keyImage publicKey = .ok c') : (c'.held g).Perm (c.held g) := by
  unfold markInputAsLocked at marked
  split at marked
  · cases marked
  · split at marked
    · cases marked
      exact held_update fun w => w.map_inputs_markInputAsLocked keyImage
    · cases marked

theorem held_deleteSubWallet {crypto : WalletCrypto} {address : Address}
    (deleted : c.deleteSubWallet crypto address = .ok c') : (c'.held g).Subperm (c.held g) := by
  unfold deleteSubWallet at deleted
  dsimp only at deleted
  split at deleted
  · cases deleted
  · split at deleted
    · cases deleted
    · cases deleted
      exact (filter_sublist.flatMap _).subperm

theorem held_reset (scanHeight : Nat) (c : SubWallets) : (c.reset scanHeight).held g = [] :=
  flatMap_eq_nil_iff.2 fun w mem => by
    obtain ⟨w, -, rfl⟩ := mem_map.1 mem
    rfl

section Ignores

variable (ignores : ∀ input spendHeight, g { input with spendHeight := spendHeight } = g input)
include ignores

theorem held_markInputAsSpent {keyImage : KeyImage} {publicKey : PublicKey} {spendHeight : Nat}
    (marked : c.markInputAsSpent keyImage publicKey spendHeight = .ok c') :
    (c'.held g).Perm (c.held g) := by
  unfold markInputAsSpent at marked
  split at marked
  · cases marked
  · split at marked
    · cases marked
      exact held_update fun w => w.map_inputs_markInputAsSpent ignores keyImage spendHeight
    · cases marked

theorem held_removeCancelledTransactions {cancelled : List Hash}
    (removed : c.removeCancelledTransactions cancelled = .ok c') : (c'.held g).Perm (c.held g) := by
  unfold removeCancelledTransactions at removed
  split at removed
  · cases removed
  · cases removed
    exact perm_flatMap_map fun w _ => w.map_inputs_removeCancelledTransactions ignores cancelled

theorem held_prepare (walletHeight blockHeight : Nat) (c : SubWallets) :
    ((prepare walletHeight blockHeight c).held g).Subperm (c.held g) := by
  have forked : ∀ c : SubWallets, ((c.removeForkedTransactions blockHeight).held g).Subperm
      (c.held g) := fun c => subperm_flatMap_map fun w _ =>
    w.map_inputs_removeForkedInputs ignores blockHeight c.isViewWallet
  have pruned : ∀ (height : Nat) (c : SubWallets), ((c.pruneSpentInputs height).held g).Subperm
      (c.held g) := fun height c => subperm_flatMap_map fun w _ => by
    simp only [SubWallet.map_inputs, SubWallet.pruneSpentInputs]
    exact (List.Sublist.append_left (filter_sublist.map _) _).subperm
  unfold prepare
  dsimp only
  split <;> split
  · exact (pruned _ _).trans (forked c)
  · exact pruned _ c
  · exact forked c
  · exact List.Subperm.refl _

end Ignores

end SubWallets

/-! ### Calls -/

/-- Outputs that a call stores. -/
def Call.storedInputs : Call → List TransactionInput
  | .storeTransactionInput _ input => [input]
  | _ => []

/-- The calls for a block store the outputs found in it. -/
theorem storedInputs_scanCalls (env : WalletEnv) (c : SubWallets) (block : WalletBlockInfo)
    (ourInputs : BlockInputsAndOwners) :
    (scanCalls env c block ourInputs).flatMap Call.storedInputs = ourInputs.map Prod.snd := by
  simp only [scanCalls, flatMap_append, flatMap_map, Call.storedInputs, processBlockTransactions]
  simp only [flatMap_eq_nil_iff.2 fun _ _ => rfl, nil_append, append_nil]
  exact map_eq_flatMap.symm

section Held

variable {γ : Type} {g : TransactionInput → γ}
  (ignores : ∀ input spendHeight, g { input with spendHeight := spendHeight } = g input)
include ignores

theorem held_perform {c c' : SubWallets} {call : Call} (performed : call.perform c = .ok c') :
    (c'.held g).Perm (call.storedInputs.map g ++ c.held g) := by
  cases call with
  | addTransaction tx =>
    cases performed
    exact List.Perm.refl _
  | storeTransactionInput publicSpendKey input =>
    exact held_storeTransactionInput performed
  | markInputAsSpent keyImage publicKey spendHeight =>
    exact held_markInputAsSpent ignores performed
  | addUnconfirmedTransaction tx =>
    cases performed
    unfold SubWallets.addUnconfirmedTransaction
    split <;> exact List.Perm.refl _
  | storeUnconfirmedIncomingInput input publicSpendKey =>
    cases performed
    exact held_update fun w => List.Perm.refl _
  | storeTxPrivateKey txPrivateKey txHash =>
    cases performed
    exact List.Perm.refl _
  | markInputAsLocked keyImage publicKey =>
    exact held_markInputAsLocked performed

/-- The property of what is held, counting what the calls at hand will store. -/
def HeldWith (g : TransactionInput → γ) (P : List γ → Prop) (c : SubWallets) (calls : List Call) : Prop :=
  P (c.held g ++ (calls.flatMap Call.storedInputs).map g)

/-- A property that is not lost when something goes away is kept as long as the blocks that
are begun bring nothing against it. -/
theorem kept_held {env : WalletEnv} {P : List γ → Prop} {ok : Backend → Action → Prop}
    (fewer : ∀ {xs ys : List γ}, ys.Subperm xs → P xs → P ys)
    (ignoresIndex : ∀ input index, g { input with globalOutputIndex := index } = g input)
    (brings : ∀ {b : Backend} {indexOf : Hash → Nat → Option Nat} {block : WalletBlockInfo}
      {rest : List WalletBlockInfo} {found : BlockInputsAndOwners},
      ok b (.process indexOf) → b.storedBlocks = block :: rest →
      processBlockOutputs env b.subWallets block = .ok found →
      P ((prepare b.status.lastKnownBlockHeight block.blockHeight b.subWallets).held g) →
      P ((prepare b.status.lastKnownBlockHeight block.blockHeight b.subWallets).held g ++
        found.map fun owned => g owned.2)) :
    Kept env (HeldWith g P) ok where
  called := by
    intro c c' call calls holds performed
    refine fewer (List.Perm.subperm ?_) holds
    apply ((held_perform ignores performed).append_right _).trans
    rw [flatMap_cons, map_append, append_assoc]
    exact perm_append_comm_assoc ..
  sent := by
    intro c c' call calls sends holds performed
    have moves := held_perform ignores performed
    have none_stored : call.storedInputs = [] := by
      cases call <;> first | rfl | exact absurd sends id
    rw [none_stored] at moves
    exact fewer (moves.append_right _).subperm holds
  converted := by
    intro c calls timestamp height holds
    refine fewer (List.Perm.append_right _ (perm_flatMap_map fun w _ => ?_)).subperm holds
    rw [SubWallet.inputs_convertSyncTimestampToHeight]
  cancelled := by
    intro c c' hashes holds removed
    have moves := held_removeCancelledTransactions ignores removed
    exact fewer (moves.append_right _).subperm holds
  added := fun _ _ _ _ _ holds =>
    fewer ((subperm_flatMap_assign _ _ rfl).append (List.Subperm.refl _)) holds
  reset := by
    intro c scanHeight holds
    refine fewer ?_ holds
    rw [held_reset]
    exact nil_subperm
  scanned := by
    intro b indexOf block rest found ourInputs meets idle stored found_eq filled holds
    rw [HeldWith, flatMap_nil, map_nil, append_nil] at holds
    have staying := fewer (held_prepare ignores b.status.lastKnownBlockHeight
      block.blockHeight b.subWallets) holds
    have ours : (ourInputs.map Prod.snd).map g = found.map fun owned => g owned.2 := by
      rw [map_map]
      exact map_fillGlobalIndexes (fun _ input index => ignoresIndex input index) filled
    rw [HeldWith, storedInputs_scanCalls, ours]
    exact brings meets stored found_eq staying
  deleted := by
    intro b address c' _ holds deleted
    exact fewer ((held_deleteSubWallet deleted).append (List.Subperm.refl _)) holds

end Held

end DeroGold.Wallet
