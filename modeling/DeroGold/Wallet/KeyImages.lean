import Mathlib.Data.List.Sublists
import DeroGold.Wallet.Inputs

/-!
Each key image counts once.

Only a received output adds a key image to the lists, and nothing compares it with those
that are there. So no two entries share one as long as every block brings new ones
(`keyImagesOnce_of_new`); two outputs to one one-time key are both counted and can be spent
once (`Sample.balance_doubled`).
-/

namespace DeroGold.Wallet

open List TransitionSystem

/-- Key images in the lists of all subwallets. -/
def SubWallets.keyImages (c : SubWallets) : List KeyImage := c.held (·.keyImage)

/-- The outputs of a block that belong to the wallet have key images that are new: no two
have the same one, and no entry that the block leaves in place has one of them. -/
def NewKeyImages (c : SubWallets) (found : BlockInputsAndOwners) : Prop :=
  (found.map (·.2.keyImage)).Nodup ∧ ∀ owned ∈ found, owned.2.keyImage ∉ c.keyImages

instance (c : SubWallets) (found : BlockInputsAndOwners) : Decidable (NewKeyImages c found) :=
  inferInstanceAs (Decidable (_ ∧ _))

/-- A block that is begun brings new key images. -/
def BringsNewKeyImages (env : WalletEnv) (b : Backend) : Action → Prop
  | .process _ =>
    ∀ block ∈ b.storedBlocks.head?,
      ∀ found ∈ (processBlockOutputs env b.subWallets block).toOption,
        NewKeyImages (prepare b.status.lastKnownBlockHeight block.blockHeight b.subWallets) found
  | _ => True

instance (env : WalletEnv) (b : Backend) : (action : Action) → Decidable (BringsNewKeyImages env b action)
  | .process _ => inferInstanceAs (Decidable (∀ block ∈ b.storedBlocks.head?, _))
  | .download _ | .next | .send _ | .sendNext | .cancelled _ | .addSubWallet _ _
  | .importSubWallet _ _ | .importViewSubWallet _ _ | .deleteSubWallet _ | .reset _ =>
    inferInstanceAs (Decidable True)

theorem kept_keyImagesOnce (env : WalletEnv) :
    Kept env (HeldWith (·.keyImage) List.Nodup) (BringsNewKeyImages env) := by
  refine kept_held (fun _ _ => rfl) ?_ (fun _ _ => rfl) ?_
  · rintro xs ys ⟨kept, perm, sublist⟩ once
    exact perm.nodup_iff.1 (once.sublist sublist)
  · intro b indexOf block rest found brings stored found_eq once
    obtain ⟨apart, new⟩ := brings block (by rw [stored]; rfl) found (by rw [found_eq]; rfl)
    refine nodup_append.2 ⟨once, apart, ?_⟩
    rintro k there k' mem rfl
    obtain ⟨owned, owned_mem, rfl⟩ := mem_map.1 mem
    exact new owned owned_mem there

/-! ### Balances -/

theorem SubWallet.foldl_addInput_le (now currentHeight : Nat) (xs : List TransactionInput)
    (balance : Nat × Nat) : (xs.foldl (addInput now currentHeight) balance).1 +
      (xs.foldl (addInput now currentHeight) balance).2 ≤
        balance.1 + balance.2 + (xs.map (·.amount)).sum := by
  have le : ∀ n, uint64 n ≤ n := fun n => Nat.mod_le _ _
  induction xs generalizing balance with
  | nil => exact le_refl _
  | cons input xs ih =>
    rw [foldl_cons, map_cons, sum_cons]
    have step := ih (addInput now currentHeight balance input)
    have counted : (addInput now currentHeight balance input).1 +
        (addInput now currentHeight balance input).2 ≤ balance.1 + balance.2 + input.amount := by
      unfold addInput
      split
      · have wraps := le (balance.1 + input.amount)
        dsimp only
        omega
      · have wraps := le (balance.2 + input.amount)
        dsimp only
        omega
    omega

theorem foldl_amount_le (xs : List UnconfirmedInput) (locked : Nat) :
    xs.foldl (fun locked input => uint64 (locked + input.amount)) locked ≤
      locked + (xs.map (·.amount)).sum := by
  induction xs generalizing locked with
  | nil => exact le_refl _
  | cons input xs ih =>
    rw [foldl_cons, map_cons, sum_cons]
    have step := ih (uint64 (locked + input.amount))
    have wraps : uint64 (locked + input.amount) ≤ locked + input.amount := Nat.mod_le _ _
    omega

/-- A balance is at most the sum of what it counts. -/
theorem SubWallet.getBalance_le (now currentHeight : Nat) (w : SubWallet) :
    (w.getBalance now currentHeight).1 + (w.getBalance now currentHeight).2 ≤
      (w.unspentInputs.map (·.amount)).sum + (w.unconfirmedIncomingAmounts.map (·.amount)).sum := by
  have unspent := foldl_addInput_le now currentHeight w.unspentInputs (0, 0)
  have change := foldl_amount_le w.unconfirmedIncomingAmounts
    (w.unspentInputs.foldl (addInput now currentHeight) (0, 0)).2
  unfold getBalance
  dsimp only at unspent ⊢
  omega

namespace SubWallets

def unspentInputs (c : SubWallets) : List TransactionInput :=
  c.subWallets.flatMap SubWallet.unspentInputs

/-- Amounts that transactions can spend: of outputs with different key images. -/
def CanSpend (c : SubWallets) (amount : Nat) : Prop :=
  ∃ inputs : List TransactionInput, inputs.Sublist c.unspentInputs ∧
    (inputs.map (·.keyImage)).Nodup ∧ (inputs.map (·.amount)).sum = amount

/-- Change of sent transactions that is counted before it arrives. -/
def awaitedChange (c : SubWallets) : Nat :=
  ((c.subWallets.flatMap SubWallet.unconfirmedIncomingAmounts).map (·.amount)).sum

/-- All balances together. -/
def reportedBalance (now currentHeight : Nat) (c : SubWallets) : Nat :=
  ((c.getBalances now currentHeight).map fun entry => entry.2.1 + entry.2.2).sum

theorem reportedBalance_le (now currentHeight : Nat) (c : SubWallets) :
    c.reportedBalance now currentHeight ≤ (c.unspentInputs.map (·.amount)).sum + c.awaitedChange := by
  unfold reportedBalance getBalances unspentInputs awaitedChange
  induction c.subWallets with
  | nil => exact le_refl _
  | cons w ws ih =>
    have one := w.getBalance_le now currentHeight
    simp only [map_cons, flatMap_cons, map_append, sum_cons, sum_append] at ih ⊢
    omega

/-- Outputs with different key images can all be spent. -/
theorem canSpend_of_nodup {c : SubWallets} (once : c.keyImages.Nodup) :
    c.CanSpend (c.unspentInputs.map (·.amount)).sum := by
  refine ⟨c.unspentInputs, List.Sublist.refl _, ?_, rfl⟩
  have unspent : (c.unspentInputs.map (·.keyImage)).Sublist c.keyImages := by
    unfold unspentInputs keyImages held
    induction c.subWallets with
    | nil => exact List.Sublist.refl _
    | cons w ws ih =>
      rw [flatMap_cons, flatMap_cons, map_append]
      refine List.Sublist.append ?_ ih
      rw [SubWallet.map_inputs, append_assoc]
      exact sublist_append_left _ _
  exact once.sublist unspent

end SubWallets

/-- A wallet into which every block brings new key images, whatever else is done with it:
no two entries share a key image, and the balances are no more than what can be spent and
the change that is awaited. -/
theorem keyImagesOnce_of_new (env : WalletEnv) (privateSpendKey privateViewKey : SecretKey)
    (address : Address) (scanHeight timestamp startHeight startTimestamp : Nat)
    {actions : List Action} (brings : Along (Backend.step env) (BringsNewKeyImages env)
      (.initial (.new env.crypto privateSpendKey privateViewKey address scanHeight timestamp)
        startHeight startTimestamp) actions) :
    let c := (Backend.after env
      (.initial (.new env.crypto privateSpendKey privateViewKey address scanHeight timestamp)
        startHeight startTimestamp) actions).subWallets
    c.keyImages.Nodup ∧ ∀ now currentHeight, ∃ amount, c.CanSpend amount ∧
      c.reportedBalance now currentHeight ≤ amount + c.awaitedChange := by
  intro c
  have holds := (kept_keyImagesOnce env).run (b := .initial
      (.new env.crypto privateSpendKey privateViewKey address scanHeight timestamp)
        startHeight startTimestamp) ⟨nodup_nil, forall_mem_nil _⟩ brings
  have once : c.keyImages.Nodup := (nodup_append.1 holds.holds).1
  exact ⟨once, fun now currentHeight =>
    ⟨_, SubWallets.canSpend_of_nodup once, SubWallets.reportedBalance_le now currentHeight c⟩⟩

namespace Sample

/-- One payment, the next block spends it, the one after pays again. -/
def paidTwice : List Action := takeIn
  [block 1 10 [payment 11 5 4000 1 []], block 2 20 [payment 21 6 3000 1 [⟨4000, [0], 7501⟩]],
    block 3 30 [payment 31 7 2000 1 []]]

theorem keyImagesOnce_paidTwice :
    Along (Backend.step env) (BringsNewKeyImages env) fresh paidTwice ∧
    ((fresh.after env paidTwice).subWallets.keyImages.Nodup ∧
      ∀ now currentHeight, ∃ amount, (fresh.after env paidTwice).subWallets.CanSpend amount ∧
        (fresh.after env paidTwice).subWallets.reportedBalance now currentHeight ≤
          amount + (fresh.after env paidTwice).subWallets.awaitedChange) := by
  have brings : Along (Backend.step env) (BringsNewKeyImages env) fresh paidTwice := by
    decide +kernel
  exact ⟨brings, keyImagesOnce_of_new env 1 2 1 0 0 0 0 brings⟩

/-- Two transactions of one block with the same transaction key and the same output key. -/
def sameKey : List Action := takeIn [block 1 10 [payment 11 5 4000 1 [], payment 12 5 4000 1 []]]

/-- Both are counted, and one of them can be spent. -/
theorem balance_doubled : ¬ (fresh.after env sameKey).subWallets.keyImages.Nodup ∧
    (fresh.after env sameKey).subWallets.reportedBalance 0 1 = 8000 ∧
    (fresh.after env sameKey).subWallets.awaitedChange = 0 ∧
    ∀ amount, (fresh.after env sameKey).subWallets.CanSpend amount → amount ≤ 4000 := by
  refine ⟨by decide +kernel, by decide +kernel, by decide +kernel, ?_⟩
  rintro amount ⟨inputs, sublist, once, rfl⟩
  have all : ∀ inputs ∈ (fresh.after env sameKey).subWallets.unspentInputs.sublists,
      (inputs.map (·.keyImage)).Nodup → (inputs.map (·.amount)).sum ≤ 4000 := by
    decide +kernel
  exact all inputs (mem_sublists.2 sublist) once

end Sample

end DeroGold.Wallet
