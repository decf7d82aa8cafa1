import DeroGold.Lib.Reaching
import DeroGold.Wallet.Validate

/-!
What a validated send finds to spend.

Validation adds up the balance of every source address. The selection goes through outputs of
the same wallets, but leaves those below `inputNotSending`; it takes outputs in a random order
until their sum reaches the amount, and looks at key images nowhere.
-/

namespace DeroGold.Wallet

open List SubWallets Reaching

open Checked (of_bind of_require_bind require_eq_ok)
open Reaching (reach total)

abbrev TxInputAndOwner.amount (owned : TxInputAndOwner) : Nat := owned.input.amount

abbrev TxInputAndOwner.keyImage (owned : TxInputAndOwner) : KeyImage := owned.input.keyImage

/-- A random order of a list. -/
def IsShuffle (shuffle : List TxInputAndOwner → List TxInputAndOwner) : Prop :=
  ∀ inputs, (shuffle inputs).Perm inputs

namespace SubWallets

/-- Outputs that the selection chooses from. -/
def availableInputs (now : Nat) (takeFromAll : Bool) (subWalletsToTakeFrom : List PublicKey)
    (height : Nat) (c : SubWallets) : Except WalletException (List TxInputAndOwner) := do
  let wallets ← c.walletsOf takeFromAll subWalletsToTakeFrom
  .ok (wallets.flatMap fun w => (w.getSpendableInputs now height).filter
    fun owned => decide (inputNotSending ≤ owned.input.amount))

section Pick

variable {amount found money : Nat} {used taken inputs : List TxInputAndOwner}

/-- Outputs are taken from the beginning, and their sum wraps. -/
theorem exists_of_pickInputs (kept : ∀ owned ∈ inputs, inputNotSending ≤ owned.input.amount)
    (found_lt : found < 2 ^ 64) (picked : pickInputs amount used found inputs = .ok (taken, money)) :
    ∃ fresh, fresh <+: inputs ∧ taken = used ++ fresh ∧
      money = uint64 (found + total TxInputAndOwner.amount fresh) ∧ amount ≤ money := by
  induction inputs generalizing used found with
  | nil => cases picked
  | cons owned inputs ih =>
    rw [pickInputs, if_pos (kept owned (.head _))] at picked
    simp only at picked
    split_ifs at picked with enough
    · cases picked
      exact ⟨[owned], by simp, rfl, by simp, enough⟩
    · obtain ⟨fresh, begins, rfl, money_eq, reached⟩ :=
        ih (forall_mem_cons.1 kept).2 (uint64_lt _) picked
      refine ⟨owned :: fresh, cons_prefix_cons.2 ⟨rfl, begins⟩, by simp, ?_, reached⟩
      rw [money_eq, total_cons, ← add_assoc]
      exact Nat.mod_add_mod _ _ _

/-- While nothing wraps, the shortest beginning that reaches the amount is taken. -/
theorem pickInputs_of_reach (kept : ∀ owned ∈ inputs, inputNotSending ≤ owned.input.amount)
    (reached : reach TxInputAndOwner.amount amount found inputs = some taken)
    (small : found + total TxInputAndOwner.amount taken < 2 ^ 64) :
    pickInputs amount used found inputs =
      .ok (used ++ taken, found + total TxInputAndOwner.amount taken) := by
  induction inputs generalizing used found taken with
  | nil => cases reached
  | cons owned inputs ih =>
    rw [reach] at reached
    rw [pickInputs, if_pos (kept owned (.head _))]
    simp only
    split_ifs at reached with enough
    · cases reached
      simp only [total_cons, total_nil, add_zero] at small ⊢
      rw [uint64_of_lt small, if_pos enough]
    · obtain ⟨rest, rest_reached, rfl⟩ := Option.map_eq_some_iff.1 reached
      rw [total_cons, ← add_assoc] at small
      have first_small : found + owned.amount < 2 ^ 64 := lt_of_le_of_lt (Nat.le_add_right _ _) small
      rw [total_cons, ← add_assoc, uint64_of_lt first_small, if_neg enough,
        ih (forall_mem_cons.1 kept).2 rest_reached small]
      simp

end Pick

theorem getTransactionInputsForAmount_eq {now height : Nat} {takeFromAll : Bool}
    {takeFrom : List PublicKey} {c : SubWallets} {available : List TxInputAndOwner}
    (spends : c.isViewWallet = false)
    (found : c.availableInputs now takeFromAll takeFrom height = .ok available)
    (shuffle : List TxInputAndOwner → List TxInputAndOwner) (amount : Amount) :
    c.getTransactionInputsForAmount shuffle now amount takeFromAll takeFrom height =
      pickInputs amount [] 0 (shuffle available) := by
  obtain ⟨wallets, wallets_eq, flattened⟩ := of_bind.1 found
  cases flattened
  rw [getTransactionInputsForAmount, spends, wallets_eq]
  rfl

end SubWallets

/-- What a send relies on: the outputs are in the wallets, unspent and unlocked; no key image is
there twice; and they are worth the amount. -/
structure Selected (now height : Nat) (wallets : List SubWallet) (amount : Nat)
    (inputs : List TxInputAndOwner) : Prop where
  owned : ∀ owned ∈ inputs, ∃ w ∈ wallets, owned.publicSpendKey = w.publicSpendKey ∧
    owned.input ∈ w.unspentInputs
  unlocked : ∀ owned ∈ inputs, isInputUnlocked now owned.input.unlockTime height = true
  distinct : (inputs.map TxInputAndOwner.keyImage).Nodup
  enough : amount ≤ total TxInputAndOwner.amount inputs

/-- Outputs with one key image, each of which pays the amount alone, are never taken together. -/
def Apart (amount : Nat) (inputs : List TxInputAndOwner) : Prop :=
  inputs.Pairwise fun a b => a.keyImage = b.keyImage → amount ≤ a.amount ∧ amount ≤ b.amount

theorem Apart.perm {amount : Nat} {inputs inputs' : List TxInputAndOwner}
    (apart : Apart amount inputs) (perm : inputs.Perm inputs') : Apart amount inputs' := by
  have symmetric : ∀ {a b : TxInputAndOwner},
      (a.keyImage = b.keyImage → amount ≤ a.amount ∧ amount ≤ b.amount) →
        b.keyImage = a.keyImage → amount ≤ b.amount ∧ amount ≤ a.amount :=
    fun h same => (h same.symm).symm
  exact (perm.pairwise_iff symmetric).1 apart

/-- An output that can be chosen. -/
theorem mem_availableInputs {now height : Nat} {takeFromAll : Bool} {keys : List PublicKey}
    {c : SubWallets} {wallets : List SubWallet} {available : List TxInputAndOwner}
    (wallets_eq : c.walletsOf takeFromAll keys = .ok wallets)
    (found : c.availableInputs now takeFromAll keys height = .ok available)
    {owned : TxInputAndOwner} (mem : owned ∈ available) :
    (∃ w ∈ wallets, owned.publicSpendKey = w.publicSpendKey ∧ owned.input ∈ w.unspentInputs) ∧
      isInputUnlocked now owned.input.unlockTime height = true ∧
      inputNotSending ≤ owned.input.amount := by
  rw [availableInputs, wallets_eq] at found
  cases found
  obtain ⟨w, w_mem, owned_mem⟩ := mem_flatMap.1 mem
  obtain ⟨spendable, large⟩ := mem_filter.1 owned_mem
  obtain ⟨input, input_mem, rfl⟩ := mem_map.1 spendable
  obtain ⟨unspent, unlocked⟩ := mem_filter.1 input_mem
  exact ⟨⟨w, w_mem, rfl, unspent⟩, unlocked, by simpa using large⟩

section Orders

variable {now height : Nat} {takeFromAll : Bool} {keys : List PublicKey} {c : SubWallets}
  {wallets : List SubWallet} {available order : List TxInputAndOwner} {amount : Nat}

/-- With enough to choose from and no doubles, what is picked can be relied on. -/
theorem exists_picked (wallets_eq : c.walletsOf takeFromAll keys = .ok wallets)
    (found : c.availableInputs now takeFromAll keys height = .ok available)
    (perm : order.Perm available) (positive : 0 < amount)
    (small : total TxInputAndOwner.amount available < 2 ^ 64)
    (enough : amount ≤ total TxInputAndOwner.amount available) (apart : Apart amount available) :
    ∃ inputs money, pickInputs amount [] 0 order = .ok (inputs, money) ∧
      Selected now height wallets amount inputs := by
  have order_total : total TxInputAndOwner.amount order = total TxInputAndOwner.amount available :=
    (perm.map _).sum_eq
  have reachable : amount ≤ 0 + total TxInputAndOwner.amount order := by
    rwa [zero_add, order_total]
  obtain ⟨taken, reached, -⟩ := reach_of_begins positive (prefix_refl order) reachable
  obtain ⟨init, last, rest, order_eq, taken_eq, -, taken_enough⟩ := exists_of_reach positive reached
  have begins : taken <+: order := ⟨rest, by rw [order_eq, taken_eq]; simp⟩
  have taken_small : 0 + total TxInputAndOwner.amount taken < 2 ^ 64 := by
    have := (total_mono begins).trans_eq order_total
    omega
  have source : ∀ owned ∈ taken, owned ∈ available := fun owned mem =>
    perm.mem_iff.1 (begins.subset mem)
  have kept : ∀ owned ∈ order, inputNotSending ≤ owned.input.amount := fun owned mem =>
    (mem_availableInputs wallets_eq found (perm.mem_iff.1 mem)).2.2
  refine ⟨_, _, pickInputs_of_reach kept reached taken_small, ?_⟩
  have taken_apart : taken.Pairwise fun a b => a.keyImage ≠ b.keyImage := by
    refine pairwise_of_reach positive reached ((apart.perm perm.symm).imp ?_)
    intro a b separate same
    exact (separate (not_not.1 same)).1
  exact {
    owned := fun owned mem => (mem_availableInputs wallets_eq found (source owned mem)).1
    unlocked := fun owned mem => (mem_availableInputs wallets_eq found (source owned mem)).2.1
    distinct := pairwise_map.2 taken_apart
    enough := by simpa using taken_enough }

/-- Where picking can be relied on in every order, doubles are never taken together. -/
theorem apart_of_picked
    (kept : ∀ owned ∈ available, inputNotSending ≤ owned.input.amount)
    (safe : ∀ order, List.Perm order available → ∃ inputs money,
      pickInputs amount [] 0 order = .ok (inputs, money) ∧
        Selected now height wallets amount inputs) : Apart amount available := by
  -- the first of two doubles pays the amount, or both are taken when they come first
  have first : ∀ {a b : TxInputAndOwner} {rest : List TxInputAndOwner},
      (a :: b :: rest).Perm available → a.keyImage = b.keyImage → amount ≤ a.amount := by
    intro a b rest perm same
    by_contra short
    obtain ⟨inputs, money, picked, selected⟩ := safe _ perm
    obtain ⟨fresh, begins, inputs_eq, money_eq, reached⟩ := exists_of_pickInputs
      (fun owned mem => kept owned (perm.mem_iff.1 mem)) (by decide) picked
    have heavy : amount ≤ total TxInputAndOwner.amount fresh := by
      rw [money_eq, Nat.zero_add] at reached
      exact reached.trans (Nat.mod_le _ _)
    rcases fresh with _ | ⟨x, _ | ⟨y, fresh⟩⟩
    · exact short (heavy.trans (Nat.zero_le _))
    · obtain ⟨rfl, -⟩ := cons_prefix_cons.1 begins
      exact short (by simpa using heavy)
    · obtain ⟨rfl, rest_begins⟩ := cons_prefix_cons.1 begins
      obtain ⟨rfl, -⟩ := cons_prefix_cons.1 rest_begins
      have distinct := selected.distinct
      simp [inputs_eq, same] at distinct
  rw [Apart, pairwise_iff_forall_sublist]
  intro a b sub same
  obtain ⟨rest, perm⟩ := sub.exists_perm_append
  exact ⟨first perm.symm same, first ((List.Perm.swap a b rest).trans perm.symm) same.symm⟩

end Orders

/-- Choosing is safe in every order if and only if there is enough to choose from and nothing
can be taken with its double. -/
theorem selected_iff {now height : Nat} {takeFromAll : Bool} {keys : List PublicKey}
    {c : SubWallets} {wallets : List SubWallet} {available : List TxInputAndOwner} {amount : Nat}
    (spends : c.isViewWallet = false) (wallets_eq : c.walletsOf takeFromAll keys = .ok wallets)
    (found : c.availableInputs now takeFromAll keys height = .ok available)
    (positive : 0 < amount) (small : total TxInputAndOwner.amount available < 2 ^ 64) :
    (∀ shuffle, IsShuffle shuffle → ∃ inputs money,
      c.getTransactionInputsForAmount shuffle now amount takeFromAll keys height = .ok (inputs, money) ∧
        Selected now height wallets amount inputs) ↔
      amount ≤ total TxInputAndOwner.amount available ∧ Apart amount available := by
  have kept : ∀ owned ∈ available, inputNotSending ≤ owned.input.amount := fun owned mem =>
    (mem_availableInputs wallets_eq found mem).2.2
  constructor
  · intro safe
    -- every order is the result of some shuffle
    have picked : ∀ order, List.Perm order available → ∃ inputs money,
        pickInputs amount [] 0 order = .ok (inputs, money) ∧
          Selected now height wallets amount inputs := by
      intro order perm
      obtain ⟨inputs, money, chosen, selected⟩ := safe (fun l => if l = available then order else l) (by
        intro l
        dsimp only
        split_ifs with same
        · rwa [same]
        · exact List.Perm.refl l)
      rw [getTransactionInputsForAmount_eq spends found, if_pos rfl] at chosen
      exact ⟨inputs, money, chosen, selected⟩
    refine ⟨?_, apart_of_picked kept picked⟩
    obtain ⟨inputs, money, chosen, selected⟩ := picked available (List.Perm.refl _)
    obtain ⟨fresh, begins, rfl, -, -⟩ := exists_of_pickInputs kept (by decide) chosen
    exact selected.enough.trans (total_mono begins)
  · rintro ⟨enough, apart⟩ shuffle is_shuffle
    rw [getTransactionInputsForAmount_eq spends found]
    exact exists_picked wallets_eq found (is_shuffle available) positive small enough apart

/-- A validated send of a wallet that can spend chooses from outputs of the source addresses.
As long as these are worth less than `2 ^ 64`, the choice can be relied on in every order if and
only if they are worth the total, and of two with one key image each is worth it alone. -/
theorem validated_send_iff {crypto : AddressCrypto} {now : Nat} {destinations : List Destination}
    {mixin : Nat} {fee : UInt64} {paymentID : Bytes} {sources : List Bytes} {changeAddress : Bytes}
    {c : SubWallets} {height : Nat}
    (valid : validateTransaction crypto now destinations mixin fee paymentID sources changeAddress c
      height = .ok ()) (spends : c.isViewWallet = false) :
    (totalAmount destinations fee).toNat = exactTotal destinations fee ∧
      ∃ spendKeys wallets available, addressesToSpendKeys crypto sources = .ok spendKeys ∧
        c.walletsOf sources.isEmpty spendKeys = .ok wallets ∧
        c.availableInputs now sources.isEmpty spendKeys height = .ok available ∧
        (total TxInputAndOwner.amount available < 2 ^ 64 →
          ((∀ shuffle, IsShuffle shuffle → ∃ inputs money,
            c.getTransactionInputsForAmount shuffle now (exactTotal destinations fee) sources.isEmpty
                spendKeys height = .ok (inputs, money) ∧
              Selected now height wallets (exactTotal destinations fee) inputs) ↔
            exactTotal destinations fee ≤ total TxInputAndOwner.amount available ∧
              Apart (exactTotal destinations fee) available)) := by
  have validated := validated_of_validateTransaction valid
  obtain ⟨fee_large, spendKeys, balance, keys_eq, balance_eq, fits⟩ :=
    exists_balance_of_validateAmount validated.amountPasses
  obtain ⟨wallets, wallets_eq, -⟩ := of_bind.1 balance_eq
  have positive : 0 < exactTotal destinations fee := by
    have minimum : 0 < getMinimumFee height := by
      unfold getMinimumFee
      split_ifs <;> decide
    rw [exactTotal]
    omega
  have found : c.availableInputs now sources.isEmpty spendKeys height =
      .ok (wallets.flatMap fun w => (w.getSpendableInputs now height).filter
        fun owned => decide (inputNotSending ≤ owned.input.amount)) := by
    rw [availableInputs, wallets_eq]
    rfl
  exact ⟨(toNat_totalAmount fits).1, spendKeys, wallets, _, keys_eq, wallets_eq, found,
    selected_iff spends wallets_eq found positive⟩

namespace Sample

def addressCrypto : AddressCrypto where
  cnFastHash _ := .filled 32 0
  checkKey _ := true

def ownKeys : AccountPublicAddress where
  spendPublicKey := .filled 32 1
  viewPublicKey := .filled 32 2

def ownAddress : Bytes := (getAccountAddressAsStr addressCrypto publicAddressTag ownKeys).getD []

def unspent (keyImage : KeyImage) (amount : Amount) : TransactionInput where
  keyImage := keyImage
  amount := amount
  blockHeight := 1
  transactionPublicKey := 7
  transactionIndex := 0
  globalOutputIndex := some keyImage
  key := 0
  spendHeight := 0
  unlockTime := 0
  parentTransactionHash := 0

/-- A wallet with one address and these outputs. -/
def holding (inputs : List TransactionInput) : SubWallets :=
  .ofSubWallet { SubWallet.new (keyOfBytes ownKeys.spendPublicKey) 5 1 0 0 true with
    unspentInputs := inputs } 6 false

def spendable : SubWallets := holding [unspent 1 1000, unspent 2 2000]

/-- Outputs of 1000 and 2000 pay 1500 and the fee in every order. -/
theorem validated_send_spendable :
    validateTransaction addressCrypto 0 [(ownAddress, 1500)] 0 10 [] [ownAddress] ownAddress spendable
        1 = .ok () ∧
      ∀ shuffle, IsShuffle shuffle → ∃ inputs money,
        spendable.getTransactionInputsForAmount shuffle 0 1510 false
          [keyOfBytes ownKeys.spendPublicKey] 1 = .ok (inputs, money) ∧
        Selected 0 1 spendable.subWallets 1510 inputs := by
  have valid : validateTransaction addressCrypto 0 [(ownAddress, 1500)] 0 10 [] [ownAddress]
      ownAddress spendable 1 = .ok () := by decide +kernel
  refine ⟨valid, ?_⟩
  obtain ⟨-, spendKeys, wallets, available, keys_eq, wallets_eq, found, reliable⟩ :=
    validated_send_iff valid rfl
  have keys : addressesToSpendKeys addressCrypto [ownAddress] =
      .ok [keyOfBytes ownKeys.spendPublicKey] := by decide +kernel
  obtain rfl := Except.ok.inj (keys_eq.symm.trans keys)
  obtain rfl : wallets = spendable.subWallets :=
    Except.ok.inj (wallets_eq.symm.trans (by decide +kernel))
  obtain rfl : available = [⟨unspent 1 1000, keyOfBytes ownKeys.spendPublicKey, 5⟩,
      ⟨unspent 2 2000, keyOfBytes ownKeys.spendPublicKey, 5⟩] :=
    Except.ok.inj (found.symm.trans (by decide +kernel))
  refine (reliable (by decide)).2 ⟨by decide, ?_⟩
  simp [Apart, unspent, TxInputAndOwner.keyImage]

/-- Outputs of 999 and 1000 are a balance of 1999, but those below 1000 are not taken: a send of
1500 is validated and then throws. -/
theorem dust_not_taken :
    let dust := holding [unspent 1 999, unspent 2 1000]
    validateTransaction addressCrypto 0 [(ownAddress, 1500)] 0 10 [] [ownAddress] ownAddress dust 1 =
        .ok () ∧
      dust.getTransactionInputsForAmount id 0 1510 false [keyOfBytes ownKeys.spendPublicKey] 1 =
        .error .notEnoughFunds := by
  decide +kernel

end Sample

end DeroGold.Wallet
