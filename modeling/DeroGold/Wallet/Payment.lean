import Mathlib.Data.UInt
import DeroGold.WideRules
import DeroGold.Wallet.Transfer

/-!
What a send pays.

Every amount, the node's fee and the change are split into their digits, and the outputs are made
for the digits. All sums are taken in 64 bits; the checks before a transaction is relayed are
too. `send_pays_exactly_iff` says when no sum has wrapped.
-/

namespace DeroGold.Wallet

open List TxInputAndOwner SubWallets

open Checked (of_bind mapM_ok map_eq_of_forall₂)
open Reaching (reach total)

/-! ### Digits -/

/-- Node and wallet split amounts alike. -/
theorem decomposeAmount_eq_splitFrom (digits amount order : Nat) :
    decomposeAmount digits amount order = splitFrom digits amount order := by
  induction digits generalizing amount order with
  | zero => rfl
  | succ digits ih =>
    rw [decomposeAmount, splitFrom]
    simp only [ih, mul_comm (amount % 10) order, ite_not]

theorem splitAmountIntoDenominations_eq {amount : Nat} (fits : amount < 2 ^ 64) :
    splitAmountIntoDenominations amount = Digits.parts 10 amount := by
  rw [splitAmountIntoDenominations, ← decomposeAmount_eq_splitFrom, decomposeAmount_eq_parts fits]

/-! ### Amounts of a transaction that was made -/

theorem forall₂_comp {α β γ : Type} {r : α → β → Prop} {s : β → γ → Prop} {t : α → γ → Prop}
    {xs : List α} {ys : List β} {zs : List γ} (first : List.Forall₂ r xs ys)
    (second : List.Forall₂ s ys zs)
    (comp : ∀ {x y z}, r x y → s y z → t x z) : List.Forall₂ t xs zs := by
  induction first generalizing zs with
  | nil =>
    cases second
    exact .nil
  | cons head _ ih =>
    cases second with
    | cons head' rest => exact .cons (comp head head') (ih rest)

section Made

variable {env : SendEnv} {attempt : Attempt} {mixin : Nat} {ourInputs : List TxInputAndOwner}
  {paymentID : Bytes} {destinations : List TransactionDestination} {c : SubWallets} {unlockTime : Nat}
  {extraData : Bytes} {result : TransactionResult}

/-- The inputs of a transaction are those it was made from, and so are its outputs. -/
theorem makeTransaction_amounts
    (made : makeTransaction env attempt mixin ourInputs paymentID destinations c unlockTime extraData =
      .ok result) :
    (result.transaction.transaction.inputs.filterMap keyInputAmount).Perm
        (ourInputs.map amount) ∧
      result.outputs = setupOutputs env attempt.txSecretKey destinations ∧
      result.transaction.transaction.outputs.map (·.amount) = result.outputs.map (·.amount) := by
  obtain ⟨inputsAndFakes, prepared, made⟩ := of_bind.1 made
  obtain ⟨inputs, set, made⟩ := of_bind.1 made
  obtain ⟨-, made⟩ := of_check_bind.1 made
  obtain ⟨fakeOuts, -, obscured⟩ := of_bind.1 prepared
  cases made
  refine ⟨?_, rfl, by simp⟩
  have sources : (env.sortInputs.sort ourInputs).map amount = inputsAndFakes.map (·.amount) := by
    rw [← zipIdx_map_fst 0 (env.sortInputs.sort ourInputs), map_map]
    refine map_eq_of_forall₂ (mapM_ok.1 obscured) fun obscured => ?_
    obtain ⟨-, obscured⟩ := of_check_bind.1 obscured
    split at obscured <;> cases obscured
    rfl
  have keyInputs : inputsAndFakes.map (·.amount) = inputs.map (·.amount) := by
    refine map_eq_of_forall₂ (mapM_ok.1 set) fun set => ?_
    cases (of_check_bind.1 set).2
    rfl
  have amounts : (inputs.map DeroGold.TransactionInput.key).filterMap keyInputAmount =
      inputs.map (·.amount) := by
    rw [filterMap_map]
    exact congrFun (filterMap_eq_map (f := KeyInput.amount)) inputs
  rw [amounts, ← keyInputs, ← sources]
  exact (env.sortInputs.perm ourInputs).map _

end Made

/-- The amounts of outputs do not depend on what they are derived with. -/
theorem map_amount_setupOutputs (env : SendEnv) (txSecretKey : SecretKey)
    (destinations : List TransactionDestination) :
    (setupOutputs env txSecretKey destinations).map (·.amount) =
      (env.sortDestinations.sort destinations).map (·.amount) := by
  rw [← zipIdx_map_fst 0 (env.sortDestinations.sort destinations), map_map, setupOutputs, map_map]
  rfl

theorem sum_amount_setupOutputs (env : SendEnv) (txSecretKey : SecretKey)
    (destinations : List TransactionDestination) :
    ((setupOutputs env txSecretKey destinations).map (·.amount)).sum =
      (destinations.map (·.amount)).sum := by
  rw [map_amount_setupOutputs]
  exact ((env.sortDestinations.perm destinations).map _).sum_eq

/-! ### Receivers -/

/-- The keys an address stands for, also an integrated one. -/
def receiverKeys (crypto : AddressCrypto) (address : Bytes) :
    Except Exception (PublicKey × PublicKey) := do
  if address.length ≠ integratedAddressLength then addressToKeys crypto address
  else
    let (standard, _) ← extractIntegratedAddressData crypto address
    addressToKeys crypto standard

/-- The parts of an amount, for a receiver. -/
def partsFor (receiver : PublicKey × PublicKey) (amount : Nat) : List TransactionDestination :=
  (Digits.parts 10 amount).map fun part => ⟨receiver.1, receiver.2, part⟩

theorem splitFor_eq {amount : Nat} (fits : amount < 2 ^ 64) (receiver : PublicKey × PublicKey) :
    splitFor receiver amount = partsFor receiver amount := by
  rw [splitFor, splitAmountIntoDenominations_eq fits, partsFor]

theorem sum_partsFor (receiver : PublicKey × PublicKey) (amount : Nat) :
    ((partsFor receiver amount).map (·.amount)).sum = amount := by
  rw [partsFor, map_map]
  exact (congrArg sum (map_id _)).trans (Digits.sum_parts 10 amount)

section Receivers

variable {crypto : AddressCrypto}

/-- Replacing integrated addresses changes neither amounts nor receivers. -/
theorem replaceIntegrated_ok {destinations replaced : List Destination}
    {paymentID paymentID' : Bytes}
    (done : replaceIntegrated crypto destinations paymentID = .ok (replaced, paymentID')) :
    List.Forall₂ (fun destination standard => destination.2 = standard.2 ∧
      receiverKeys crypto destination.1 = addressToKeys crypto standard.1) destinations replaced := by
  induction destinations generalizing paymentID replaced with
  | nil =>
    cases done
    exact .nil
  | cons destination destinations ih =>
    obtain ⟨address, amount⟩ := destination
    rw [replaceIntegrated] at done
    split_ifs at done with standard
    · obtain ⟨⟨rest, last⟩, rest_done, done⟩ := of_bind.1 done
      cases done
      exact .cons ⟨rfl, by rw [receiverKeys, if_pos standard]⟩ (ih rest_done)
    · obtain ⟨⟨extracted, id⟩, extracted_eq, done⟩ := of_bind.1 done
      obtain ⟨⟨rest, last⟩, rest_done, done⟩ := of_bind.1 done
      cases done
      refine .cons ⟨rfl, ?_⟩ (ih rest_done)
      rw [receiverKeys, if_neg standard, uncaught_eq_ok.1 extracted_eq]
      rfl

/-- What is paid to receivers, in parts. -/
def paidTo (receivers : List (PublicKey × PublicKey)) (amounts : List Nat) :
    List TransactionDestination :=
  (List.zipWith partsFor receivers amounts).flatten

theorem sum_paidTo {receivers : List (PublicKey × PublicKey)} {amounts : List Nat}
    (same : receivers.length = amounts.length) :
    ((paidTo receivers amounts).map (·.amount)).sum = amounts.sum := by
  induction amounts generalizing receivers with
  | nil => simp [paidTo]
  | cons amount amounts ih =>
    cases receivers with
    | nil => cases same
    | cons receiver receivers =>
      have rest := ih (Nat.succ_injective same)
      rw [paidTo] at rest ⊢
      rw [zipWith_cons_cons, flatten_cons, map_append, sum_append, sum_partsFor, rest, sum_cons]

theorem receivers_of_destinationsFor {pairs : List (Bytes × Amount)}
    {parts : List (List TransactionDestination)} (fits : ∀ pair ∈ pairs, pair.2 < 2 ^ 64)
    (split : List.Forall₂ (fun pair part => destinationsFor crypto pair = .ok part) pairs parts) :
    ∃ receivers, List.Forall₂ (fun pair receiver => addressToKeys crypto pair.1 = .ok receiver)
        pairs receivers ∧ parts.flatten = paidTo receivers (pairs.map Prod.snd) := by
  induction split with
  | nil => exact ⟨[], .nil, rfl⟩
  | cons first rest ih =>
    obtain ⟨receivers, found, flattened⟩ := ih (forall_mem_cons.1 fits).2
    obtain ⟨receiver, keys, made⟩ := of_bind.1 first
    cases made
    refine ⟨receiver :: receivers, .cons (uncaught_eq_ok.1 keys) found, ?_⟩
    rw [flatten_cons, flattened, splitFor_eq (fits _ (.head _))]
    rfl

theorem setupDestinations_ok {pairs : List (Bytes × Amount)} {change : Amount}
    {changeAddress : Bytes} {destinations : List TransactionDestination}
    {changeReceiver : PublicKey × PublicKey} (fits : ∀ pair ∈ pairs, pair.2 < 2 ^ 64)
    (change_fits : change < 2 ^ 64)
    (changeKeys : addressToKeys crypto changeAddress = .ok changeReceiver)
    (done : setupDestinations crypto pairs change changeAddress = .ok destinations) :
    ∃ receivers, List.Forall₂ (fun pair receiver => addressToKeys crypto pair.1 = .ok receiver)
        pairs receivers ∧
      destinations = paidTo receivers (pairs.map Prod.snd) ++ partsFor changeReceiver change := by
  obtain ⟨parts, split, made⟩ := of_bind.1 done
  cases made
  by_cases none_left : change = 0
  · rw [if_neg (by simpa using none_left)] at split
    obtain ⟨receivers, found, flattened⟩ := receivers_of_destinationsFor fits (mapM_ok.1 split)
    refine ⟨receivers, found, ?_⟩
    simp [flattened, none_left, partsFor, Digits.parts, Digits.atPlaces]
  · rw [if_pos none_left, mapM_append] at split
    obtain ⟨front, front_split, split⟩ := of_bind.1 split
    obtain ⟨back, back_split, joined⟩ := of_bind.1 split
    cases joined
    obtain ⟨receivers, found, flattened⟩ := receivers_of_destinationsFor fits (mapM_ok.1 front_split)
    refine ⟨receivers, found, ?_⟩
    have last : back = [splitFor changeReceiver change] := by
      rw [mapM_cons, destinationsFor, changeKeys] at back_split
      cases back_split
      rfl
    rw [flatten_append, flattened, last, splitFor_eq change_fits]
    simp

end Receivers

/-! ### A send that was relayed -/

section Send

variable {env : SendEnv} {outside : SendOutside} {parameters : SendParameters} {c : SubWallets}
  {sent : SentByWallet}

/-- Everything a send has to pay besides the change. -/
def SendParameters.payments (parameters : SendParameters) (outside : SendOutside) : List Destination :=
  withNodeFee outside.nodeFee parameters.addressesAndAmounts

/-- What a send has gone through. -/
structure SendSteps (env : SendEnv) (outside : SendOutside) (parameters : SendParameters)
    (c : SubWallets) (sent : SentByWallet) (replaced : List Destination)
    (spendKeys : List PublicKey) (sumOfInputs : Amount)
    (destinations : List TransactionDestination) : Prop where
  validated : Validated env.addresses outside.nowAtValidation (parameters.payments outside)
    parameters.mixin parameters.fee parameters.paymentID parameters.addressesToTakeFrom
    sent.changeAddress c outside.blockCountAtValidation
  replacedBy : replaceIntegrated env.addresses (parameters.payments outside) parameters.paymentID =
    .ok (replaced, sent.paymentID)
  keys : addressesToSpendKeys env.addresses parameters.addressesToTakeFrom = .ok spendKeys
  chosen : c.getTransactionInputsForAmount outside.shuffle outside.nowAtSelection
    (totalAmount replaced parameters.fee).toNat parameters.addressesToTakeFrom.isEmpty spendKeys
    outside.blockCountAtSelection = .ok (sent.ourInputs, sumOfInputs)
  change : sent.changeRequired = subUInt64 sumOfInputs (totalAmount replaced parameters.fee).toNat
  split : setupDestinations env.addresses
    (replaced.map fun destination => (destination.1, destination.2.toNat)) sent.changeRequired
    sent.changeAddress = .ok destinations
  made : makeTransaction env outside.attempt parameters.mixin sent.ourInputs sent.paymentID destinations
    c parameters.unlockTime parameters.extraData = .ok sent.result

theorem sendTransactionAdvanced_ok
    (relayed : sendTransactionAdvanced env outside parameters c = .ok sent) :
    ∃ replaced spendKeys sumOfInputs destinations,
      SendSteps env outside parameters c sent replaced spendKeys sumOfInputs destinations := by
  unfold sendTransactionAdvanced at relayed
  obtain ⟨changeAddress, -, passed⟩ := of_bind.1 relayed
  obtain ⟨_, valid, passed⟩ := of_bind.1 passed
  obtain ⟨⟨replaced, paymentID⟩, replaced_eq, passed⟩ := of_bind.1 passed
  obtain ⟨spendKeys, keys_eq, passed⟩ := of_bind.1 passed
  obtain ⟨⟨ourInputs, sumOfInputs⟩, chosen, passed⟩ := of_bind.1 passed
  obtain ⟨destinations, split, passed⟩ := of_bind.1 passed
  obtain ⟨result, made, passed⟩ := of_bind.1 passed
  iterate 3 obtain ⟨-, passed⟩ := of_check_bind.1 passed
  obtain ⟨txHash, -, passed⟩ := of_bind.1 passed
  cases passed
  exact ⟨replaced, spendKeys, sumOfInputs, destinations, validated_of_validateTransaction valid,
    replaced_eq, uncaught_eq_ok.1 keys_eq, mapError_eq_ok.1 (uncaught_eq_ok.1 chosen), rfl, split, made⟩

/-- The outputs are made for the parts of the payments and of the change, and what the inputs are
worth beyond the outputs is the fee. All of this is meant without bounds. -/
def PaysExactly (env : SendEnv) (attempt : Attempt) (payments : List Destination) (fee : UInt64)
    (sent : SentByWallet) : Prop :=
  ∃ (receivers : List (PublicKey × PublicKey)) (changeReceiver : PublicKey × PublicKey) (change : Nat)
    (destinations : List TransactionDestination),
    List.Forall₂ (fun payment receiver => receiverKeys env.addresses payment.1 = .ok receiver)
      payments receivers ∧
    addressToKeys env.addresses sent.changeAddress = .ok changeReceiver ∧
    total amount sent.ourInputs = exactTotal payments fee + change ∧
    destinations.Perm (paidTo receivers (payments.map fun payment => payment.2.toNat) ++
      partsFor changeReceiver change) ∧
    sent.result.outputs = destinations.zipIdx.map (fun (destination, outputIndex) =>
      setupOutput env.crypto attempt.txSecretKey destination outputIndex) ∧
    (sent.result.transaction.transaction.inputs.filterMap keyInputAmount).sum =
      (sent.result.transaction.transaction.outputs.map (·.amount)).sum + fee.toNat

/-- The outputs that reach the total, in the order of the shuffle, are worth less than `2 ^ 64`. -/
def SumInRange (env : SendEnv) (outside : SendOutside) (parameters : SendParameters) (c : SubWallets) :
    Prop :=
  ∀ spendKeys available taken,
    addressesToSpendKeys env.addresses parameters.addressesToTakeFrom = .ok spendKeys →
    c.availableInputs outside.nowAtSelection parameters.addressesToTakeFrom.isEmpty spendKeys
      outside.blockCountAtSelection = .ok available →
    reach amount (exactTotal (parameters.payments outside) parameters.fee) 0
      (outside.shuffle available) = some taken →
    total amount taken < 2 ^ 64

/-- The choice of a send: from outputs that are there, until the total is reached. -/
theorem exists_available {shuffle : List TxInputAndOwner → List TxInputAndOwner}
    {now amount height : Nat} {takeFromAll : Bool} {keys : List PublicKey}
    {result : List TxInputAndOwner × Amount}
    (chosen : c.getTransactionInputsForAmount shuffle now amount takeFromAll keys height = .ok result) :
    ∃ available, c.availableInputs now takeFromAll keys height = .ok available ∧
      (∀ owned ∈ available, inputNotSending ≤ owned.input.amount) ∧
      pickInputs amount [] 0 (shuffle available) = .ok result := by
  rw [getTransactionInputsForAmount] at chosen
  split_ifs at chosen
  obtain ⟨wallets, wallets_eq, picked⟩ := of_bind.1 chosen
  have found : c.availableInputs now takeFromAll keys height =
      .ok (wallets.flatMap fun w => (w.getSpendableInputs now height).filter
        fun owned => decide (inputNotSending ≤ owned.input.amount)) := by
    rw [availableInputs, wallets_eq]
    rfl
  exact ⟨_, found, fun owned mem => (mem_availableInputs wallets_eq found mem).2.2, picked⟩

theorem getMinimumFee_pos (height : Nat) : 0 < getMinimumFee height := by
  unfold getMinimumFee
  split_ifs <;> decide

section Steps

variable {replaced : List Destination} {spendKeys : List PublicKey} {sumOfInputs : Amount}
  {destinations : List TransactionDestination}

section

variable
  (steps : SendSteps env outside parameters c sent replaced spendKeys sumOfInputs destinations)
include steps

/-- The total, which did not wrap. -/
theorem SendSteps.total_eq : (totalAmount replaced parameters.fee).toNat =
        exactTotal (parameters.payments outside) parameters.fee ∧
      exactTotal (parameters.payments outside) parameters.fee < 2 ^ 64 ∧
      0 < exactTotal (parameters.payments outside) parameters.fee := by
  obtain ⟨fee_large, _, _, -, -, fits⟩ :=
    exists_balance_of_validateAmount steps.validated.amountPasses
  have related := replaceIntegrated_ok steps.replacedBy
  have same_amounts : replaced.map Prod.snd = (parameters.payments outside).map Prod.snd :=
    (map_eq_of_forall₂ related fun h => h.1).symm
  have replaced_total := toNat_totalAmount (same_amounts ▸ fits)
  have same_total : exactTotal replaced parameters.fee =
      exactTotal (parameters.payments outside) parameters.fee := by
    rw [exactTotal, exactTotal, map_eq_of_forall₂ related fun h => congrArg UInt64.toNat h.1]
  rw [same_total] at replaced_total
  refine ⟨replaced_total.1, replaced_total.2, ?_⟩
  have minimum := getMinimumFee_pos outside.blockCountAtValidation
  rw [exactTotal]
  omega

/-- Whatever the change is, the outputs are made for the payments and for it. -/
theorem SendSteps.outputs_eq : ∃ receivers changeReceiver,
      List.Forall₂ (fun payment receiver => receiverKeys env.addresses payment.1 = .ok receiver)
        (parameters.payments outside) receivers ∧
      addressToKeys env.addresses sent.changeAddress = .ok changeReceiver ∧
      destinations =
        paidTo receivers ((parameters.payments outside).map fun payment => payment.2.toNat) ++
        partsFor changeReceiver sent.changeRequired := by
  -- the change address was validated, so it has keys
  obtain ⟨_, -, passed⟩ := of_bind.1 steps.validated.changeAddressPasses
  obtain ⟨changeReceiver, keys, -⟩ := of_bind.1 (Checked.forM_ok.1 passed sent.changeAddress (.head _))
  have changeKeys := uncaught_eq_ok.1 keys
  have fits : ∀ pair ∈ replaced.map fun destination => (destination.1, destination.2.toNat),
      pair.2 < 2 ^ 64 := by
    intro pair mem
    obtain ⟨destination, -, rfl⟩ := mem_map.1 mem
    exact destination.2.toNat_lt
  have change_fits : sent.changeRequired < 2 ^ 64 := steps.change ▸ uint64_lt _
  obtain ⟨receivers, found, split⟩ := setupDestinations_ok fits change_fits changeKeys steps.split
  have related := replaceIntegrated_ok steps.replacedBy
  refine ⟨receivers, changeReceiver, ?_, changeKeys, ?_⟩
  · exact forall₂_comp related (forall₂_map_left_iff.1 found) fun standard keys =>
      standard.2.trans keys
  · have same : replaced.map (fun destination => destination.2.toNat) =
        (parameters.payments outside).map fun payment => payment.2.toNat :=
      (map_eq_of_forall₂ related fun h => congrArg UInt64.toNat h.1).symm
    rw [split, map_map, ← same]
    rfl

/-- The sums of the transaction that was made. -/
theorem SendSteps.sums_eq :
    (sent.result.transaction.transaction.inputs.filterMap keyInputAmount).sum =
        total amount sent.ourInputs ∧
      (sent.result.transaction.transaction.outputs.map (·.amount)).sum + parameters.fee.toNat =
        exactTotal (parameters.payments outside) parameters.fee + sent.changeRequired := by
  obtain ⟨inputs, outputs, amounts⟩ := makeTransaction_amounts steps.made
  obtain ⟨receivers, changeReceiver, found, -, destinations_eq⟩ := steps.outputs_eq
  refine ⟨inputs.sum_eq, ?_⟩
  have length : receivers.length =
      ((parameters.payments outside).map fun payment => payment.2.toNat).length := by
    rw [length_map, found.length_eq]
  rw [amounts, outputs, sum_amount_setupOutputs, destinations_eq, map_append, sum_append,
    sum_paidTo length, sum_partsFor, exactTotal]
  exact Nat.add_right_comm _ _ _

/-- The outputs that were taken, in terms of the shortest choice that reaches the total. -/
theorem SendSteps.taken_eq : ∃ available shortest,
      c.availableInputs outside.nowAtSelection parameters.addressesToTakeFrom.isEmpty spendKeys
        outside.blockCountAtSelection = .ok available ∧
      reach amount (exactTotal (parameters.payments outside) parameters.fee) 0
        (outside.shuffle available) = some shortest ∧
      shortest <+: sent.ourInputs ∧
      sumOfInputs = uint64 (total amount sent.ourInputs) ∧
      exactTotal (parameters.payments outside) parameters.fee ≤ sumOfInputs ∧
      (total amount shortest < 2 ^ 64 → sent.ourInputs = shortest) := by
  obtain ⟨total_eq, -, positive⟩ := steps.total_eq
  have chosen := steps.chosen
  rw [total_eq] at chosen
  obtain ⟨available, found, kept, picked⟩ := exists_available chosen
  have kept_shuffled : ∀ owned ∈ outside.shuffle available, inputNotSending ≤ owned.input.amount :=
    fun owned mem => kept owned ((outside.isShuffle available).mem_iff.1 mem)
  obtain ⟨fresh, begins, taken_eq, money_eq, reached⟩ :=
    exists_of_pickInputs kept_shuffled (by decide) picked
  rw [nil_append] at taken_eq
  rw [zero_add] at money_eq
  subst taken_eq
  have heavy : exactTotal (parameters.payments outside) parameters.fee ≤
      0 + total amount sent.ourInputs := by
    rw [zero_add]
    exact reached.trans (money_eq ▸ Nat.mod_le _ _)
  obtain ⟨shortest, reach_eq, shorter⟩ := Reaching.reach_of_begins positive begins heavy
  refine ⟨available, shortest, found, reach_eq, shorter, money_eq, reached, fun small => ?_⟩
  rw [pickInputs_of_reach kept_shuffled reach_eq (by rwa [zero_add])] at picked
  exact (congrArg Prod.fst (Except.ok.inj picked)).symm

end

end Steps

/-- A transaction that was relayed pays exactly what was asked for if and only if the outputs that
reach the total, in the order of the shuffle, are worth less than `2 ^ 64` together. -/
theorem send_pays_exactly_iff (relayed : sendTransactionAdvanced env outside parameters c = .ok sent) :
    PaysExactly env outside.attempt (parameters.payments outside) parameters.fee sent ↔
      SumInRange env outside parameters c := by
  obtain ⟨replaced, spendKeys, sumOfInputs, destinations, steps⟩ := sendTransactionAdvanced_ok relayed
  obtain ⟨available, shortest, found, reach_eq, shorter, money_eq, reached, taken_eq⟩ := steps.taken_eq
  obtain ⟨inputs_sum, outputs_sum⟩ := steps.sums_eq
  have money_lt : sumOfInputs < 2 ^ 64 := money_eq ▸ uint64_lt _
  have change : exactTotal (parameters.payments outside) parameters.fee + sent.changeRequired =
      sumOfInputs := by
    rw [steps.change, steps.total_eq.1, subUInt64_of_le money_lt reached, Nat.add_sub_cancel' reached]
  constructor
  · rintro ⟨-, -, -, -, -, -, -, -, -, balanced⟩ keys others taken keys_eq others_eq taken_reach
    -- The change was computed from the wrapped sum, so an exact balance says that it did not wrap.
    cases steps.keys.symm.trans keys_eq
    cases found.symm.trans others_eq
    cases reach_eq.symm.trans taken_reach
    calc total amount shortest
        ≤ total amount sent.ourInputs := Reaching.total_mono shorter
      _ = sumOfInputs := by rw [← inputs_sum, balanced, outputs_sum, change]
      _ < 2 ^ 64 := money_lt
  · intro in_range
    have small := in_range _ _ _ steps.keys found reach_eq
    obtain ⟨receivers, changeReceiver, receivers_eq, changeKeys, destinations_eq⟩ := steps.outputs_eq
    obtain ⟨-, outputs, -⟩ := makeTransaction_amounts steps.made
    have exact_money : sumOfInputs = total amount sent.ourInputs := by
      rw [money_eq, taken_eq small, uint64_of_lt small]
    have taken_total : total amount sent.ourInputs =
        exactTotal (parameters.payments outside) parameters.fee + sent.changeRequired := by
      rw [change, exact_money]
    refine ⟨receivers, changeReceiver, sent.changeRequired, env.sortDestinations.sort destinations,
      receivers_eq, changeKeys, taken_total, destinations_eq ▸ env.sortDestinations.perm destinations,
      outputs, ?_⟩
    rw [inputs_sum, outputs_sum, taken_total]

end Send

namespace Sample

/-- A daemon that asks for a fee of 20 and relays everything. -/
def sendOutside : SendOutside where
  nodeFee := (20, ownAddress)
  blockCountAtValidation := 1
  nowAtValidation := 0
  blockCountAtSelection := 1
  nowAtSelection := 0
  shuffle := id
  isShuffle := fun _ => List.Perm.refl _
  attempt := plainAttempt
  blockCountAtSizeCheck := 1
  relay _ := .success

def sending (amount : UInt64) : SendParameters where
  addressesAndAmounts := [(ownAddress, amount)]
  mixin := 0
  fee := 10
  paymentID := []
  addressesToTakeFrom := []
  changeAddress := []
  unlockTime := 0
  extraData := []

/-- What the transaction of a send is worth: its inputs, and its outputs. -/
def sums (sent : SentByWallet) : Nat × Nat :=
  ((sent.result.transaction.transaction.inputs.filterMap keyInputAmount).sum,
    (sent.result.transaction.transaction.outputs.map (·.amount)).sum)

/-- Outputs of 1000 and 2000 pay 1500, the node and the fee. -/
theorem send_pays_exactly_spendable :
    ∃ sent, sendTransactionAdvanced sendEnv sendOutside (sending 1500) spendable = .ok sent ∧
      sums sent = (3000, 2990) ∧
      PaysExactly sendEnv plainAttempt [(ownAddress, 1500), (ownAddress, 20)] 10 sent := by
  obtain ⟨sent, relayed, sums_eq⟩ : ∃ sent,
      sendTransactionAdvanced sendEnv sendOutside (sending 1500) spendable = .ok sent ∧
        sums sent = (3000, 2990) :=
    Checked.exists_of_toOption_map (by decide +kernel)
  refine ⟨sent, relayed, sums_eq, (send_pays_exactly_iff relayed).2 ?_⟩
  intro spendKeys available taken keys found reached
  obtain rfl : spendKeys = [] := Except.ok.inj (keys.symm.trans rfl)
  obtain rfl : available = [⟨unspent 1 1000, keyOfBytes ownKeys.spendPublicKey, 5⟩,
      ⟨unspent 2 2000, keyOfBytes ownKeys.spendPublicKey, 5⟩] :=
    Except.ok.inj (found.symm.trans (by decide +kernel))
  obtain rfl : taken = [⟨unspent 1 1000, keyOfBytes ownKeys.spendPublicKey, 5⟩,
      ⟨unspent 2 2000, keyOfBytes ownKeys.spendPublicKey, 5⟩] :=
    Option.some.inj (reached.symm.trans (by decide +kernel))
  decide

/-- Outputs worth more than `2 ^ 64` together: the sum wraps on the way to the total, and wraps
again in the check of the fee. -/
theorem sum_wraps :
    let rich := holding [unspent 1 (2 ^ 63), unspent 2 (2 ^ 63), unspent 3 (2 ^ 63 + 10)]
    ∃ sent, sendTransactionAdvanced sendEnv sendOutside (sending (2 ^ 63 - 25)) rich = .ok sent ∧
      sums sent = (2 ^ 64 + 2 ^ 63 + 10, 2 ^ 63) ∧
      ¬PaysExactly sendEnv plainAttempt [(ownAddress, 2 ^ 63 - 25), (ownAddress, 20)] 10 sent := by
  intro rich
  obtain ⟨sent, relayed, sums_eq⟩ : ∃ sent,
      sendTransactionAdvanced sendEnv sendOutside (sending (2 ^ 63 - 25)) rich = .ok sent ∧
        sums sent = (2 ^ 64 + 2 ^ 63 + 10, 2 ^ 63) :=
    Checked.exists_of_toOption_map (by decide +kernel)
  refine ⟨sent, relayed, sums_eq, ?_⟩
  rintro ⟨-, -, -, -, -, -, -, -, -, balanced⟩
  obtain ⟨inputs, outputs⟩ := Prod.mk.inj sums_eq
  rw [inputs, outputs] at balanced
  exact absurd balanced (by decide)

end Sample

end DeroGold.Wallet
