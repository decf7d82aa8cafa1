import DeroGold.DatabaseSegment
import DeroGold.Outputs

/-!
The counters in memory and those in the store.

While a batch is collected the counters run ahead of the store: they show what the store
will hold once the batch is written. `Pending` says so; it holds again after every
transaction that is pushed or deleted.
-/

namespace DeroGold

open KeyValue Grouped List Option Function Counters BlockchainWriteBatch

namespace Counters

variable {database : Database} {counters : Counters} {amount other : Amount} {diff : Int}

@[simp] theorem updateKeyOutputCount_fst : (counters.updateKeyOutputCount database amount diff).1 =
    (counters.keyOutputCount database amount + diff).toNat := rfl

theorem cached_update :
    (counters.updateKeyOutputCount database amount diff).2.keyOutputCountsForAmounts other =
      if other = amount then some (counters.keyOutputCount database amount + diff).toNat
      else counters.keyOutputCountsForAmounts other :=
  update_apply ..

theorem keyOutputCount_update :
    (counters.updateKeyOutputCount database amount diff).2.keyOutputCount database other =
      if other = amount then (counters.keyOutputCount database amount + diff).toNat
      else counters.keyOutputCount database other := by
  rw [keyOutputCount, cached_update]
  split
  · rfl
  · rfl

/-- An amount that is cached or has outputs is no new one. -/
theorem amountsCount_update
    (met : counters.keyOutputCountsForAmounts amount ≠ none ∨
      counters.keyOutputCount database amount ≠ 0) :
    (counters.updateKeyOutputCount database amount diff).2.getKeyOutputAmountsCount database =
      counters.getKeyOutputAmountsCount database := by
  rw [getKeyOutputAmountsCount, updateKeyOutputCount]
  dsimp only
  split
  · rfl
  · rename_i uncached
    rw [if_neg (met.resolve_left fun cached => cached uncached)]
    rfl

theorem getCachedTransactionsCount_congr {counters' : Counters}
    (same : counters'.transactionsCount = counters.transactionsCount) :
    counters'.getCachedTransactionsCount database = counters.getCachedTransactionsCount database := by
  rw [getCachedTransactionsCount, same]
  rfl

end Counters

/-- The counters show what the store will hold. -/
structure Pending (database : Database) (counters : Counters) (batch : BlockchainWriteBatch) :
    Prop where
  counts : ∀ amount, counters.keyOutputCount database amount =
    ((database.write batch).outputCounts amount).getD 0
  amounts : counters.getKeyOutputAmountsCount database =
    ((database.write batch).amountsCount ()).getD 0
  transactions : counters.getCachedTransactionsCount database =
    ((database.write batch).transactionsCount ()).getD 0
  known : ∀ amount, counters.keyOutputCountsForAmounts amount = none →
    (database.write batch).outputCounts amount = none

/-- Of the three counters nothing is deleted. -/
structure CountersInsertOnly (batch : BlockchainWriteBatch) : Prop where
  counts : batch.outputCounts.removes = []
  amounts : batch.amountsCount.removes = []
  transactions : batch.transactionsCount.removes = []

theorem getD_of_getD_eq {cached : Option Nat} {before after : Nat} (h : cached.getD before = after) :
    cached.getD after = after := by
  cases cached with
  | none => rfl
  | some count => exact h

/-- Once the batch is written, the counters agree with the store. -/
theorem Pending.commit {database : Database} {counters : Counters} {batch : BlockchainWriteBatch}
    (pending : Pending database counters batch) : Pending (database.write batch) counters .empty where
  counts amount := getD_of_getD_eq (pending.counts amount)
  amounts := getD_of_getD_eq pending.amounts
  transactions := getD_of_getD_eq pending.transactions
  known := pending.known

/-- The part of a batch about the counters. -/
def BlockchainWriteBatch.aboutCounters (batch : BlockchainWriteBatch) : BlockchainWriteBatch :=
  { empty with
    outputCounts := batch.outputCounts
    amountsCount := batch.amountsCount
    transactionsCount := batch.transactionsCount }

/-- Batches with the same changes to the counters. -/
theorem Pending.congr {database : Database} {counters : Counters}
    {batch batch' : BlockchainWriteBatch} (pending : Pending database counters batch)
    (same : batch'.aboutCounters = batch.aboutCounters) : Pending database counters batch' := by
  have kept : Pending database counters batch'.aboutCounters := by
    rw [same]
    exact ⟨pending.counts, pending.amounts, pending.transactions, pending.known⟩
  exact ⟨kept.counts, kept.amounts, kept.transactions, kept.known⟩

/-- A batch that is collected, with the counters ahead of the store. -/
structure Database.Ahead (database : Database) (state : Collected) : Prop where
  pending : Pending database state.1 state.2
  only : CountersInsertOnly state.2

theorem Database.Ahead.congr {database : Database} {counters : Counters}
    {batch batch' : BlockchainWriteBatch} (ahead : database.Ahead (counters, batch))
    (same : batch'.aboutCounters = batch.aboutCounters) : database.Ahead (counters, batch') := by
  obtain ⟨pending, counts, amounts, transactions⟩ := ahead
  refine ⟨pending.congr same, .trans ?_ counts, .trans ?_ amounts, .trans ?_ transactions⟩
  · exact (congrArg (·.outputCounts.removes) same :)
  · exact (congrArg (·.amountsCount.removes) same :)
  · exact (congrArg (·.transactionsCount.removes) same :)

/-- The part of a batch that is not about outputs. -/
def BlockchainWriteBatch.withoutOutputs (batch : BlockchainWriteBatch) : BlockchainWriteBatch :=
  { batch with outputCounts := .none, outputs := .none, outputInfos := .none }

namespace Database

variable (database : Database) (env : DatabaseEnv) (info : CachedTransactionInfo)

/-! ### The outputs of a transaction -/

/-- What the loop over the outputs has done to the counters. -/
structure OutputsCounted (before after : PushedOutputs) (amounts : List Amount) : Prop where
  batch : after.batch = { before.batch with outputInfos := after.batch.outputInfos }
  keyIndexes : after.keyIndexes.map (·.1) = before.keyIndexes.map (·.1) ++ amounts
  counts : ∀ amount, after.counters.keyOutputCount database amount =
    before.counters.keyOutputCount database amount + amounts.count amount
  numbered : after.amountToKeyIndexes = before.amountToKeyIndexes ++
    number (before.counters.keyOutputCount database) amounts
  cached : ∀ amount, after.counters.keyOutputCountsForAmounts amount = none ↔
    amount ∉ amounts ∧ before.counters.keyOutputCountsForAmounts amount = none
  noNew : after.newKeyAmounts = [] → before.newKeyAmounts = [] ∧
    after.counters.getKeyOutputAmountsCount database =
      before.counters.getKeyOutputAmountsCount database
  transactions : after.counters.transactionsCount = before.counters.transactionsCount

theorem outputsCounted_pushOutput (state : PushedOutputs) (output : TransactionOutput × Nat) :
    database.OutputsCounted state (database.pushOutput info state output) [output.1.amount] where
  batch := rfl
  keyIndexes := by simp [pushOutput]
  counts amount := by
    rw [pushOutput, keyOutputCount_update, count_singleton]
    split
    · subst amount
      simp only [beq_self_eq_true, if_true]
      omega
    · rename_i other
      simp [Ne.symm other]
  numbered := by
    change _ ++ [(output.1.amount, _)] = _
    rw [updateKeyOutputCount_fst, number, number]
    congr 3
  cached amount := by
    rw [pushOutput, cached_update]
    split
    · simp [*]
    · simp [*]
  noNew none_new := by
    change (if (state.counters.updateKeyOutputCount database output.1.amount 1).1 = 1 then _
      else _) = [] at none_new
    by_cases first : (state.counters.updateKeyOutputCount database output.1.amount 1).1 = 1
    · rw [if_pos first] at none_new
      exact absurd none_new (append_ne_nil_of_right_ne_nil _ (cons_ne_nil _ _))
    · rw [if_neg first] at none_new
      rw [updateKeyOutputCount_fst] at first
      exact ⟨none_new, amountsCount_update (.inr (by omega))⟩
  transactions := rfl

theorem OutputsCounted.trans {database : Database} {first second third : PushedOutputs}
    {low high : List Amount} (lower : database.OutputsCounted first second low)
    (upper : database.OutputsCounted second third high) :
    database.OutputsCounted first third (low ++ high) where
  batch := by rw [upper.batch, lower.batch]
  keyIndexes := by rw [upper.keyIndexes, lower.keyIndexes, append_assoc]
  counts amount := by rw [upper.counts, lower.counts, count_append, add_assoc]
  numbered := by
    rw [upper.numbered, lower.numbered, funext lower.counts, number_append, append_assoc]
  cached amount := by
    rw [upper.cached, lower.cached, mem_append]
    tauto
  noNew none_new := by
    obtain ⟨older, same⟩ := upper.noNew none_new
    exact ⟨(lower.noNew older).1, same.trans (lower.noNew older).2⟩
  transactions := upper.transactions.trans lower.transactions

theorem outputsCounted_foldl (outputs : List (TransactionOutput × Nat)) (state : PushedOutputs) :
    database.OutputsCounted state (outputs.foldl (database.pushOutput info) state)
      (outputs.map (·.1.amount)) := by
  induction outputs generalizing state with
  | nil =>
    exact ⟨rfl, (append_nil _).symm, fun _ => rfl, (append_nil _).symm, fun _ => by simp,
      fun none_new => ⟨none_new, rfl⟩, rfl⟩
  | cons output outputs ih =>
    exact (database.outputsCounted_pushOutput info state output).trans (ih _)

/-- What writing down the positions of some amounts does to the counters: nothing, because
the outputs have been counted already. -/
structure PositionsCounted (before after : Collected) (amounts : List Amount) : Prop where
  batch : after.2 = { before.2 with
    outputCounts := after.2.outputCounts, outputs := after.2.outputs }
  removes : after.2.outputCounts.removes = before.2.outputCounts.removes
  counts : ∀ amount, after.1.keyOutputCount database amount = before.1.keyOutputCount database amount
  cached : ∀ amount, after.1.keyOutputCountsForAmounts amount = none ↔
    before.1.keyOutputCountsForAmounts amount = none
  amountsCount : after.1.getKeyOutputAmountsCount database =
    before.1.getKeyOutputAmountsCount database
  transactions : after.1.transactionsCount = before.1.transactionsCount
  written : before.2.outputCounts.removes = [] → ∀ amount,
    (database.write after.2).outputCounts amount =
      if amount ∈ amounts then some (before.1.keyOutputCount database amount)
      else (database.write before.2).outputCounts amount

theorem keyOutputCount_insertPositions (keyIndexes : List (Amount × PackedOutIndex))
    (state : Collected) (amount other : Amount) :
    (database.insertPositions keyIndexes state amount).1.keyOutputCount database other =
      state.1.keyOutputCount database other := by
  rw [insertPositions, keyOutputCount_update]
  split
  · subst other
    omega
  · rfl

theorem positionsCounted_foldl (keyIndexes : List (Amount × PackedOutIndex)) (amounts : List Amount)
    (state : Collected)
    (cached : ∀ amount ∈ amounts, state.1.keyOutputCountsForAmounts amount ≠ none) :
    database.PositionsCounted state
      (amounts.foldl (database.insertPositions keyIndexes) state) amounts := by
  induction amounts generalizing state with
  | nil => exact ⟨rfl, rfl, fun _ => rfl, fun _ => Iff.rfl, rfl, rfl, fun _ _ => rfl⟩
  | cons amount amounts ih =>
    have here := cached amount mem_cons_self
    have counts := database.keyOutputCount_insertPositions keyIndexes state amount
    have kept : ∀ other,
        (database.insertPositions keyIndexes state amount).1.keyOutputCountsForAmounts other = none ↔
          state.1.keyOutputCountsForAmounts other = none := by
      intro other
      rw [insertPositions, cached_update]
      split
      · subst other
        exact iff_of_false (some_ne_none _) here
      · rfl
    have rest := ih (database.insertPositions keyIndexes state amount) fun other mem =>
      (kept other).not.2 (cached other (mem_cons_of_mem _ mem))
    refine ⟨rest.batch, rest.removes, fun other => (rest.counts other).trans (counts other),
      fun other => (rest.cached other).trans (kept other),
      rest.amountsCount.trans (amountsCount_update (.inl here)), rest.transactions, ?_⟩
    intro none_removed other
    have now : (database.write (database.insertPositions keyIndexes state amount).2).outputCounts other =
        if other = amount then some (state.1.keyOutputCount database amount)
        else (database.write state.2).outputCounts other := by
      change KeyValue.write _ (state.2.outputCounts.insert amount _) other = _
      rw [write_insert none_removed, update_apply]
      split
      · rw [updateKeyOutputCount_fst]
        congr 1
      · rfl
    rw [foldl_cons, rest.written none_removed, now, counts]
    by_cases same : other = amount
    · subst other
      simp
    · simp [same]

/-! ### Pushing a transaction -/

theorem insertPaymentId_eq (tx : CachedTransaction) (batch : BlockchainWriteBatch) :
    database.insertPaymentId env tx batch = { batch with
      paymentCounts := (database.insertPaymentId env tx batch).paymentCounts
      payments := (database.insertPaymentId env tx batch).payments } := by
  unfold insertPaymentId
  split
  · rfl
  · rfl

theorem insertNewAmounts_eq (amounts : List Amount) (state : Collected) :
    database.insertNewAmounts amounts state = { state.2 with
      amountsCount := if amounts = [] then state.2.amountsCount
        else state.2.amountsCount.insert () (state.1.getKeyOutputAmountsCount database)
      amounts := (database.insertNewAmounts amounts state).amounts } := by
  unfold insertNewAmounts
  by_cases none_new : amounts = []
  · rw [if_pos none_new, if_pos none_new]
  · rw [if_neg none_new, if_neg none_new]
    rfl

/-- The loops over the outputs of a transaction only change what is kept about outputs. -/
theorem withoutOutputs_positioned (outputs : List TransactionOutput) (state : Collected) :
    let positioned := database.insertAllPositions (database.pushOutputs info outputs state)
    positioned.2.withoutOutputs = state.2.withoutOutputs ∧
      positioned.1.transactionsCount = state.1.transactionsCount := by
  have counted := foldl_keeps (g := fun state : PushedOutputs =>
    (state.batch.withoutOutputs, state.counters.transactionsCount))
    (f := database.pushOutput info) (fun _ _ => rfl) outputs.zipIdx ⟨state.1, state.2, [], [], []⟩
  let pushed := database.pushOutputs info outputs state
  have positions := foldl_keeps (g := fun state : Collected =>
    (state.2.withoutOutputs, state.1.transactionsCount))
    (f := database.insertPositions pushed.keyIndexes) (fun _ _ => by rfl)
    (pushed.keyIndexes.map (·.1)).dedup (pushed.counters, pushed.batch)
  exact Prod.ext_iff.1 (positions.trans counted)

/-- Every transaction is counted, in memory and in the batch. -/
theorem transactionsCount_pushTransaction (state : Collected)
    (tx : CachedTransaction) (index place : Nat) :
    let after := database.pushTransaction env state tx index place
    let count := state.1.getCachedTransactionsCount database + 1
    after.1.transactionsCount = some count ∧
      after.2.transactionsCount = state.2.transactionsCount.insert () count := by
  intro after count
  obtain ⟨batch, cached⟩ := database.withoutOutputs_positioned (tx.info index place)
    tx.transaction.outputs state
  have count_eq : (database.insertAllPositions (database.pushOutputs
      (tx.info index place) tx.transaction.outputs state)).1.getCachedTransactionsCount
        database + 1 = count :=
    congrArg (· + 1) (getCachedTransactionsCount_congr cached)
  refine ⟨congrArg some count_eq, ?_⟩
  change (database.insertPaymentId env tx _).transactionsCount.insert () _ = _
  rw [insertPaymentId_eq, insertNewAmounts_eq]
  exact congrArg₂ (Changes.insert · ()) (congrArg (·.transactionsCount) batch :) count_eq

theorem keyOutputCount_insertAllPositions (outputs : PushedOutputs) (amount : Amount) :
    (database.insertAllPositions outputs).1.keyOutputCount database amount =
      outputs.counters.keyOutputCount database amount := by
  unfold insertAllPositions
  exact foldl_keeps (g := fun state : Collected =>
    state.1.keyOutputCount database amount)
    (fun state other => database.keyOutputCount_insertPositions _ state other amount) _ _

theorem amounts_eq_zipIdx (tx : CachedTransaction) :
    tx.amounts = tx.transaction.outputs.zipIdx.map (·.1.amount) :=
  (Slice.map_zipIdx_fst _ _ 0).symm

/-- The outputs of a transaction continue the counts. -/
theorem keyOutputCount_pushTransaction (state : Collected)
    (tx : CachedTransaction) (index place : Nat) (amount : Amount) :
    (database.pushTransaction env state tx index place).1.keyOutputCount database
        amount = state.1.keyOutputCount database amount + tx.amounts.count amount := by
  change (database.insertAllPositions _).1.keyOutputCount database amount = _
  rw [keyOutputCount_insertAllPositions]
  apply ((database.outputsCounted_foldl _ _ _).counts amount).trans
  rw [amounts_eq_zipIdx]

theorem transactions_pushTransaction (state : Collected)
    (tx : CachedTransaction) (index place : Nat) :
    (database.pushTransaction env state tx index place).2.transactions =
      state.2.transactions.insert tx.transactionHash ⟨tx.info index place,
        number (state.1.keyOutputCount database) tx.amounts⟩ := by
  have counted := database.outputsCounted_foldl (tx.info index place)
    tx.transaction.outputs.zipIdx ⟨state.1, state.2, [], [], []⟩
  have kept : (database.insertAllPositions (database.pushOutputs (tx.info index place)
      tx.transaction.outputs state)).2.transactions = state.2.transactions :=
    congrArg (·.transactions) (database.withoutOutputs_positioned _ _ _).1
  change (database.insertPaymentId env tx _).transactions.insert _ _ = _
  rw [insertPaymentId_eq, insertNewAmounts_eq]
  change (database.insertAllPositions _).2.transactions.insert tx.transactionHash
    ⟨_, (database.pushOutputs _ _ _).amountToKeyIndexes⟩ = _
  rw [kept, pushOutputs, counted.numbered, amounts_eq_zipIdx]
  rfl

/-- What is stored for the transactions of a block when the outputs before them are counted
by `count`. -/
def storedFrom (blockIndex : Nat) (count : Amount → Nat) :
    List (CachedTransaction × Nat) → List (Hash × StoredTransaction)
  | [] => []
  | tx :: txs =>
    (tx.1.transactionHash, ⟨tx.1.info blockIndex tx.2, number count tx.1.amounts⟩) ::
      storedFrom blockIndex (fun amount => count amount + tx.1.amounts.count amount) txs

/-- What the transactions of a block do to the counters and to the stored transactions. -/
theorem pushTransactions_spec (index : Nat) (txs : List CachedTransaction) (state : Collected) :
    let after := database.pushTransactions env index txs state
    (∀ amount, after.1.keyOutputCount database amount = state.1.keyOutputCount database amount +
        (txs.flatMap CachedTransaction.amounts).count amount) ∧
      after.1.getCachedTransactionsCount database =
        state.1.getCachedTransactionsCount database + txs.length ∧
      after.2.transactions = state.2.transactions.insertAll
        (storedFrom index (state.1.keyOutputCount database) txs.zipIdx) := by
  rw [← Slice.flatMap_zipIdx_fst _ txs 0, ← length_zipIdx (l := txs), pushTransactions]
  generalize txs.zipIdx = indexed
  induction indexed generalizing state with
  | nil =>
    refine ⟨fun _ => rfl, rfl, ?_⟩
    rw [storedFrom, Changes.insertAll, append_nil]
    rfl
  | cons tx indexed ih =>
    obtain ⟨counts, transactions, stored⟩ := ih (database.pushTransaction env state tx.1 index tx.2)
    have here := funext (database.keyOutputCount_pushTransaction env state tx.1 index tx.2)
    obtain ⟨counted, -⟩ := database.transactionsCount_pushTransaction env state tx.1 index tx.2
    refine ⟨fun amount => ?_, transactions.trans ?_, stored.trans ?_⟩
    · apply (counts amount).trans
      rw [here, flatMap_cons, count_append, add_assoc]
    · rw [getCachedTransactionsCount, counted, getD_some, length_cons]
      omega
    · rw [here, transactions_pushTransaction, storedFrom]
      simp only [Changes.insertAll, Changes.insert, append_assoc, cons_append, nil_append]

variable {database} {state : Collected}

section

variable (ahead : database.Ahead state)
include ahead

theorem Ahead.pushTransaction (tx : CachedTransaction) (index place : Nat) :
    database.Ahead (database.pushTransaction env state tx index place) := by
  obtain ⟨counters, batch⟩ := state
  obtain ⟨pending, only⟩ := ahead
  unfold pushTransaction
  dsimp only
  generalize tx.info index place = info
  have counted := database.outputsCounted_foldl info tx.transaction.outputs.zipIdx
    ⟨counters, batch, [], [], []⟩
  change database.OutputsCounted _ (database.pushOutputs info tx.transaction.outputs (counters, batch)) _
    at counted
  generalize database.pushOutputs info tx.transaction.outputs (counters, batch) = outputs at counted ⊢
  generalize tx.transaction.outputs.zipIdx.map (·.1.amount) = amounts at counted
  have placed := database.positionsCounted_foldl outputs.keyIndexes
    (outputs.keyIndexes.map (·.1)).dedup (outputs.counters, outputs.batch) (by
      intro amount mem uncached
      rw [mem_dedup, counted.keyIndexes] at mem
      exact ((counted.cached amount).1 uncached).1 mem)
  change database.PositionsCounted _ (database.insertAllPositions outputs) _ at placed
  generalize database.insertAllPositions outputs = positioned at placed ⊢
  have counts_only : outputs.batch.outputCounts.removes = [] := by
    rw [counted.batch]
    exact only.counts
  have untouched : (database.write outputs.batch).outputCounts =
      (database.write batch).outputCounts := by
    rw [counted.batch]
    rfl
  have mem_amounts : ∀ amount, amount ∈ (outputs.keyIndexes.map (·.1)).dedup ↔ amount ∈ amounts := by
    intro amount
    rw [mem_dedup, counted.keyIndexes]
    rfl
  have amounts_eq : positioned.2.amountsCount = batch.amountsCount := by
    rw [placed.batch, counted.batch]
  have transactions_eq : positioned.2.transactionsCount = batch.transactionsCount := by
    rw [placed.batch, counted.batch]
  rw [insertPaymentId_eq, insertNewAmounts_eq]
  refine ⟨⟨?_, ?_, ?_, ?_⟩, ⟨?_, ?_, ?_⟩⟩
  · intro amount
    change positioned.1.keyOutputCount database amount =
      ((database.write positioned.2).outputCounts amount).getD 0
    rw [placed.counts, placed.written counts_only]
    by_cases present : amount ∈ amounts
    · rw [if_pos ((mem_amounts amount).2 present)]
      rfl
    · rw [if_neg ((mem_amounts amount).not.2 present), counted.counts,
        count_eq_zero.2 present, untouched]
      exact pending.counts amount
  · change positioned.1.getKeyOutputAmountsCount database = (KeyValue.write database.amountsCount
      (if outputs.newKeyAmounts = [] then positioned.2.amountsCount else _) ()).getD 0
    split
    · rename_i none_new
      rw [placed.amountsCount, (counted.noNew none_new).2, amounts_eq]
      exact pending.amounts
    · rw [KeyValue.write_insert (by rw [amounts_eq, only.amounts]), update_self]
      rfl
  · change _ = (KeyValue.write database.transactionsCount
      (positioned.2.transactionsCount.insert () _) ()).getD 0
    rw [write_insert (by rw [transactions_eq, only.transactions]), update_self]
    rfl
  · intro amount uncached
    change positioned.1.keyOutputCountsForAmounts amount = none at uncached
    change (database.write positioned.2).outputCounts amount = none
    rw [placed.cached, counted.cached] at uncached
    rw [placed.written counts_only, if_neg ((mem_amounts amount).not.2 uncached.1), untouched]
    exact pending.known amount uncached.2
  · exact placed.removes.trans counts_only
  · change (if outputs.newKeyAmounts = [] then positioned.2.amountsCount else _).removes = []
    rw [amounts_eq]
    split
    · exact only.amounts
    · exact only.amounts
  · change positioned.2.transactionsCount.removes = []
    rw [transactions_eq, only.transactions]

theorem Ahead.pushTransactions (index : Nat) (txs : List CachedTransaction) :
    database.Ahead (database.pushTransactions env index txs state) := by
  unfold Database.pushTransactions
  generalize txs.zipIdx = indexed
  induction indexed generalizing state with
  | nil => exact ahead
  | cons tx indexed ih => exact ih (ahead.pushTransaction env tx.1 index tx.2)

/-! ### Deleting -/

theorem Ahead.requestDeleteTransactions (transactionHashes : List Hash) :
    database.Ahead (database.requestDeleteTransactions transactionHashes state) := by
  unfold Database.requestDeleteTransactions
  induction transactionHashes generalizing state with
  | nil => exact ahead
  | cons hash hashes ih =>
    obtain ⟨pending, only⟩ := ahead
    refine ih ⟨⟨pending.counts, pending.amounts, ?_, pending.known⟩,
      ⟨only.counts, only.amounts, only.transactions⟩⟩
    change _ = (KeyValue.write database.transactionsCount
      (state.2.transactionsCount.insert () _) ()).getD 0
    rw [write_insert only.transactions, update_self]
    rfl

end

theorem foldl_removeKeyOutputInfo (amount : Amount) (indexes : List Nat) (batch : BlockchainWriteBatch) :
    indexes.foldl (fun batch index => batch.removeKeyOutputInfo amount index) batch =
      { batch with outputInfos := batch.outputInfos.removeAll (indexes.map (amount, ·)) } := by
  induction indexes generalizing batch with
  | nil =>
    rw [map_nil, Changes.removeAll, append_nil]
    rfl
  | cons index indexes ih =>
    rw [foldl_cons, ih, removeKeyOutputInfo]
    simp only [Changes.removeAll, Changes.remove, map_cons, append_assoc, cons_append, nil_append]

/-- The outputs of an amount from a boundary on, if nothing of the amount has been deleted
yet. -/
theorem Ahead.deleteKeyOutputsAmount (ahead : database.Ahead state) {amount : Amount}
    {outputsCount : Nat} (stored : database.outputCounts amount = some outputsCount)
    (untouched : (database.write state.2).outputCounts amount = database.outputCounts amount)
    (boundary : Nat) :
    let after := database.requestDeleteKeyOutputsAmount amount boundary outputsCount state
    database.Ahead after ∧ (database.write after.2).outputCounts =
      update (database.write state.2).outputCounts amount (some boundary) := by
  intro after
  obtain ⟨counters, batch⟩ := state
  obtain ⟨pending, only⟩ := ahead
  have batch_eq : after.2 = { batch with
      outputCounts := batch.outputCounts.insert amount boundary
      outputs := after.2.outputs
      outputInfos := after.2.outputInfos } := by
    rw [show after.2 = _ from foldl_removeKeyOutputInfo amount _ _]
    rfl
  have counts_eq : (database.write after.2).outputCounts =
      update (database.write batch).outputCounts amount (some boundary) := by
    rw [batch_eq]
    exact write_insert only.counts _ _ _
  have cached : counters.keyOutputCountsForAmounts amount ≠ none := by
    intro uncached
    have absent := pending.known amount uncached
    rw [untouched, stored] at absent
    cases absent
  have count : counters.keyOutputCount database amount = outputsCount := by
    rw [pending.counts, untouched, stored, getD_some]
  refine ⟨⟨⟨?_, ?_, ?_, ?_⟩, ⟨?_, ?_, ?_⟩⟩, counts_eq⟩
  · intro other
    change (counters.updateKeyOutputCount database amount _).2.keyOutputCount database other = _
    rw [counts_eq, keyOutputCount_update, update_apply, count]
    split
    · rw [getD_some]
      omega
    · exact pending.counts other
  · change (counters.updateKeyOutputCount database amount _).2.getKeyOutputAmountsCount database = _
    rw [amountsCount_update (.inl cached), pending.amounts, batch_eq]
    rfl
  · change counters.getCachedTransactionsCount database = _
    rw [pending.transactions, batch_eq]
    rfl
  · intro other uncached
    change (counters.updateKeyOutputCount database amount _).2.keyOutputCountsForAmounts other = none
      at uncached
    rw [cached_update] at uncached
    rw [counts_eq, update_apply]
    split at uncached
    · cases uncached
    · rename_i distinct
      rw [if_neg distinct]
      exact pending.known other uncached
  · rw [batch_eq]
    exact only.counts
  · rw [batch_eq]
    exact only.amounts
  · rw [batch_eq]
    exact only.transactions

theorem Ahead.requestDeleteKeyOutputs (ahead : database.Ahead state)
    (untouched : (database.write state.2).outputCounts = database.outputCounts)
    (deleted : List StoredTransaction) :
    database.Ahead (database.requestDeleteKeyOutputs deleted state) := by
  unfold Database.requestDeleteKeyOutputs
  have distinct := nodup_dedup ((deleted.flatMap (·.amountToKeyIndexes)).map (·.1))
  generalize ((deleted.flatMap (·.amountToKeyIndexes)).map (·.1)).dedup = amounts at distinct
  replace untouched : ∀ amount ∈ amounts,
      (database.write state.2).outputCounts amount = database.outputCounts amount :=
    fun amount _ => congrFun untouched amount
  induction amounts generalizing state with
  | nil => exact ahead
  | cons amount amounts ih =>
    rw [nodup_cons] at distinct
    rw [foldl_cons]
    have rest := fun other mem => untouched other (mem_cons_of_mem amount mem)
    split
    · rename_i outputsCount boundary stored bounded
      obtain ⟨ahead, counts_eq⟩ :=
        ahead.deleteKeyOutputsAmount stored (untouched amount mem_cons_self) boundary
      refine ih ahead distinct.2 fun other mem => ?_
      apply (congrFun counts_eq other).trans
      rw [update_of_ne (ne_of_mem_of_not_mem mem distinct.1)]
      exact rest other mem
    · exact ih ahead distinct.2 rest

end Database

end DeroGold
