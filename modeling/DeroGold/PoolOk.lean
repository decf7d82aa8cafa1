import DeroGold.Checks
import DeroGold.Lib.Keyed

/-!
The pool's own invariant and what the core does to the pool.

A pool never holds two transactions with one hash, and every key image it has noted is
spent by one of its transactions (`TransactionPool.Ok`). Both hold in every run. With
them `checkAndRemoveInvalidPoolTransactions` keeps exactly the transactions that pass
its verdict.
-/

namespace DeroGold

open List TransactionPool

def PendingTransactionInfo.getTransactionHash (pending : PendingTransactionInfo) : Hash :=
  pending.cachedTransaction.transactionHash

namespace TransactionPool

variable {pool : TransactionPool} {hash : Hash} {pending : PendingTransactionInfo}

/-- Hashes are unique, and noted key images belong to a transaction of the pool. -/
structure Ok (pool : TransactionPool) : Prop where
  hashes : pool.getTransactionHashes.Nodup
  noted : ∀ keyImage ∈ pool.poolState, ∃ pending ∈ pool.transactions,
    keyImage ∈ pending.cachedTransaction.transaction.keyImages

theorem ok_empty : empty.Ok := ⟨nodup_nil, forall_mem_nil _⟩

theorem checkIfTransactionPresent_iff : pool.checkIfTransactionPresent hash = true ↔
      ∃ pending ∈ pool.transactions, pending.cachedTransaction.transactionHash = hash := by
  simp [checkIfTransactionPresent]

theorem tryGetTransaction_eq_none : pool.tryGetTransaction hash = none ↔
      ∀ pending ∈ pool.transactions, pending.cachedTransaction.transactionHash ≠ hash := by
  simp [tryGetTransaction]

variable {tx : CachedTransaction}

theorem tryGetTransaction_some (found : pool.tryGetTransaction hash = some tx) :
    ∃ pending ∈ pool.transactions, pending.cachedTransaction = tx ∧ tx.transactionHash = hash := by
  rw [tryGetTransaction, Option.map_eq_some_iff] at found
  obtain ⟨pending, found, rfl⟩ := found
  have matching := find?_some found
  exact ⟨pending, mem_of_find?_eq_some found, rfl, eq_of_beq matching⟩

/-- Pool transactions with one hash are one. -/
theorem Ok.eq_of_hash (ok : pool.Ok) {other : PendingTransactionInfo}
    (mem : pending ∈ pool.transactions) (mem' : other ∈ pool.transactions)
    (same : pending.cachedTransaction.transactionHash = other.cachedTransaction.transactionHash) :
    pending = other :=
  inj_on_of_nodup_map ok.hashes mem mem' same

theorem transactions_removeTransaction (pool : TransactionPool) (hash : Hash) :
    (pool.removeTransaction hash).transactions =
      Keyed.remove PendingTransactionInfo.getTransactionHash hash pool.transactions := by
  unfold removeTransaction
  split
  · rename_i absent
    rw [tryGetTransaction_eq_none] at absent
    exact (filter_eq_self.2 fun pending mem => decide_eq_true (absent pending mem)).symm
  · exact filter_congr fun pending _ => (decide_not ..).symm

/-- Removing a hash keeps the transactions with other hashes and no others. -/
theorem mem_removeTransaction : pending ∈ (pool.removeTransaction hash).transactions ↔
      pending ∈ pool.transactions ∧ pending.cachedTransaction.transactionHash ≠ hash := by
  rw [transactions_removeTransaction, Keyed.remove, mem_filter, decide_eq_true_eq]
  rfl

theorem Ok.removeTransaction (ok : pool.Ok) (hash : Hash) : (pool.removeTransaction hash).Ok := by
  have noted : ∀ keyImage ∈ (pool.removeTransaction hash).poolState,
      ∃ pending ∈ (pool.removeTransaction hash).transactions,
        keyImage ∈ pending.cachedTransaction.transaction.keyImages := by
    intro keyImage mem
    unfold TransactionPool.removeTransaction at mem
    split at mem
    · rename_i absent
      obtain ⟨pending, held, spends⟩ := ok.noted keyImage mem
      exact ⟨pending, mem_removeTransaction.2
        ⟨held, tryGetTransaction_eq_none.1 absent pending held⟩, spends⟩
    · rename_i tx found
      obtain ⟨noted, kept⟩ := mem_filter.1 mem
      rw [decide_eq_true_eq] at kept
      obtain ⟨pending, held, spends⟩ := ok.noted keyImage noted
      refine ⟨pending, mem_removeTransaction.2 ⟨held, fun same => ?_⟩, spends⟩
      obtain ⟨removed, removed_mem, rfl, removed_hash⟩ := tryGetTransaction_some found
      exact kept (ok.eq_of_hash held removed_mem (same.trans removed_hash.symm) ▸ spends)
  refine ⟨?_, noted⟩
  rw [getTransactionHashes, transactions_removeTransaction]
  exact ok.hashes.sublist (filter_sublist.map _)

theorem Ok.recordDeletion (ok : pool.Ok) (hash : Hash) (now : Nat) :
    (pool.recordDeletion hash now).Ok := by
  unfold TransactionPool.recordDeletion
  split
  · exact ok
  · exact ⟨ok.hashes, ok.noted⟩

theorem Ok.clean (ok : pool.Ok) (now height : Nat) : (pool.clean now height).Ok := by
  have cleaned : (pool.transactions.foldl (cleanTransaction now height) pool).Ok := by
    refine foldlRecOn (motive := Ok) _ _ ok fun pool ok pending _ => ?_
    unfold cleanTransaction
    simp only
    split
    · exact (ok.recordDeletion _ _).removeTransaction _
    · exact ok
  exact ⟨cleaned.hashes, cleaned.noted⟩

/-- A transaction is pushed when it was not deleted lately, is not there yet, and spends
nothing the pool has noted. -/
theorem pushTransaction_cases (pool : TransactionPool) (now : Nat) (tx : CachedTransaction)
    (keyImages : List KeyImage) :
    pool.pushTransaction now tx keyImages = (pool, false) ∨
      pool.checkIfTransactionPresent tx.transactionHash = false ∧
        keyImages.Disjoint pool.poolState ∧
        pool.pushTransaction now tx keyImages =
          ({ pool with
            poolState := pool.poolState ++ keyImages
            transactions := pool.transactions ++ [⟨now, tx⟩] }, true) := by
  unfold pushTransaction
  split
  · exact .inl rfl
  split
  · exact .inl rfl
  · rename_i absent
    rw [Bool.not_eq_true] at absent
    split
    · exact .inl rfl
    · rename_i apart
      refine .inr ⟨absent, fun keyImage mem noted => apart ?_, rfl⟩
      exact any_eq_true.2 ⟨keyImage, mem, decide_eq_true noted⟩

theorem Ok.push (ok : pool.Ok) (now : Nat)
    (absent : pool.checkIfTransactionPresent tx.transactionHash = false) : Ok { pool with
      poolState := pool.poolState ++ tx.transaction.keyImages
      transactions := pool.transactions ++ [⟨now, tx⟩] } := by
  constructor
  · rw [getTransactionHashes, map_append]
    refine nodup_append.2 ⟨ok.hashes, nodup_singleton _, ?_⟩
    intro hash mem other mem' same
    rw [map_singleton, mem_singleton] at mem'
    obtain ⟨pending, held, rfl⟩ := mem_map.1 mem
    rw [← Bool.not_eq_true, checkIfTransactionPresent_iff] at absent
    exact absent ⟨pending, held, same.trans mem'⟩
  · intro keyImage mem
    rcases mem_append.1 mem with mem | mem
    · obtain ⟨pending, held, spends⟩ := ok.noted keyImage mem
      exact ⟨pending, mem_append_left _ held, spends⟩
    · exact ⟨⟨now, tx⟩, mem_append_right _ (mem_singleton_self _), mem⟩

end TransactionPool

namespace Core

variable {env : Env} {order : HashOrder} {now : Nat} {core core' : Core}
  {pending : PendingTransactionInfo}

/-! ### Transactions that enter the pool -/

/-- A transaction valid for the pool has passed validation on the main chain, and its
key images are noted. -/
theorem isTransactionValidForPool_some {tx : CachedTransaction} {keyImages : List KeyImage}
    (valid : core.isTransactionValidForPool env now tx = some keyImages) :
    keyImages = tx.transaction.keyImages ∧
      (core.poolContext env now).validateTransactionInputsExpensive tx = .ok () := by
  unfold isTransactionValidForPool at valid
  split at valid
  · cases valid
  split at valid
  · rename_i state fee passed
    cases valid
    obtain ⟨images, -, -, -, expensive, -⟩ := validate_ok passed nodup_nil
    exact ⟨images, expensive⟩
  · cases valid

/-- What one transaction can do to the pool: nothing, or enter it after validation. -/
theorem addRawTransactionToPool_cases (env : Env) (now : Nat) (core : Core) (raw : RawTransaction) :
    core.addRawTransactionToPool env now raw = core ∨
      ∃ tx, CachedTransaction.ofRaw raw = some tx ∧
        (core.poolContext env now).validateTransactionInputsExpensive tx = .ok () ∧
        core.transactionPool.checkIfTransactionPresent tx.transactionHash = false ∧
        core.addRawTransactionToPool env now raw =
          { core with
            transactionPool := { core.transactionPool with
              poolState := core.transactionPool.poolState ++ tx.transaction.keyImages
              transactions := core.transactionPool.transactions ++ [⟨now, tx⟩] } } := by
  unfold addRawTransactionToPool
  cases CachedTransaction.ofRaw raw with
  | none => exact .inl rfl
  | some tx =>
    unfold addTransactionToPool
    simp only
    split
    · exact .inl rfl
    · split
      · exact .inl rfl
      · rename_i keyImages valid
        obtain ⟨rfl, expensive⟩ := isTransactionValidForPool_some valid
        rcases core.transactionPool.pushTransaction_cases now tx tx.transaction.keyImages with
          same | ⟨absent, -, pushed⟩
        · exact .inl (congrArg ({ core with transactionPool := ·.1 }) same)
        · exact .inr ⟨tx, rfl, expensive, absent,
            congrArg ({ core with transactionPool := ·.1 }) pushed⟩

theorem poolOk_addRawTransactionToPool (ok : core.transactionPool.Ok) (raw : RawTransaction) :
    (core.addRawTransactionToPool env now raw).transactionPool.Ok := by
  rcases addRawTransactionToPool_cases env now core raw with
    same | ⟨tx, -, -, absent, pushed⟩
  · rw [same]
    exact ok
  · rw [pushed]
    exact ok.push now absent

theorem poolOk_copyTransactionsToPool (ok : core.transactionPool.Ok) (alternative : Nat) :
    (core.copyTransactionsToPool env order now alternative).transactionPool.Ok :=
  foldlRecOn (motive := fun core : Core => core.transactionPool.Ok) _ _ ok fun _ ok raw _ =>
    poolOk_addRawTransactionToPool ok raw

/-! ### Transactions that leave the pool -/

/-- One round over a hash of the pool. -/
def checkPoolTransaction (core : Core) (blockKeyImages : List KeyImage) (pool : TransactionPool)
    (hash : Hash) : TransactionPool :=
  match pool.tryGetTransaction hash with
  | none => pool
  | some tx =>
    if core.isValidAfterBlock blockKeyImages tx then pool else pool.removeTransaction hash

variable {pool : TransactionPool}

theorem checkPoolTransaction_spec (core : Core) (ok : pool.Ok)
    (images : List KeyImage) (hash : Hash) : (core.checkPoolTransaction images pool hash).Ok ∧
      ∀ pending, pending ∈ (core.checkPoolTransaction images pool hash).transactions ↔
        pending ∈ pool.transactions ∧ (pending.cachedTransaction.transactionHash = hash →
          core.isValidAfterBlock images pending.cachedTransaction = true) := by
  unfold checkPoolTransaction
  split
  · rename_i absent
    rw [tryGetTransaction_eq_none] at absent
    refine ⟨ok, fun pending => ⟨fun mem => ⟨mem, ?_⟩, And.left⟩⟩
    exact fun same => absurd same (absent pending mem)
  · rename_i tx found
    obtain ⟨named, named_mem, rfl, named_hash⟩ := tryGetTransaction_some found
    have only : ∀ {pending}, pending ∈ pool.transactions →
        pending.cachedTransaction.transactionHash = hash → pending = named :=
      fun mem same => ok.eq_of_hash mem named_mem (same.trans named_hash.symm)
    split
    · rename_i valid
      refine ⟨ok, fun pending => ⟨fun mem => ⟨mem, ?_⟩, And.left⟩⟩
      intro same
      rw [only mem same]
      exact valid
    · rename_i invalid
      refine ⟨ok.removeTransaction hash, fun pending => ?_⟩
      rw [mem_removeTransaction]
      refine and_congr_right fun mem => ⟨fun other same => absurd same other, ?_⟩
      intro valid same
      exact invalid (only mem same ▸ valid same)

/-- Exactly the transactions that pass the verdict stay. -/
theorem checkAndRemoveInvalidPoolTransactions_spec (core : Core)
    (same : core.transactionPool = pool) (ok : pool.Ok) (images : List KeyImage) :
    (core.checkAndRemoveInvalidPoolTransactions images).transactionPool.Ok ∧
      ∀ pending, pending ∈
          (core.checkAndRemoveInvalidPoolTransactions images).transactionPool.transactions ↔
        pending ∈ pool.transactions ∧
          core.isValidAfterBlock images pending.cachedTransaction = true := by
  subst same
  have loop : ∀ (hashes : List Hash) (pool : TransactionPool), pool.Ok →
      (hashes.foldl (core.checkPoolTransaction images) pool).Ok ∧
        ∀ pending, pending ∈
            (hashes.foldl (core.checkPoolTransaction images) pool).transactions ↔
          pending ∈ pool.transactions ∧ (pending.cachedTransaction.transactionHash ∈ hashes →
            core.isValidAfterBlock images pending.cachedTransaction = true) := by
    intro hashes pool ok
    induction hashes generalizing pool with
    | nil => exact ⟨ok, fun pending => by simp⟩
    | cons hash hashes ih =>
      obtain ⟨ok', kept⟩ := checkPoolTransaction_spec core ok images hash
      obtain ⟨ok'', rest⟩ := ih _ ok'
      refine ⟨ok'', fun pending => ?_⟩
      rw [foldl_cons, rest, kept, and_assoc, mem_cons, or_imp]
  obtain ⟨ok', kept⟩ := loop core.transactionPool.getTransactionHashes core.transactionPool ok
  refine ⟨ok', fun pending => ?_⟩
  refine (kept pending).trans (and_congr_right fun mem => ?_)
  exact ⟨fun valid => valid (mem_map_of_mem mem), fun valid _ => valid⟩

/-! ### Every run -/

theorem poolOk_committed {seg previous : Nat} {pushed : PushedBlockInfo}
    {result : AddBlockResult} (ok : core.transactionPool.Ok)
    (committed : Committed env order now core seg previous pushed core' result) :
    core'.transactionPool.Ok := by
  have pool := transactionPool_pushBlock core seg pushed
  cases committed with
  | extendMain top childless main =>
    unfold extendMain
    refine (checkAndRemoveInvalidPoolTransactions_spec _ ?_ ok _).1
    exact pool
  | extendAlternative top childless other lighter => exact pool ▸ ok
  | switch top childless other heavier =>
    unfold switchTo
    refine poolOk_copyTransactionsToPool ?_ _
    refine (checkAndRemoveInvalidPoolTransactions_spec _ ?_ ok _).1
    exact pool
  | forkOnTop top inner => exact ok
  | @forkInside cut below parts =>
    change cut.transactionPool.Ok
    rw [transactionPool_splitSegment parts]
    exact ok

theorem poolOk_step (ok : core.transactionPool.Ok) (call : Call) :
    (core.step env order call).transactionPool.Ok := by
  cases call with
  | addBlock now raw =>
    change (core.addBlock env order now raw).1.transactionPool.Ok
    unfold addBlock
    split
    · unfold onFailure
      split
      · exact ok.removeTransaction _
      · exact ok
    · split
      · exact ok
      · rename_i done
        exact poolOk_committed ok (commit_committed done)
  | addTransactionToPool now raw => exact poolOk_addRawTransactionToPool ok raw
  | cleanPool now => exact ok.clean now _

theorem poolOk_afterCalls (env : Env) (order : HashOrder) (genesis : CachedBlock)
    (calls : List Call) : (afterCalls env order genesis calls).transactionPool.Ok :=
  TransitionSystem.invariant_run_of_step (I := fun core : Core => core.transactionPool.Ok)
    (fun _ call ok => poolOk_step ok call) ok_empty

end Core

end DeroGold
