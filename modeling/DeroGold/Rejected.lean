import DeroGold.Linear
import DeroGold.PoolOk

/-!
What a rejected block leaves behind.

The chain state never changes. The pool can: the first transaction of the block that
fails is looked for in the pool and removed there, whatever branch the block is on and
before its proof of work is asked for. `rejectionHarmless_iff` says exactly when that
costs the pool a transaction that is valid for the main chain.
-/

namespace DeroGold

open Checked NeverFails

/-! ### Where a transaction can fail -/

/-- The failure names a transaction. -/
def BlockFailure.IsTransaction : BlockFailure → Prop
  | .transaction _ _ => True
  | _ => False

/-- The checks made before the loop over the transactions, all passed. -/
structure HeaderChecks (env : Env) (now : Nat) (lineage : Lineage) (previous : Nat)
    (raw : RawBlock) : Prop where
  parsed : extractTransactions raw.transactions = .ok raw.cachedTransactions
  size : raw.cumulativeBlockSize ≤ maxBlockCumulativeSize (previous + 1)
  block : ∃ reward, validateBlock env now lineage previous raw.block = .ok reward
  difficulty : ∃ difficulty, difficulty ≠ 0 ∧
    difficultyForNextBlock lineage previous = .ok difficulty
  hashes : checkTransactionHashes raw.block raw.cachedTransactions = .ok ()

theorem neverFails_extractTransactions (raws : List RawTransaction) :
    NeverFails BlockFailure.IsTransaction (extractTransactions raws) := by
  refine bind (require id) fun _ => mapM (fun raw => ?_) _
  intro e failed
  split at failed
  · cases failed
  · cases failed
    exact id

theorem neverFails_minerReward (crypto : Crypto) (base : Transaction) :
    NeverFails BlockFailure.IsTransaction (minerReward crypto base) := by
  intro e failed
  unfold minerReward at failed
  split at failed
  · cases failed
  · cases failed
    exact id
  · cases failed
    exact id

theorem neverFails_validateBlock (env : Env) (now : Nat) (lineage : Lineage)
    (previous : Nat) (block : CachedBlock) : NeverFails BlockFailure.IsTransaction
      (validateBlock env now lineage previous block) := by
  unfold validateBlock
  iterate 10 refine bind (require id) fun _ => ?_
  exact neverFails_minerReward _ _

theorem neverFails_difficultyForNextBlock (lineage : Lineage) (index : Nat) :
    NeverFails BlockFailure.IsTransaction (difficultyForNextBlock lineage index) := by
  intro e failed
  unfold difficultyForNextBlock at failed
  split at failed
  · cases failed
  · cases failed
    exact id

theorem neverFails_checkTransactionHashes (block : CachedBlock) (txs : List CachedTransaction) :
    NeverFails BlockFailure.IsTransaction (checkTransactionHashes block txs) := by
  unfold checkTransactionHashes
  split
  · refine bind (require id) fun _ => ?_
    refine bind (require id) fun _ => ?_
    refine bind (require id) fun _ => ?_
    exact require id
  · intro e failed
    cases failed

theorem neverFails_blockReward (lineage : Lineage) (previous : Nat) (raw : RawBlock) (fee : Nat) :
    NeverFails BlockFailure.IsTransaction (blockReward lineage previous raw fee) := by
  intro e failed
  simp only [blockReward] at failed
  split at failed
  · cases failed
  · cases failed
    exact id

theorem neverFails_checkCheckpointOrProofOfWork (env : Env) (block : CachedBlock)
    (difficulty : Nat) :
    NeverFails BlockFailure.IsTransaction (checkCheckpointOrProofOfWork env block difficulty) := by
  unfold checkCheckpointOrProofOfWork
  split
  · exact require id
  · exact require id

variable {code : TransactionValidationError} {hash : Hash}

/-- Where the first step names no transaction, the rest does. -/
theorem fails_later {α β : Type} {x : Except BlockFailure α} {f : α → Except BlockFailure β}
    (first : NeverFails BlockFailure.IsTransaction x)
    (failed : (x >>= f) = .error (.transaction code hash)) :
    ∃ a, x = .ok a ∧ f a = .error (.transaction code hash) :=
  (first.bind_error_iff (e := .transaction code hash) trivial).1 failed

/-- A block is rejected for a transaction when the header passes and the loop over the
transactions names it. -/
theorem checkOnBranch_eq_transaction {env : Env} {now : Nat} {lineage : Lineage}
    {median previous : Nat} {raw : RawBlock} :
    checkOnBranch env now lineage median previous raw = .error (.transaction code hash) ↔
      HeaderChecks env now lineage previous raw ∧
        validateBlockTransactions ⟨env, lineage, now, previous, median, false⟩
          raw.cachedTransactions = .error (.transaction code hash) := by
  unfold checkOnBranch
  constructor
  · intro failed
    obtain ⟨txs, parsed, failed⟩ := fails_later (neverFails_extractTransactions _) failed
    obtain ⟨_, size, failed⟩ := fails_later (require id) failed
    obtain ⟨reward, block, failed⟩ := fails_later (neverFails_validateBlock _ _ _ _ _) failed
    obtain ⟨difficulty, next, failed⟩ := fails_later (neverFails_difficultyForNextBlock _ _) failed
    obtain ⟨_, nonzero, failed⟩ := fails_later (require id) failed
    obtain ⟨_, hashes, failed⟩ := fails_later (neverFails_checkTransactionHashes _ _) failed
    obtain rfl := extractTransactions_ok parsed
    rcases bind_eq_error.1 failed with named | ⟨state, -, failed⟩
    · exact ⟨⟨parsed, require_eq_ok.1 size, ⟨reward, block⟩,
        ⟨difficulty, require_eq_ok.1 nonzero, next⟩, hashes⟩, named⟩
    · obtain ⟨reward, -, failed⟩ := fails_later (neverFails_blockReward _ _ _ _) failed
      obtain ⟨_, -, failed⟩ := fails_later (require id) failed
      obtain ⟨_, -, failed⟩ := fails_later (neverFails_checkCheckpointOrProofOfWork _ _ _) failed
      cases failed
  · rintro ⟨⟨parsed, size, ⟨reward, block⟩, ⟨difficulty, nonzero, next⟩, hashes⟩, named⟩
    refine bind_eq_error.2 (.inr ⟨_, parsed, ?_⟩)
    refine bind_eq_error.2 (.inr ⟨⟨⟩, require_eq_ok.2 size, ?_⟩)
    refine bind_eq_error.2 (.inr ⟨_, block, ?_⟩)
    refine bind_eq_error.2 (.inr ⟨_, next, ?_⟩)
    refine bind_eq_error.2 (.inr ⟨⟨⟩, require_eq_ok.2 nonzero, ?_⟩)
    refine bind_eq_error.2 (.inr ⟨_, hashes, ?_⟩)
    exact bind_eq_error.2 (.inl named)

/-- The loop names the first transaction that fails on top of the ones before it. -/
theorem validateBlockTransactions_eq_transaction {context : ValidationContext}
    {txs : List CachedTransaction} :
    validateBlockTransactions context txs = .error (.transaction code hash) ↔
      ∃ before tx after state, txs = before ++ tx :: after ∧
        validateBlockTransactions context before = .ok state ∧
        context.validate tx state.1 = .error (.error code) ∧ tx.transactionHash = hash := by
  unfold validateBlockTransactions
  rw [foldlM_eq_error]
  constructor
  · rintro ⟨before, tx, after, state, rfl, passed, failed⟩
    refine ⟨before, tx, after, state, rfl, passed, ?_⟩
    unfold validateBlockTransaction at failed
    split at failed
    · cases failed
    · rename_i code' named
      cases failed
      exact ⟨named, rfl⟩
    · cases failed
  · rintro ⟨before, tx, after, state, rfl, passed, named, rfl⟩
    refine ⟨before, tx, after, state, rfl, passed, ?_⟩
    unfold validateBlockTransaction
    rw [named]

namespace Core

variable {env : Env} {order : HashOrder} {now : Nat} {core : Core} {raw : RawBlock}

theorem checkBlock_eq_transaction {code : TransactionValidationError} {hash : Hash} :
    core.checkBlock env now raw = .error (.transaction code hash) ↔
      core.hasBlock raw.block.blockHash = false ∧
        ∃ seg, core.findSegmentContainingBlock raw.block.previousBlockHash = some seg ∧
          checkOnBranch env now (core.lineage seg) core.blockMedianSize
            (core.indexIn seg raw.block.previousBlockHash) raw =
              .error (.transaction code hash) := by
  unfold checkBlock
  constructor
  · intro failed
    obtain ⟨_, fresh, failed⟩ := fails_later (require id) failed
    refine ⟨require_eq_ok.1 fresh, ?_⟩
    split at failed
    · cases failed
    · rename_i seg found
      refine ⟨seg, found, ?_⟩
      rcases bind_eq_error.1 failed with failed | ⟨_, -, failed⟩
      · exact failed
      · cases failed
  · rintro ⟨fresh, seg, found, failed⟩
    refine bind_eq_error.2 (.inr ⟨⟨⟩, require_eq_ok.2 fresh, ?_⟩)
    rw [found]
    exact bind_eq_error.2 (.inl failed)

/-! ### Pool transactions lost to a rejected block -/

/-- The transaction passes the validation of the pool against the main chain. -/
def ValidOnMain (env : Env) (now : Nat) (core : Core) (tx : CachedTransaction) : Prop :=
  ∃ valid, (core.poolContext env now).validate tx ⟨[]⟩ = .ok valid

/-- If the block is rejected, the chain state is unchanged and every pool transaction
that is valid for the main chain stays. -/
def RejectionHarmless (env : Env) (order : HashOrder) (now : Nat) (core : Core) (raw : RawBlock) :
    Prop :=
  ∀ reason, (core.addBlock env order now raw).2 = .failed reason →
    OnlyPool core (core.addBlock env order now raw).1 ∧
      ∀ pending ∈ core.transactionPool.transactions,
        core.ValidOnMain env now pending.cachedTransaction →
        pending ∈ (core.addBlock env order now raw).1.transactionPool.transactions

/-- The block is new, its predecessor is known and its header passes, and the first of
its transactions that fails on its branch has the hash of a pool transaction that is
valid for the main chain. -/
def SharesFailing (env : Env) (now : Nat) (core : Core) (raw : RawBlock) : Prop :=
  core.hasBlock raw.block.blockHash = false ∧
    ∃ segment, core.findSegmentContainingBlock raw.block.previousBlockHash = some segment ∧
      HeaderChecks env now (core.lineage segment)
        (core.indexIn segment raw.block.previousBlockHash) raw ∧
      ∃ before tx after state code, raw.cachedTransactions = before ++ tx :: after ∧
        validateBlockTransactions ⟨env, core.lineage segment, now,
          core.indexIn segment raw.block.previousBlockHash, core.blockMedianSize, false⟩ before =
            .ok state ∧
        ValidationContext.validate ⟨env, core.lineage segment, now,
          core.indexIn segment raw.block.previousBlockHash, core.blockMedianSize, false⟩ tx
            state.1 = .error (.error code) ∧
        ∃ pending ∈ core.transactionPool.transactions,
          pending.cachedTransaction.transactionHash = tx.transactionHash ∧
          core.ValidOnMain env now pending.cachedTransaction

theorem sharesFailing_iff : core.SharesFailing env now raw ↔
      ∃ code hash, core.checkBlock env now raw = .error (.transaction code hash) ∧
        ∃ pending ∈ core.transactionPool.transactions,
          pending.cachedTransaction.transactionHash = hash ∧
          core.ValidOnMain env now pending.cachedTransaction := by
  constructor
  · rintro ⟨fresh, seg, found, header, before, tx, after, state, code, split, passed, failed,
      lost⟩
    refine ⟨code, tx.transactionHash, ?_, lost⟩
    refine checkBlock_eq_transaction.2 ⟨fresh, seg, found, ?_⟩
    refine checkOnBranch_eq_transaction.2 ⟨header, ?_⟩
    exact validateBlockTransactions_eq_transaction.2
      ⟨before, tx, after, state, split, passed, failed, rfl⟩
  · rintro ⟨code, hash, rejected, lost⟩
    obtain ⟨fresh, seg, found, rejected⟩ := checkBlock_eq_transaction.1 rejected
    obtain ⟨header, rejected⟩ := checkOnBranch_eq_transaction.1 rejected
    obtain ⟨before, tx, after, state, split, passed, failed, rfl⟩ :=
      validateBlockTransactions_eq_transaction.1 rejected
    exact ⟨fresh, seg, found, header, before, tx, after, state, code, split, passed, failed, lost⟩

/-- A rejected block is harmless exactly when its first failing transaction is not one
that the pool holds and that is valid for the main chain. -/
theorem rejectionHarmless_iff (env : Env) (order : HashOrder) (now : Nat) (core : Core)
    (raw : RawBlock) :
    core.RejectionHarmless env order now raw ↔ ¬ core.SharesFailing env now raw := by
  rw [sharesFailing_iff]
  constructor
  · rintro harmless ⟨code, hash, rejected, pending, mem, same, valid⟩
    have outcome : core.addBlock env order now raw =
        ({ core with transactionPool := core.transactionPool.removeTransaction hash },
          .failed (.transaction code hash)) := by
      unfold addBlock
      rw [rejected]
      rfl
    obtain ⟨-, stays⟩ := harmless _ (congrArg Prod.snd outcome)
    have kept := stays pending mem valid
    rw [outcome] at kept
    exact (TransactionPool.mem_removeTransaction.1 kept).2 same
  · intro unshared reason failed
    unfold addBlock at failed ⊢
    cases checked : core.checkBlock env now raw with
    | error reason' =>
      refine ⟨onlyPool_onFailure core _, fun pending mem valid => ?_⟩
      cases reason' with
      | transaction code hash =>
        refine TransactionPool.mem_removeTransaction.2 ⟨mem, fun same => unshared ?_⟩
        exact ⟨code, hash, checked, pending, mem, same, valid⟩
      | alreadyExists | rejectedAsOrphaned | deserializationFailed | block code | coinbase code
      | threw => exact mem
    | ok place =>
      simp only [checked] at failed ⊢
      split at failed
      · exact ⟨.refl core, fun pending mem _ => mem⟩
      · cases failed

/-- Calls after which the pool holds a transaction that spends the genesis output. -/
def pooledSpend : List Call :=
  Sample.calls (Sample.trunk 12) ++ [.addTransactionToPool 100000 Sample.spend]

/-- A block above height 3, where the genesis output is still locked, takes the
transaction out of the pool although it is valid above height 12. -/
theorem not_rejectionHarmless_oldBranch :
    ¬ (afterCalls Sample.env .insertion Sample.genesis pooledSpend).RejectionHarmless Sample.env
      .insertion 100000 (Sample.next 104 3 4 [Sample.spend] 10) := by
  intro harmless
  obtain ⟨-, stays⟩ := harmless (.transaction .inputSpendLockedOut 5000) (by decide +kernel)
  have kept := stays ⟨100000, ⟨⟨0, [.key ⟨2980232, [0], 77⟩], [⟨2980222, 3⟩], 0, [1]⟩, 5000, 200⟩⟩
    (by decide +kernel) ⟨(⟨[77]⟩, 10), by decide +kernel⟩
  revert kept
  decide +kernel

end Core

end DeroGold
