import DeroGold.DatabaseRuns

/-!
Operations of the database segment whose batch the database refuses.

The counters are adjusted while the batch is collected and are not set back when the write
fails. The store, the top of the chain and the newest infos are as before, but the numbers
of transactions and outputs are those of the state that was not reached
(`failedWrite_leavesTrace`). A block that is pushed again is then numbered from there.
-/

namespace DeroGold

open List Sample

namespace DatabaseSegment

variable {seg : DatabaseSegment} {env : DatabaseEnv} {pushed : PushedBlockInfo}
  {cut : Nat}

/-- What is left of a call whose batch is refused. -/
def failed (env : DatabaseEnv) (segment : DatabaseSegment) : DatabaseCall → DatabaseSegment
  | .pushBlock pushed => (segment.pushBlock env false pushed).segment
  | .split splitBlockIndex => (segment.split env false splitBlockIndex).segment

/-- The call reaches the write, which fails. -/
def WriteFails (env : DatabaseEnv) (segment : DatabaseSegment) : DatabaseCall → Prop
  | .pushBlock pushed => (segment.pushBlock env false pushed).result = .error .writeFailed
  | .split splitBlockIndex => (segment.split env false splitBlockIndex).result = .error .writeFailed

instance (env : DatabaseEnv) (segment : DatabaseSegment) : DecidablePred (WriteFails env segment)
  | .pushBlock _ | .split _ => inferInstanceAs (Decidable (_ = _))

/-- The store and what is known about the top of the chain are the same. -/
structure SameChain (before after : DatabaseSegment) : Prop where
  database : after.database = before.database
  topIndex : after.getTopBlockIndex = before.getTopBlockIndex
  topHash : after.getTopBlockHash = before.getTopBlockHash
  units : ∀ count blockIndex useGenesis, after.getLastUnits count blockIndex useGenesis =
    before.getLastUnits count blockIndex useGenesis

/-- So are the counters. -/
structure SameState (before after : DatabaseSegment) : Prop extends SameChain before after where
  outputCounts : ∀ amount, after.keyOutputCount after.database amount =
    before.keyOutputCount before.database amount
  transactionCount : after.getTransactionCount = before.getTransactionCount
  amountsCount : after.getKeyOutputAmountsCount after.database =
    before.getKeyOutputAmountsCount before.database

/-- The global indexes that the transactions have once a block has been pushed. -/
def assignedIndexes (env : DatabaseEnv) (segment : DatabaseSegment) (pushed : PushedBlockInfo)
    (transactionHash : Hash) : Option (List Nat) :=
  ((segment.pushBlock env true pushed).segment.database.transactions transactionHash).map
    StoredTransaction.globalIndexes

/-- Nothing of the failed call remains, and a block pushed again gets the indexes it would have
got. -/
def LeavesNoTrace (env : DatabaseEnv) (segment : DatabaseSegment) (call : DatabaseCall) : Prop :=
  SameState segment (failed env segment call) ∧ ∀ pushed, call = .pushBlock pushed →
    assignedIndexes env (failed env segment call) pushed = assignedIndexes env segment pushed

/-! ### Pushing -/

section

variable (fails : WriteFails env seg (.pushBlock pushed))
include fails

theorem failed_pushBlock : ∃ last : CachedBlockInfo, failed env seg (.pushBlock pushed) =
      { seg with toCounters := (seg.prepared env (last.next pushed) pushed).1 } := by
  cases found : seg.database.blockInfos seg.getTopBlockIndex with
  | none =>
    rw [WriteFails, pushBlock] at fails
    simp [found] at fails
  | some last =>
    rw [WriteFails, pushBlock_eq found] at fails
    rw [failed, pushBlock_eq found]
    by_cases late : maxTime < pushed.rawBlock.block.timestamp
    · rw [if_pos late] at fails
      cases fails
    · rw [if_neg late]
      exact ⟨last, rfl⟩

end

/-! ### Splitting -/

theorem failed_split (fails : WriteFails env seg (.split cut)) :
    seg.requestTransactionHashesFromBlockIndex cut ≠ [] ∧
      ∃ deleting deleted, failed env seg (.split cut) =
        { seg with toCounters := (seg.cutDown env .empty deleting cut deleted).1 } := by
  rw [WriteFails, split] at fails
  rw [failed, split]
  split at fails
  · cases fails
  · rename_i deleting blocks
    split at fails
    · cases fails
    · rename_i inside
      rw [if_neg inside]
      dsimp only at fails ⊢
      cases stored : seg.database.requestExtendedTransactionInfos
          (seg.requestTransactionHashesFromBlockIndex cut) with
      | none =>
        unfold deleteFrom at fails
        simp [stored, Except.map] at fails
      | some deleted =>
        have asked : seg.requestTransactionHashesFromBlockIndex cut ≠ [] := by
          intro empty
          rw [empty, Database.requestExtendedTransactionInfos, if_pos rfl] at stored
          cases stored
        cases found : seg.database.blockInfos cut with
        | none =>
          unfold deleteFrom at fails
          simp [stored, found, Except.map] at fails
        | some info =>
          rw [deleteFrom_eq stored found] at fails ⊢
          by_cases late : maxTime < info.timestamp
          · rw [if_pos late] at fails
            cases fails
          · rw [if_neg late]
            exact ⟨asked, deleting, deleted, rfl⟩

theorem getCachedTransactionsCount_requestDeleteTransactions (db : Database) (hash : Hash)
    (hashes : List Hash) (state : Collected) :
    (db.requestDeleteTransactions (hash :: hashes) state).1.getCachedTransactionsCount db =
      subUInt64 (state.1.getCachedTransactionsCount db) (hashes.length + 1) := by
  have counted : ∀ (counters : Counters) count, ({ counters with
      transactionsCount := some count } : Counters).getCachedTransactionsCount db = count :=
    fun _ _ => rfl
  unfold Database.requestDeleteTransactions
  induction hashes generalizing hash state with
  | nil => simp only [foldl_cons, foldl_nil, counted, length_nil, Nat.zero_add]
  | cons next hashes ih =>
    rw [foldl_cons, ih]
    simp only [counted, subUInt64_subUInt64, length_cons, Nat.add_comm 1]

theorem transactionCount_failed_split (fails : WriteFails env seg (.split cut)) :
    (failed env seg (.split cut)).getTransactionCount = subUInt64 seg.getTransactionCount
      (seg.requestTransactionHashesFromBlockIndex cut).length := by
  obtain ⟨asked, deleting, deleted, left⟩ := failed_split fails
  obtain ⟨hash, hashes, asked⟩ := exists_cons_of_ne_nil asked
  rw [left]
  change (seg.cutDown env .empty deleting cut deleted).1.getCachedTransactionsCount
    seg.database = _
  have kept : ∀ state, (seg.database.requestDeleteKeyOutputs deleted state).1.transactionsCount =
      state.1.transactionsCount := by
    intro state
    unfold Database.requestDeleteKeyOutputs
    refine foldl_keeps (g := fun state : Collected =>
      state.1.transactionsCount) (fun state amount => ?_) _ _
    split
    · rfl
    · rfl
  rw [cutDown, Counters.getCachedTransactionsCount_congr (kept _), asked,
    getCachedTransactionsCount_requestDeleteTransactions]
  rfl

/-! ### Every failed write -/

/-- A failed write leaves the store and the top of the chain alone, but never the counters:
pushed transactions and outputs stay counted, deleted transactions stay uncounted (in a
64-bit count, which a multiple of 2^64 of them would leave as it is). -/
theorem failedWrite_leavesTrace (env : DatabaseEnv) (segment : DatabaseSegment) :
    (∀ pushed, WriteFails env segment (.pushBlock pushed) →
      ¬ LeavesNoTrace env segment (.pushBlock pushed) ∧
        SameChain segment (failed env segment (.pushBlock pushed)) ∧
        (failed env segment (.pushBlock pushed)).getTransactionCount =
          segment.getTransactionCount + pushed.rawBlock.allTransactions.length ∧
        ∀ amount, (failed env segment (.pushBlock pushed)).keyOutputCount segment.database amount =
          segment.keyOutputCount segment.database amount +
            (pushed.rawBlock.allTransactions.flatMap CachedTransaction.amounts).count amount) ∧
    ∀ splitBlockIndex, WriteFails env segment (.split splitBlockIndex) →
      (segment.requestTransactionHashesFromBlockIndex splitBlockIndex).length < 2 ^ 64 →
      ¬ LeavesNoTrace env segment (.split splitBlockIndex) ∧
        SameChain segment (failed env segment (.split splitBlockIndex)) ∧
        (failed env segment (.split splitBlockIndex)).getTransactionCount =
          subUInt64 segment.getTransactionCount
            (segment.requestTransactionHashesFromBlockIndex splitBlockIndex).length := by
  refine ⟨fun pushed fails => ?_, fun splitBlockIndex fails few => ?_⟩
  · obtain ⟨last, left⟩ := failed_pushBlock fails
    have transactions : (failed env segment (.pushBlock pushed)).getTransactionCount =
        segment.getTransactionCount + pushed.rawBlock.allTransactions.length := by
      rw [left]
      exact (segment.database.pushTransactions_spec env _ _ _).2.1
    refine ⟨fun noTrace => ?_, ?_, transactions, fun amount => ?_⟩
    · -- the coinbase alone moves the number of transactions
      have same := noTrace.1.transactionCount
      rw [transactions, RawBlock.allTransactions, length_cons] at same
      omega
    · rw [left]
      -- only counters are adjusted before the write
      exact ⟨rfl, rfl, rfl, fun _ _ _ => rfl⟩
    · rw [left]
      exact (segment.database.pushTransactions_spec env _ _ _).1 amount
  · have transactions := transactionCount_failed_split fails
    obtain ⟨asked, deleting, deleted, left⟩ := failed_split fails
    refine ⟨fun noTrace => ?_, ?_, transactions⟩
    · have same := noTrace.1.transactionCount
      have pos := length_pos_of_ne_nil asked
      rw [transactions] at same
      exact subUInt64_ne pos few same
    · rw [left]
      exact ⟨rfl, rfl, rfl, fun _ _ _ => rfl⟩

end DatabaseSegment

namespace Sample

/-- The block after them. -/
def third : PushedBlockInfo := pushed (next 3 2 3 [] 0)

end Sample

namespace DatabaseSegment

theorem failedWrite_leavesTrace_two :
    (WriteFails databaseEnv twoBlocks (.pushBlock third) ∧
      ¬ LeavesNoTrace databaseEnv twoBlocks (.pushBlock third)) ∧
    WriteFails databaseEnv twoBlocks (.split 1) ∧
      ¬ LeavesNoTrace databaseEnv twoBlocks (.split 1) := by
  have push : WriteFails databaseEnv twoBlocks (.pushBlock third) := by
    decide +kernel
  have split : WriteFails databaseEnv twoBlocks (.split 1) := by decide +kernel
  have trace := failedWrite_leavesTrace databaseEnv twoBlocks
  exact ⟨⟨push, (trace.1 _ push).1⟩, split, (trace.2 _ split (by decide +kernel)).1⟩

/-- The coinbase of a block whose first push failed gets the next index instead of the first. -/
theorem not_leavesNoTrace_third :
    assignedIndexes databaseEnv twoBlocks third 1000003 = some [0] ∧
      assignedIndexes databaseEnv
        (failed databaseEnv twoBlocks (.pushBlock third)) third 1000003 = some [1] ∧
      ¬ LeavesNoTrace databaseEnv twoBlocks (.pushBlock third) := by
  refine ⟨by decide +kernel, by decide +kernel, fun noTrace => ?_⟩
  have same := noTrace.1.transactionCount
  revert same
  decide +kernel

end DatabaseSegment

end DeroGold
