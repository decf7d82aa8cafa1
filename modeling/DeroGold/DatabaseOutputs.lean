import DeroGold.DatabaseRuns

/-!
What the database stores about outputs for ring lookups: under an amount and a global index the
info of the output that has this number among the outputs of the amount on the stored chain
(`BuiltBy.storesOutputs`). Transactions may repeat; the infos are numbered as the outputs come.
-/

namespace DeroGold

open Grouped List TransitionSystem CachedTransaction

/-- What is stored for the outputs of a transaction, with their amounts. -/
def CachedTransaction.outputInfos (tx : CachedTransaction) : List (Amount × KeyOutputInfo) :=
  tx.transaction.outputs.zipIdx.map fun output =>
    (output.1.amount, ⟨output.1.key, tx.transactionHash, tx.transaction.unlockTime, output.2⟩)

/-- Infos of the outputs of some blocks, in the order of the chain. -/
def outputInfosFrom (blocks : List RawBlock) : List (Amount × KeyOutputInfo) :=
  (blocks.flatMap RawBlock.allTransactions).flatMap outputInfos

/-- Infos of the outputs of an amount on a chain, by global index. -/
def outputInfosOf (amount : Amount) (blocks : List RawBlock) : List KeyOutputInfo :=
  group amount (outputInfosFrom blocks)

theorem outputInfosFrom_append (xs ys : List RawBlock) :
    outputInfosFrom (xs ++ ys) = outputInfosFrom xs ++ outputInfosFrom ys := by
  simp [outputInfosFrom]

theorem outputInfosOf_append (amount : Amount) (xs ys : List RawBlock) :
    outputInfosOf amount (xs ++ ys) = outputInfosOf amount xs ++ outputInfosOf amount ys := by
  simp [outputInfosOf, outputInfosFrom_append]

/-- The store lists the outputs of some blocks. -/
def Database.StoresOutputs (database : Database) (blocks : List RawBlock) : Prop :=
  ∀ amount globalIndex,
    database.outputInfos (amount, globalIndex) = (outputInfosOf amount blocks)[globalIndex]?

namespace Database

variable {db : Database}

/-- With the changes of a batch the store lists some outputs, and the counters count them. -/
structure Lists (database : Database) (counters : Counters) (batch : BlockchainWriteBatch)
    (infos : List (Amount × KeyOutputInfo)) : Prop where
  stored : ∀ amount globalIndex,
    (database.write batch).outputInfos (amount, globalIndex) = (group amount infos)[globalIndex]?
  counted : ∀ amount, counters.keyOutputCount database amount = (group amount infos).length
  kept : batch.outputInfos.removes = []

variable {counters : Counters} {batch : BlockchainWriteBatch}
  {infos : List (Amount × KeyOutputInfo)}

/-- Only the counts and the infos matter. -/
theorem Lists.congr {counters' : Counters} {batch' : BlockchainWriteBatch}
    (lists : db.Lists counters batch infos) (counts : ∀ amount, counters'.keyOutputCount db amount =
      counters.keyOutputCount db amount) (same : batch'.outputInfos = batch.outputInfos) :
    db.Lists counters' batch' infos where
  stored amount index := by
    rw [← lists.stored, Database.write, Database.write, same]
  counted amount := (counts amount).trans (lists.counted amount)
  kept := by rw [same, lists.kept]

/-- An output is listed behind those of its amount. -/
theorem Lists.pushOutput {state : PushedOutputs} (lists : db.Lists state.counters state.batch infos)
    (info : CachedTransactionInfo) (output : TransactionOutput × Nat) :
    db.Lists (db.pushOutput info state output).counters
      (db.pushOutput info state output).batch
      (infos ++ [(output.1.amount,
        ⟨output.1.key, info.transactionHash, info.unlockTime, output.2⟩)]) where
  stored amount index := by
    have place : (state.counters.updateKeyOutputCount db output.1.amount 1).1 - 1 =
        (group output.1.amount infos).length := by
      rw [Counters.updateKeyOutputCount_fst, lists.counted]
      omega
    change KeyValue.write db.outputInfos (state.batch.outputInfos.insert
      (output.1.amount, _ - 1) _) (amount, index) = _
    rw [KeyValue.write_insert lists.kept, place, Function.update_apply, group_append]
    have before := lists.stored amount index
    change KeyValue.write db.outputInfos state.batch.outputInfos _ = _ at before
    by_cases same : output.1.amount = amount
    · subst same
      rw [group_cons_self, group_nil, getElem?_append, before]
      by_cases last : index = (group output.1.amount infos).length
      · simp [last]
      · by_cases inside : index < (group output.1.amount infos).length
        · simp [inside, last]
        · rw [if_neg (by simpa using last), if_neg inside, getElem?_eq_none (by omega),
            getElem?_eq_none (by simp; omega)]
    · rw [if_neg (fun at_place => same (congrArg Prod.fst at_place).symm), group_cons_of_ne same,
        group_nil, append_nil, before]
  counted amount := by
    change Counters.keyOutputCount _ (state.counters.updateKeyOutputCount db _ 1).2 amount = _
    rw [Counters.keyOutputCount_update, group_append, length_append]
    by_cases same : amount = output.1.amount
    · subst same
      rw [if_pos rfl, lists.counted, group_cons_self]
      simp
    · rw [if_neg same, lists.counted, group_cons_of_ne (Ne.symm same), group_nil]
      rfl
  kept := lists.kept

theorem Lists.pushOutputs (info : CachedTransactionInfo) (outputs : List (TransactionOutput × Nat))
    (state : PushedOutputs) {infos : List (Amount × KeyOutputInfo)}
    (lists : db.Lists state.counters state.batch infos) :
    db.Lists (outputs.foldl (db.pushOutput info) state).counters
      (outputs.foldl (db.pushOutput info) state).batch
      (infos ++ outputs.map fun output => (output.1.amount,
        ⟨output.1.key, info.transactionHash, info.unlockTime, output.2⟩)) := by
  induction outputs generalizing state infos with
  | nil =>
    simpa using lists
  | cons output outputs ih =>
    rw [map_cons, append_cons]
    exact ih _ (lists.pushOutput info output)

section

variable (lists : db.Lists counters batch infos)
include lists

/-- Positions, amounts and payment ids are kept elsewhere. -/
theorem Lists.pushTransaction (env : DatabaseEnv) (tx : CachedTransaction) (index place : Nat) :
    db.Lists (db.pushTransaction env (counters, batch) tx index place).1
      (db.pushTransaction env (counters, batch) tx index place).2
      (infos ++ tx.outputInfos) := by
  have pushed : db.Lists
      (db.pushOutputs (tx.info index place) tx.transaction.outputs
        (counters, batch)).counters
      (db.pushOutputs (tx.info index place) tx.transaction.outputs
        (counters, batch)).batch (infos ++ tx.outputInfos) :=
    Lists.pushOutputs (tx.info index place) tx.transaction.outputs.zipIdx
      ⟨counters, batch, [], [], []⟩ lists
  refine pushed.congr (fun amount => ?_) ?_
  · exact db.keyOutputCount_insertAllPositions _ amount
  · change (db.insertPaymentId env tx _).outputInfos = _
    rw [insertPaymentId_eq, insertNewAmounts_eq]
    exact foldl_keeps (g := fun state : Collected => state.2.outputInfos)
      (fun _ _ => by rfl) _ _

theorem Lists.pushTransactions (env : DatabaseEnv) (index : Nat) (txs : List CachedTransaction) :
    db.Lists (db.pushTransactions env index txs (counters, batch)).1
      (db.pushTransactions env index txs (counters, batch)).2
      (infos ++ txs.flatMap outputInfos) := by
  rw [← Slice.flatMap_zipIdx_fst _ txs 0, Database.pushTransactions]
  generalize txs.zipIdx = indexed
  induction indexed generalizing counters batch infos with
  | nil => simpa using lists
  | cons tx indexed ih =>
    have rest := ih (lists.pushTransaction env tx.1 index tx.2)
    rwa [append_assoc] at rest

/-- Once the batch is written, nothing is pending any more. -/
theorem Lists.commit (pending : Pending db counters batch) :
    (db.write batch).Lists counters .empty infos where
  stored := lists.stored
  counted amount := by
    have after := pending.commit.counts amount
    rw [after, ← lists.counted, pending.counts]
    rfl
  kept := rfl

end

end Database

namespace DatabaseSegment

variable {seg : DatabaseSegment} {rows : List BlockRow} {env : DatabaseEnv}
  {genesis : CachedBlock}

/-- The store lists the outputs of the blocks it holds, and the counters count them. -/
def HoldsOutputs (segment : DatabaseSegment) (blocks : List RawBlock) : Prop :=
  segment.database.Lists segment.toCounters .empty (outputInfosFrom blocks)

variable {blocks : List RawBlock}

theorem HoldsOutputs.storesOutputs (holds : seg.HoldsOutputs blocks) :
    seg.database.StoresOutputs blocks :=
  holds.stored

theorem holdsOutputs_create (time : genesis.timestamp ≤ maxTime) :
    (create env genesis .empty).segment.HoldsOutputs [⟨genesis, []⟩] := by
  rw [create_empty]
  unfold addGenesisBlock
  dsimp only
  rw [if_neg (Nat.not_lt.2 time)]
  have start : opened.database.Lists opened.toCounters .empty [] :=
    ⟨fun _ _ => rfl, fun _ => rfl, rfl⟩
  have lists := start.pushTransaction env genesis.baseTransaction 0 0
  have ahead : opened.database.Ahead (opened.toCounters, .empty) := ⟨pending_opened, rfl, rfl, rfl⟩
  have pending := (ahead.pushTransaction env genesis.baseTransaction 0 0).pending
  have listed : [] ++ genesis.baseTransaction.outputInfos = outputInfosFrom [⟨genesis, []⟩] := by
    simp [outputInfosFrom, RawBlock.allTransactions, RawBlock.cachedTransactions]
  rw [listed] at lists
  refine (lists.congr (fun _ => rfl) ?_).commit (pending.congr ?_)
  all_goals rfl

/-- The outputs of a block that is pushed come behind those of the blocks below. -/
theorem HoldsOutputs.pushBlock {pushed : PushedBlockInfo} (outputs : seg.HoldsOutputs blocks)
    (holds : seg.Holds rows) (blockInfo : CachedBlockInfo) :
    (seg.pushedSegment env blockInfo pushed).HoldsOutputs (blocks ++ [pushed.rawBlock]) := by
  have start : seg.database.Lists seg.toCounters
      (blockBatch (seg.getTopBlockIndex + 1) blockInfo pushed) (outputInfosFrom blocks) :=
    outputs.congr (fun _ => rfl) rfl
  have lists := start.pushTransactions env (seg.getTopBlockIndex + 1)
    pushed.rawBlock.allTransactions
  have pending := (holds.ahead_pushTransactions env blockInfo pushed).pending
  have listed : pushed.rawBlock.allTransactions.flatMap outputInfos =
      outputInfosFrom [pushed.rawBlock] := by
    simp [outputInfosFrom]
  rw [listed, ← outputInfosFrom_append] at lists
  refine (lists.congr (fun _ => rfl) ?_).commit (pending.congr ?_)
  all_goals
    rw [insertDay_eq]
    rfl

/-- The segment is what pushing the blocks one after another on a new database leads to. -/
def BuiltBy (env : DatabaseEnv) (genesis : CachedBlock) (segment : DatabaseSegment)
    (blocks : List RawBlock) : Prop :=
  ∃ infos : List PushedBlockInfo,
    Along (step env) (Completes env) (create env genesis .empty).segment
      (infos.map .pushBlock) ∧
    segment = afterCalls env genesis (infos.map .pushBlock) ∧
    blocks = ⟨genesis, []⟩ :: infos.map (·.rawBlock)

theorem holds_of_pushes (infos : List PushedBlockInfo) {seg : DatabaseSegment}
    {rows : List BlockRow} {blocks : List RawBlock} (holds : seg.Holds rows)
    (outputs : seg.HoldsOutputs blocks)
    (completes : Along (step env) (Completes env) seg (infos.map .pushBlock)) :
    (run (step env) seg (infos.map .pushBlock)).HoldsOutputs
      (blocks ++ infos.map (·.rawBlock)) := by
  induction infos generalizing seg rows blocks with
  | nil =>
    simpa using outputs
  | cons pushed infos ih =>
    obtain ⟨here, later⟩ := completes
    obtain ⟨last, -, -, same⟩ := holds.step_pushBlock here
    have next := ih (same ▸ holds.pushBlock _) (same ▸ outputs.pushBlock holds _) later
    rwa [append_assoc] at next

theorem BuiltBy.storesOutputs (built : BuiltBy env genesis seg blocks)
    (time : genesis.timestamp ≤ maxTime) : seg.database.StoresOutputs blocks := by
  obtain ⟨infos, completes, rfl, rfl⟩ := built
  exact (holds_of_pushes infos (holds_create time) (holdsOutputs_create time)
    completes).storesOutputs

end DatabaseSegment

end DeroGold
