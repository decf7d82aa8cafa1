import DeroGold.PoolOk
import DeroGold.Spent
import DeroGold.Outputs

/-!
The pool and the key images spent on the main chain.

A block on the main leaf takes the transactions it conflicts with out of the pool. A
switch does the same for its last block only; the blocks below it on the new branch are
compared with the pool by transaction hash, not by key image. `not_poolAgrees_branch`
is a run in which a transaction survives that way, and `poolAgrees_of_clear` says that
this is all that can go wrong outside the checkpoint zone.
-/

namespace DeroGold

open SegmentTree KeyIndex List TransitionSystem TransactionPool

/-! ### Known transactions stay known -/

theorem DatabaseBlockchainCache.isSome_transactions_pushBlock (cache : DatabaseBlockchainCache)
    (pushed : PushedBlockInfo) (hash : Hash) :
    ((cache.pushBlock pushed).transactions hash).isSome = true ↔
      (cache.transactions hash).isSome = true ∨
        ∃ tx ∈ pushed.rawBlock.allTransactions, tx.transactionHash = hash := by
  rw [DatabaseBlockchainCache.transactions_pushBlock, isSome_writeAll, map_fst_recordsFrom, mem_map]

theorem Cache.hasTransaction_pushBlock {cache : Cache} {hash : Hash}
    (known : cache.hasTransaction hash = true) (parents : Lineage) (pushed : PushedBlockInfo) :
    (cache.pushBlock parents pushed).hasTransaction hash = true := by
  cases cache with
  | database cache => exact (cache.isSome_transactions_pushBlock pushed hash).2 (.inl known)
  | memory cache =>
    obtain ⟨info, held, same⟩ := any_eq_true.1 known
    refine any_eq_true.2 ⟨info, ?_, same⟩
    rw [BlockchainCache.transactions_pushBlock]
    exact (prefix_foldl_addUnless _ _ _).subset held

namespace Core

variable {env : Env} {order : HashOrder} {now : Nat} {core core' : Core} {raw : RawBlock}
  {seg previous : Nat} {pushed : PushedBlockInfo} {nd : Node Cache}
  {parents : Lineage} {parent : Entry} {result : AddBlockResult} {genesis : CachedBlock}

/-- A walk from a leaf is off the main chain until it meets it. -/
theorem Shape.mem_offMainChain_or_mem (shape : core.Shape) {leaf : Nat}
    (old : leaf < core.chainsStorage.size) (mem : seg ∈ core.chainsStorage.path leaf) :
    seg ∈ core.offMainChain leaf ∨ seg ∈ core.mainChainSet := by
  refine (shape.tree.wellFormed.isPath_path old).mem_takeWhile_or_mem ?_ mem
  intro j qs on_main walk
  rw [shape.main] at on_main ⊢
  obtain ⟨qs', walk', suffix⟩ :=
    (shape.tree.wellFormed.isPath_path shape.mainLeaf_lt).of_mem on_main
  rw [walk.unique walk']
  exact suffix.subset

variable {hash : Hash}

/-- A transaction is in the chain when a segment of any branch holds it. -/
theorem Shape.isTransactionInChain_iff (shape : core.Shape) :
    core.isTransactionInChain hash = true ↔
      ∃ leaf ∈ core.chainsLeaves, ∃ seg ∈ core.chainsStorage.path leaf,
        core.segmentHasTransaction hash seg = true := by
  rw [isTransactionInChain, Bool.or_eq_true_iff, any_eq_true, any_eq_true]
  constructor
  · rintro (⟨seg, on_path, has⟩ | ⟨leaf, mem, has⟩)
    · exact ⟨core.mainLeaf, shape.mainLeaf_mem, seg, on_path, has⟩
    · obtain ⟨seg, off, has⟩ := any_eq_true.1 has
      exact ⟨leaf, mem_of_mem_tail mem, seg, takeWhile_subset _ off, has⟩
  · rintro ⟨leaf, mem, seg, on_path, has⟩
    rcases shape.mem_offMainChain_or_mem (shape.leaves.old leaf mem) on_path with off | on_main
    · by_cases main : leaf = core.mainLeaf
      · exact .inl ⟨seg, main ▸ on_path, has⟩
      · refine .inr ⟨leaf, ?_, any_eq_true.2 ⟨seg, off, has⟩⟩
        obtain ⟨head, rest, leaves_eq⟩ := exists_cons_of_ne_nil shape.leaves.nonempty
        rw [mainLeaf, leaves_eq] at main
        rw [leaves_eq] at mem ⊢
        exact (mem_cons.1 mem).resolve_left main
    · rw [shape.main] at on_main
      exact .inl ⟨seg, on_main, has⟩

/-! ### The core in the middle of a switch -/

/-- The core that has moved a leaf to the front and not looked at the pool yet. -/
def switched (core : Core) (segment : Nat) : Core :=
  ({ core with chainsLeaves := swapWithMain core.chainsLeaves segment }.updateMainChainSet
    ).updateBlockMedianSize

theorem switchTo_eq (env : Env) (order : HashOrder) (now : Nat) (core : Core) (seg : Nat)
    (pushed : PushedBlockInfo) : core.switchTo env order now seg pushed =
      ((core.switched seg).checkAndRemoveInvalidPoolTransactions
        pushed.spentKeyImages).copyTransactionsToPool env order now core.mainLeaf := rfl

theorem Shape.switched (shape : core.Shape) (mem : seg ∈ core.chainsLeaves) :
    (core.switched seg).Shape :=
  ⟨shape.tree, shape.leaves.perm (swapWithMain_perm mem), rfl⟩

section

variable (shape : core.Shape) (placed : Placed core raw seg previous nd parents parent)
  (same : pushed.rawBlock = raw) (top : (core.lineage seg).getTopBlockIndex = previous)
  (childless : core.chainsStorage.childrenOf seg = [])
include shape placed same top childless

/-- A switch pushes the block on its segment and leaves the other segments alone. -/
theorem isTransactionInChain_switched_iff :
    ((core.pushBlock seg pushed).switched seg).isTransactionInChain hash = true ↔
      ∃ leaf ∈ core.chainsLeaves, ∃ holder ∈ core.chainsStorage.path leaf,
        ∃ cache, core.chainsStorage.value? holder = some cache ∧
          (if holder = seg then cache.pushBlock parents pushed else cache).hasTransaction hash =
            true := by
  have mem := placed.mem_leaves_pushBlock shape childless pushed
  rw [((shape.pushBlock placed top same).switched mem).isTransactionInChain_iff]
  refine exists_congr fun leaf => ?_
  have listed : leaf ∈ ((core.pushBlock seg pushed).switched seg).chainsLeaves ↔
      leaf ∈ core.chainsLeaves := by
    rw [← chainsLeaves_pushBlock core seg pushed]
    exact (swapWithMain_perm mem).mem_iff
  rw [listed]
  refine and_congr_right fun leaf_mem => exists_congr fun holder => ?_
  change holder ∈ (core.pushBlock seg pushed).chainsStorage.path leaf ∧
    (core.pushBlock seg pushed).segmentHasTransaction hash holder = true ↔ _
  rw [segmentHasTransaction, Option.any_eq_true, chainsStorage_pushBlock placed.lineage,
    shape.tree.wellFormed.path_setValue _ (shape.leaves.old leaf leaf_mem)]
  refine and_congr_right fun _ => ?_
  by_cases here : holder = seg
  · rw [here, value?_setValue_self _ _ (lt_size_of_node? placed.node), value?, placed.node]
    simp
  · simp [value?_setValue_of_ne _ _ here, here]

/-- What was in the chain before a switch is in the chain afterwards. -/
theorem isTransactionInChain_switched (known : core.isTransactionInChain hash = true) :
    ((core.pushBlock seg pushed).switched seg).isTransactionInChain hash = true := by
  obtain ⟨leaf, leaf_mem, holder, on_path, has⟩ := shape.isTransactionInChain_iff.1 known
  obtain ⟨cache, value, has⟩ := (Option.any_eq_true ..).1 has
  rw [isTransactionInChain_switched_iff shape placed same top childless]
  refine ⟨leaf, leaf_mem, holder, on_path, cache, value, ?_⟩
  split
  · exact Cache.hasTransaction_pushBlock has parents pushed
  · exact has

end

/-! ### Agreement -/

/-- No pool transaction spends a key image that is spent on the main chain. -/
def PoolAgrees (core : Core) : Prop :=
  ∀ pending ∈ core.transactionPool.transactions,
    ∀ k ∈ pending.cachedTransaction.transaction.keyImages, k ∉ keysOf Entry.keyImages core.mainChain

/-- The call looks at heights outside the checkpoint zone. -/
def OutsideZone (env : Env) (core : Core) : Call → Prop
  | .addBlock _ raw => env.checkpoints.isInCheckpointZone raw.block.getBlockIndex = false
  | .addTransactionToPool _ _ =>
    env.checkpoints.isInCheckpointZone (core.getTopBlockIndex + 1) = false
  | .cleanPool _ => True

instance (env : Env) (core : Core) : DecidablePred (core.OutsideZone env)
  | .addBlock _ _ | .addTransactionToPool _ _ => inferInstanceAs (Decidable (_ = false))
  | .cleanPool _ => isTrue trivial

/-- A pool transaction that is on no branch spends nothing that is spent on a branch
which outgrows the main chain by the block. -/
def PoolClear (core : Core) : Call → Prop
  | .addBlock _ raw =>
    ∀ segment ∈ core.findSegmentContainingBlock raw.block.previousBlockHash,
      core.EndsWith segment raw.block.previousBlockHash → core.Outgrows segment →
      ∀ pending ∈ core.transactionPool.transactions,
        core.isTransactionInChain pending.cachedTransaction.transactionHash = false →
        ∀ k ∈ pending.cachedTransaction.transaction.keyImages,
          k ∉ keysOf Entry.keyImages (core.chain segment)
  | .addTransactionToPool _ _ => True
  | .cleanPool _ => True

instance (core : Core) : DecidablePred core.PoolClear
  | .addBlock _ _ => inferInstanceAs (Decidable (∀ segment ∈ _, _))
  | .addTransactionToPool _ _ | .cleanPool _ => isTrue trivial

theorem Linear.length_chain (linear : core.Linear) (found : core.chainsStorage.node? seg = some nd) :
    (core.chain seg).length = nd.value.getTopBlockIndex + 1 := by
  have fits := linear.fits found
  rw [chain, linear.shape.tree.wellFormed.chain_eq found, length_append, ← fits.start,
    fits.sound.getTopBlockIndex_eq]

theorem Linear.length_mainChain (linear : core.Linear) :
    core.mainChain.length = core.getTopBlockIndex + 1 := by
  obtain ⟨nd, found⟩ := lt_size_iff.1 linear.shape.mainLeaf_lt
  rw [mainChain, linear.length_chain found, getTopBlockIndex, mainLineage, lineage,
    linear.shape.tree.wellFormed.lineage_eq found]
  rfl

theorem isInCheckpointZone_of_le {checkpoints : Checkpoints} {low high : Nat} (le : low ≤ high)
    (outside : checkpoints.isInCheckpointZone low = false) :
    checkpoints.isInCheckpointZone high = false := by
  rw [Checkpoints.isInCheckpointZone, any_eq_false] at outside ⊢
  intro point mem inside
  rw [decide_eq_true_eq] at inside
  exact outside point mem (by rw [decide_eq_true_eq]; omega)

section

variable (linear : core.Linear) (spent : Consistent Cache.entries SpentOk core.chainsStorage)
  (outside : env.checkpoints.isInCheckpointZone (core.getTopBlockIndex + 1) = false)
include linear spent outside

/-- Outside the zone a transaction that passes the pool's checks spends nothing that is
spent on the main chain. -/
theorem unspent_of_poolContext {tx : CachedTransaction}
    (passed : (core.poolContext env now).validateTransactionInputsExpensive tx = .ok ())
    {k : KeyImage} (mem : k ∈ tx.transaction.keyImages) :
    k ∉ keysOf Entry.keyImages core.mainChain := by
  intro known
  have unspent := not_spent_of_expensive passed outside mem
  have wf := linear.shape.tree.wellFormed
  have answered := checkIfSpent_iff k core.getTopBlockIndex
    (linear.fits.lineageOk wf core.mainLeaf) (spent.lineageOk wf core.mainLeaf)
  have all : spentUpTo (chainOf Cache.entries (core.chainsStorage.lineage core.mainLeaf))
      core.getTopBlockIndex = keysOf Entry.keyImages core.mainChain := by
    rw [spentUpTo, ← linear.length_mainChain]
    congr 1
    exact take_of_length_le (Nat.le_refl _)
  rw [all] at answered
  exact Bool.false_ne_true (unspent.symm.trans (answered.2 known))

theorem poolAgrees_addRawTransactionToPool (agrees : core.PoolAgrees) (raw : RawTransaction) :
    (core.addRawTransactionToPool env now raw).PoolAgrees := by
  rcases addRawTransactionToPool_cases env now core raw with
    same | ⟨tx, -, expensive, -, pushed⟩
  · rw [same]
    exact agrees
  · rw [pushed]
    exact forall_mem_append.2 ⟨agrees, forall_mem_singleton.2 fun k spends =>
      unspent_of_poolContext linear spent outside expensive spends⟩

theorem poolAgrees_copyTransactionsToPool (agrees : core.PoolAgrees) (alternative : Nat) :
    (core.copyTransactionsToPool env order now alternative).PoolAgrees := by
  unfold copyTransactionsToPool
  generalize ((core.offMainChain alternative).flatMap fun seg =>
    ((core.chainsStorage.value? seg).map (Cache.rawTransactions order)).getD []) = raws
  induction raws generalizing core with
  | nil => exact agrees
  | cons raw raws ih =>
    have onlyPool : OnlyPool core (core.addRawTransactionToPool env now raw) :=
      onlyPool_addRawTransactionToPool core raw
    have agrees' : (core.addRawTransactionToPool env now raw).PoolAgrees :=
      poolAgrees_addRawTransactionToPool linear spent outside agrees raw
    refine ih (linear.of_onlyPool onlyPool) ?_ ?_ agrees'
    · rw [onlyPool.chainsStorage_eq]
      exact spent
    · obtain ⟨pool, same⟩ := onlyPool
      change env.checkpoints.isInCheckpointZone
        ((core.addRawTransactionToPool env now raw).getTopBlockIndex + 1) = false
      rw [same]
      exact outside

end

/-- A transaction that stays in the pool after a block spends none of its key images. -/
theorem not_mem_of_isValidAfterBlock {blockKeyImages : List KeyImage} {tx : CachedTransaction}
    (valid : core.isValidAfterBlock blockKeyImages tx = true) :
    core.isTransactionInChain tx.transactionHash = false ∧
      ∀ k ∈ tx.transaction.keyImages, k ∉ blockKeyImages := by
  simp only [isValidAfterBlock, hasIntersections, Bool.and_eq_true, Bool.not_eq_true',
    any_eq_false, decide_eq_true_eq] at valid
  exact ⟨valid.1.1.1, valid.2⟩

theorem mem_keysOf_concat {chain : List Entry} {info : CachedBlockInfo} {k : KeyImage}
    (mem : k ∈ keysOf Entry.keyImages (chain ++ [(raw, info)])) :
    k ∈ keysOf Entry.keyImages chain ∨ k ∈ raw.keyImages := by
  rw [keysOf_append, keysOf_singleton] at mem
  exact mem_append.1 mem

/-- A committed block keeps the agreement. -/
theorem poolAgrees_committed (linear : core.Linear) (poolOk : core.transactionPool.Ok)
    (agrees : core.PoolAgrees) (passed : core.checkBlock env now raw = .ok (seg, previous, pushed))
    (keeps : core.KeepsRoot env (.addBlock now raw))
    (outside : core.OutsideZone env (.addBlock now raw))
    (clear : core.PoolClear (.addBlock now raw))
    (committed : Committed env order now core seg previous pushed core' result)
    (linear' : core'.Linear) (spent' : Consistent Cache.entries SpentOk core'.chainsStorage) :
    core'.PoolAgrees := by
  have shape := linear.shape
  obtain ⟨nd, parents, parent, placed, same⟩ := shape.placed passed
  obtain ⟨images, -⟩ := images_of_checkBlock passed
  have grown := committed.mainChain_eq shape placed same
    fun below => placed.not_sharedRoot shape passed below keeps
  have pool := transactionPool_pushBlock core seg pushed
  have unchanged : core'.mainChain = core.mainChain →
      core'.transactionPool = core.transactionPool → core'.PoolAgrees := by
    intro chain_eq pool_eq pending mem
    rw [pool_eq] at mem
    rw [chain_eq]
    exact agrees pending mem
  cases committed with
  | extendMain top childless main =>
    intro pending mem k spends known
    rw [grown] at known
    obtain ⟨held, valid⟩ :=
      ((checkAndRemoveInvalidPoolTransactions_spec (core.pushBlock seg pushed
        ).updateBlockMedianSize pool poolOk pushed.spentKeyImages).2 pending).1 mem
    rcases mem_keysOf_concat known with known | known
    · exact agrees pending held k spends known
    · exact (not_mem_of_isValidAfterBlock valid).2 k spends (images ▸ known)
  | extendAlternative top childless other lighter =>
    exact unchanged grown pool
  | switch top childless other heavier =>
    have outgrows := (outgrows_iff shape passed placed top childless other).2 heavier
    have ends := placed.endsWith passed top
    have copied : OnlyPool ((core.pushBlock seg pushed).switchTo env order now seg pushed)
        (((core.pushBlock seg pushed).switched seg
          ).checkAndRemoveInvalidPoolTransactions pushed.spentKeyImages) := by
      rw [switchTo_eq]
      exact (onlyPool_copyTransactionsToPool ..).symm
    have grown' := copied.mainChain_eq.trans grown
    have linear'' := linear'.of_onlyPool copied
    refine poolAgrees_copyTransactionsToPool linear'' ?_ ?_ ?_ _
    · rw [copied.chainsStorage_eq]
      exact spent'
    · refine isInCheckpointZone_of_le ?_ outside
      rw [← linear''.length_mainChain, grown', length_append, linear.length_chain placed.node,
        placed.index, ← top, placed.getTopBlockIndex_eq]
      exact Nat.le_succ _
    · intro pending mem k spends known
      rw [grown'] at known
      obtain ⟨held, valid⟩ := ((checkAndRemoveInvalidPoolTransactions_spec
        ((core.pushBlock seg pushed).switched seg) pool poolOk
        pushed.spentKeyImages).2 pending).1 mem
      obtain ⟨unknown, apart⟩ := not_mem_of_isValidAfterBlock valid
      rcases mem_keysOf_concat known with known | known
      · refine clear seg (checkBlock_ok passed).2.1 ends outgrows pending held ?_ k spends known
        rw [← Bool.not_eq_true] at unknown ⊢
        exact fun before => unknown
          (isTransactionInChain_switched shape placed same top childless before)
      · exact apart k spends (images ▸ known)
  | forkOnTop top inner => exact unchanged grown rfl
  | @forkInside cut below parts =>
    have pool_eq : cut.transactionPool = core.transactionPool := transactionPool_splitSegment parts
    exact unchanged grown pool_eq

theorem transactions_clean (pool : TransactionPool) (now height : Nat) :
    (pool.clean now height).transactions ⊆ pool.transactions := by
  refine foldlRecOn (motive := fun after : TransactionPool => after.transactions ⊆ pool.transactions)
    _ _ (fun _ mem => mem) fun after kept first _ pending mem => kept ?_
  unfold cleanTransaction at mem
  simp only at mem
  split at mem
  · have mem := (mem_removeTransaction.1 mem).1
    unfold recordDeletion at mem
    split at mem
    · exact mem
    · exact mem
  · exact mem

/-- What the agreement rests on. -/
structure Agreeing (core : Core) : Prop where
  linear : core.Linear
  spent : Consistent Cache.entries SpentOk core.chainsStorage
  poolOk : core.transactionPool.Ok
  agrees : core.PoolAgrees

theorem Agreeing.step (inv : core.Agreeing) (call : Call) (keeps : core.KeepsRoot env call)
    (outside : core.OutsideZone env call) (clear : core.PoolClear call) :
    (core.step env order call).Agreeing := by
  have linear' : (core.step env order call).Linear := inv.linear.step call keeps
  have spent' : Consistent Cache.entries SpentOk (core.step env order call).chainsStorage := by
    apply consistent_call inv.spent call
    rintro core' now raw seg previous pushed result rfl passed committed
    exact spentOk_checked inv.linear inv.spent passed keeps outside committed
  refine ⟨linear', spent', poolOk_step inv.poolOk call, ?_⟩
  cases call with
  | addBlock now raw =>
    change (core.addBlock env order now raw).1.PoolAgrees
    unfold addBlock
    cases checked : core.checkBlock env now raw with
    | error reason =>
      have onlyPool := onlyPool_onFailure core reason
      intro pending mem
      rw [onlyPool.mainChain_eq]
      -- a failed block takes at most one transaction out of the pool
      change pending ∈ (core.onFailure reason).transactionPool.transactions at mem
      unfold onFailure at mem
      split at mem
      · exact inv.agrees pending (mem_removeTransaction.1 mem).1
      · exact inv.agrees pending mem
    | ok place =>
      obtain ⟨seg, previous, pushed⟩ := place
      simp only
      split
      · exact inv.agrees
      · rename_i core' result done
        have reached : core.step env order (.addBlock now raw) = core' := by
          simp only [Core.step, addBlock, checked, done]
        rw [reached] at linear' spent'
        exact poolAgrees_committed inv.linear inv.poolOk inv.agrees checked keeps outside clear
          (commit_committed done) linear' spent'
  | addTransactionToPool now raw =>
    exact poolAgrees_addRawTransactionToPool inv.linear inv.spent outside inv.agrees raw
  | cleanPool now =>
    intro pending mem
    exact inv.agrees pending (transactions_clean _ _ _ mem)

/-- In every run outside the checkpoint zone that keeps the root whole, and in which no
pool transaction off all branches conflicts with a branch when that branch takes over,
no pool transaction ever spends a key image spent on the main chain. -/
theorem poolAgrees_of_clear (env : Env) (order : HashOrder) (genesis : CachedBlock)
    (calls : List Call) (along : Along (step env order)
      (fun core call => core.OutsideZone env call ∧ core.KeepsRoot env call ∧ core.PoolClear call)
      (load genesis) calls) :
    (afterCalls env order genesis calls).PoolAgrees := by
  have initial : (load genesis).Agreeing :=
    ⟨linear_load genesis, Consistent.single (spentOk_genesis genesis), TransactionPool.ok_empty,
      forall_mem_nil _⟩
  have invariant : (afterCalls env order genesis calls).Agreeing :=
    invariant_run
      (fun _ call inv meets => inv.step call meets.2.1 meets.1 meets.2.2) initial along
  exact invariant.agrees

end Core

namespace Core

open Sample

/-- The block that spends the genesis output is on a branch; the pool then receives
another transaction that spends it. -/
def conflictingPool : List Call :=
  calls (trunk 11 ++ [next 111 10 11 [spend] 10]) ++ [.addTransactionToPool 100000 spendAgain]

/-- The next block of the branch makes it the main chain, and the transaction stays. -/
theorem not_poolAgrees_branch :
    ((afterCalls env .insertion genesis conflictingPool).addBlock env
        .insertion 100000 (next 112 111 12 [] 0)).2 =
        .added .addedToAlternativeAndSwitched ∧
      ¬ ((afterCalls env .insertion genesis conflictingPool).addBlock env
        .insertion 100000 (next 112 111 12 [] 0)).1.PoolAgrees := by
  refine ⟨by decide +kernel, fun agrees => ?_⟩
  have unspent := agrees
    ⟨100000, ⟨⟨0, [.key ⟨2980232, [0], 77⟩], [⟨2980212, 3⟩], 0, [1]⟩, 5001, 200⟩⟩
    (by decide +kernel) 77 (by decide)
  revert unspent
  decide +kernel

/-- A run that switches with a transaction in the pool that the branch does not touch. -/
theorem poolAgrees_of_clear_switch : (afterCalls env .insertion genesis
      (calls (trunk 11 ++ [next 111 10 11 [] 0]) ++
        [.addTransactionToPool 100000 spend] ++
        calls [next 112 111 12 [] 0])).PoolAgrees :=
  poolAgrees_of_clear env .insertion genesis _ (by decide +kernel)

end Core

end DeroGold
