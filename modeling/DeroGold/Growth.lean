import DeroGold.Core
import DeroGold.Segment

/-!
What one call can do to a core, said once.

* `checkOnBranch_ok` lists the checks a block has passed; `checkBlock_ok` says
  which seg was found.
* `Committed` has one constructor for each way a checked block is committed;
  `commit_committed` shows there is no other.
* The pool functions change nothing but the pool (`OnlyPool`).
-/

namespace DeroGold

open Checked List

/-! ### Checks passed -/

/-- The checks of `checkOnBranch`, all passed, with the values they computed. -/
structure BranchChecks (env : Env) (now : Nat) (lineage : Lineage) (blockMedianSize : Nat)
    (previous : Nat) (raw : RawBlock) (difficulty cumulativeFee : Nat)
    (validatorState : TransactionValidatorState) (reward : BlockReward) : Prop where
  parsed : extractTransactions raw.transactions = .ok raw.cachedTransactions
  size : raw.cumulativeBlockSize ≤ maxBlockCumulativeSize (previous + 1)
  block : validateBlock env now lineage previous raw.block = .ok reward.reward
  nextDifficulty : difficultyForNextBlock lineage previous = .ok difficulty
  difficulty_ne : difficulty ≠ 0
  hashes : checkTransactionHashes raw.block raw.cachedTransactions = .ok ()
  transactions : validateBlockTransactions
    ⟨env, lineage, now, previous, blockMedianSize, false⟩ raw.cachedTransactions =
      .ok (validatorState, cumulativeFee)
  rewarded : blockReward lineage previous raw cumulativeFee = .ok reward
  work : checkCheckpointOrProofOfWork env raw.block difficulty = .ok ()

/-- What is pushed once the checks have passed. -/
def BranchChecks.pushed (raw : RawBlock) (difficulty : Nat)
    (validatorState : TransactionValidatorState) (reward : BlockReward) : PushedBlockInfo where
  rawBlock := raw
  spentKeyImages := validatorState.spentKeyImages
  blockSize := raw.cumulativeBlockSize
  generatedCoins := uint64OfInt reward.emissionChange
  blockDifficulty := difficulty

variable {txs : List CachedTransaction}

theorem cachedTransactions_of_mapM {raws : List RawTransaction}
    (parsed : List.Forall₂ (fun raw tx => (match CachedTransaction.ofRaw raw with
      | some tx => Except.ok tx
      | none => Except.error BlockFailure.deserializationFailed) = .ok tx) raws txs) :
    raws.filterMap CachedTransaction.ofRaw = txs := by
  induction parsed with
  | nil => rfl
  | @cons raw tx raws txs first _ ih =>
    cases found : CachedTransaction.ofRaw raw with
    | none => rw [found] at first; cases first
    | some tx' =>
      rw [found] at first
      cases first
      rw [filterMap_cons_some found, ih]

/-- Extraction gives the transactions a stored block is read back with. -/
theorem extractTransactions_ok {raw : RawBlock}
    (parsed : extractTransactions raw.transactions = .ok txs) : raw.cachedTransactions = txs := by
  unfold extractTransactions at parsed
  rw [of_require_bind] at parsed
  exact cachedTransactions_of_mapM (mapM_ok.1 parsed.2)

section CheckOnBranch

variable {env : Env} {now : Nat} {lineage : Lineage} {blockMedianSize previous : Nat}
  {raw : RawBlock} {pushed : PushedBlockInfo}

theorem checkOnBranch_ok
    (passed : checkOnBranch env now lineage blockMedianSize previous raw = .ok pushed) :
    ∃ difficulty cumulativeFee validatorState reward,
      BranchChecks env now lineage blockMedianSize previous raw difficulty
        cumulativeFee validatorState reward ∧
      pushed = BranchChecks.pushed raw difficulty validatorState reward := by
  unfold checkOnBranch at passed
  obtain ⟨txs, parsed, passed⟩ := of_bind.1 passed
  obtain ⟨size, passed⟩ := of_require_bind.1 passed
  obtain ⟨minerReward, block, passed⟩ := of_bind.1 passed
  obtain ⟨difficulty, difficulty_ok, passed⟩ := of_bind.1 passed
  obtain ⟨difficulty_ne, passed⟩ := of_require_bind.1 passed
  obtain ⟨_, hashes, passed⟩ := of_bind.1 passed
  obtain ⟨⟨validatorState, cumulativeFee⟩, transactions, passed⟩ := of_bind.1 passed
  obtain ⟨reward, reward_ok, passed⟩ := of_bind.1 passed
  obtain ⟨reward_eq, passed⟩ := of_require_bind.1 passed
  obtain ⟨_, work, result⟩ := of_bind.1 passed
  obtain rfl := extractTransactions_ok parsed
  subst reward_eq
  cases result
  exact ⟨difficulty, cumulativeFee, validatorState, reward,
    ⟨parsed, size, block, difficulty_ok, difficulty_ne, hashes, transactions, reward_ok, work⟩, rfl⟩

/-- A block that passes claims the height above its predecessor. -/
theorem validateBlock_index {reward : Nat}
    (passed : validateBlock env now lineage previous raw.block = .ok reward) :
    raw.block.getBlockIndex = previous + 1 := by
  unfold validateBlock at passed
  iterate 7 obtain ⟨-, passed⟩ := of_require_bind.1 passed
  exact (of_require_bind.1 passed).1

end CheckOnBranch

namespace Core

/-! ### Calls that change only the pool -/

/-- The second core is the first one with another pool. -/
def OnlyPool (core core' : Core) : Prop := ∃ pool, core' = { core with transactionPool := pool }

namespace OnlyPool

variable {core core' core'' : Core}

theorem refl (core : Core) : OnlyPool core core := ⟨core.transactionPool, rfl⟩

theorem trans (first : OnlyPool core core') (second : OnlyPool core' core'') :
    OnlyPool core core'' := by
  obtain ⟨pool, rfl⟩ := first
  obtain ⟨pool', rfl⟩ := second
  exact ⟨pool', rfl⟩

section

variable (h : OnlyPool core core')
include h

theorem symm : OnlyPool core' core := by
  obtain ⟨pool, rfl⟩ := h
  exact ⟨core.transactionPool, rfl⟩

theorem chainsStorage_eq : core'.chainsStorage = core.chainsStorage := by
  obtain ⟨pool, rfl⟩ := h
  rfl

theorem chainsLeaves_eq : core'.chainsLeaves = core.chainsLeaves := by
  obtain ⟨pool, rfl⟩ := h
  rfl

theorem mainChainSet_eq : core'.mainChainSet = core.mainChainSet := by
  obtain ⟨pool, rfl⟩ := h
  rfl

end

/-- A loop whose rounds change only the pool changes only the pool. -/
theorem foldl {α : Type} {f : Core → α → Core} (round : ∀ core a, OnlyPool core (f core a))
    (xs : List α) (core : Core) : OnlyPool core (xs.foldl f core) := by
  induction xs generalizing core with
  | nil => exact refl core
  | cons x xs ih => exact (round core x).trans (ih _)

end OnlyPool

variable {env : Env} {order : HashOrder} {now : Nat}

theorem onlyPool_addRawTransactionToPool (core : Core) (raw : RawTransaction) :
    OnlyPool core (core.addRawTransactionToPool env now raw) := by
  unfold addRawTransactionToPool
  split
  · exact .refl core
  · unfold addTransactionToPool
    split
    · exact .refl core
    · split
      · exact .refl core
      · exact ⟨_, rfl⟩

theorem onlyPool_copyTransactionsToPool (core : Core) (alternative : Nat) :
    OnlyPool core (core.copyTransactionsToPool env order now alternative) :=
  OnlyPool.foldl onlyPool_addRawTransactionToPool _ core

theorem onlyPool_checkAndRemoveInvalidPoolTransactions (core : Core) (images : List KeyImage) :
    OnlyPool core (core.checkAndRemoveInvalidPoolTransactions images) := ⟨_, rfl⟩

theorem onlyPool_onFailure (core : Core) (reason : BlockFailure) :
    OnlyPool core (core.onFailure reason) := by
  unfold onFailure
  split
  · exact ⟨_, rfl⟩
  · exact .refl core

/-! ### The seg found -/

variable {core : Core}

variable {hash : Hash} {seg : Nat}
  {leaf previous : Nat} {cache : Cache}

theorem findSegmentContainingBlock_some
    (found : core.findSegmentContainingBlock hash = some seg) :
    (∃ leaf ∈ core.chainsLeaves, seg ∈ core.chainsStorage.path leaf) ∧
      ∃ cache, core.chainsStorage.value? seg = some cache ∧ cache.hasBlock hash = true := by
  obtain ⟨leaf, mem, found⟩ := exists_of_findSome?_eq_some found
  refine ⟨⟨leaf, mem, mem_of_find?_eq_some found⟩, ?_⟩
  have holds := find?_some found
  rwa [segmentHasBlock, Option.any_eq_true] at holds

/-- A hash that is not found is in no segment on the way to a leaf. -/
theorem not_hasBlock (absent : core.hasBlock hash = false)
    (mem : leaf ∈ core.chainsLeaves) (on_path : seg ∈ core.chainsStorage.path leaf)
    (value : core.chainsStorage.value? seg = some cache) : cache.hasBlock hash = false := by
  rw [hasBlock, Option.isSome_eq_false_iff, Option.isNone_iff_eq_none, findSegmentContainingBlock,
    findSome?_eq_none_iff] at absent
  have nowhere := absent leaf mem
  rw [findIndexInChain, find?_eq_none] at nowhere
  simpa [segmentHasBlock, value] using nowhere seg on_path

/-- Where the search puts the predecessor of a block inside a segment. -/
def indexIn (core : Core) (seg : Nat) (hash : Hash) : Nat :=
  ((core.chainsStorage.value? seg).map fun cache => cache.getBlockIndex hash).getD 0

theorem indexIn_eq (value : core.chainsStorage.value? seg = some cache)
    (hash : Hash) : core.indexIn seg hash = cache.getBlockIndex hash := by
  rw [indexIn, value]
  rfl

theorem checkBlock_ok {raw : RawBlock} {pushed : PushedBlockInfo}
    (passed : core.checkBlock env now raw = .ok (seg, previous, pushed)) :
    core.hasBlock raw.block.blockHash = false ∧
      core.findSegmentContainingBlock raw.block.previousBlockHash = some seg ∧
      ∃ cache, core.chainsStorage.value? seg = some cache ∧
        previous = cache.getBlockIndex raw.block.previousBlockHash ∧
        checkOnBranch env now (core.lineage seg) core.blockMedianSize previous raw =
          .ok pushed := by
  unfold checkBlock at passed
  obtain ⟨fresh, passed⟩ := of_require_bind.1 passed
  split at passed
  · cases passed
  · rename_i found
    obtain ⟨_, checked, result⟩ := of_bind.1 passed
    cases result
    obtain ⟨-, cache, value, -⟩ := findSegmentContainingBlock_some found
    refine ⟨fresh, found, cache, value, ?_, checked⟩
    rw [value]
    rfl

/-- A condition on the place and the pushed block of a block that passes its checks. -/
def WhenChecked (env : Env) (core : Core) (now : Nat) (raw : RawBlock)
    (P : Nat → Nat → PushedBlockInfo → Prop) : Prop :=
  ∀ seg previous pushed,
    core.checkBlock env now raw = .ok (seg, previous, pushed) →
    P seg previous pushed

instance {env : Env} {core : Core} {now : Nat} {raw : RawBlock}
    {P : Nat → Nat → PushedBlockInfo → Prop} [∀ s i p, Decidable (P s i p)] :
    Decidable (core.WhenChecked env now raw P) :=
  match passed : core.checkBlock env now raw with
  | .error _ => isTrue fun _ _ _ same => by rw [passed] at same; cases same
  | .ok (seg, previous, pushed) =>
    decidable_of_iff (P seg previous pushed)
      ⟨fun holds _ _ _ same => by rw [passed] at same; cases same; exact holds,
        fun holds => holds _ _ _ passed⟩

/-! ### Ways to commit a block -/

/-- One constructor for each way a checked block changes the core. -/
inductive Committed (env : Env) (order : HashOrder) (now : Nat) (core : Core)
    (seg previous : Nat) (pushed : PushedBlockInfo) : Core → AddBlockResult → Prop
  | extendMain (top : (core.lineage seg).getTopBlockIndex = previous)
      (childless : core.chainsStorage.childrenOf seg = []) (main : seg = core.mainLeaf) :
      Committed env order now core seg previous pushed
        (core.extendMain seg pushed) .addedToMain
  | extendAlternative (top : (core.lineage seg).getTopBlockIndex = previous)
      (childless : core.chainsStorage.childrenOf seg = []) (other : seg ≠ core.mainLeaf)
      (lighter : (core.pushBlock seg pushed).cumulativeDifficulty seg ≤
        (core.pushBlock seg pushed).cumulativeDifficulty core.mainLeaf) :
      Committed env order now core seg previous pushed
        (core.pushBlock seg pushed) .addedToAlternative
  | switch (top : (core.lineage seg).getTopBlockIndex = previous)
      (childless : core.chainsStorage.childrenOf seg = []) (other : seg ≠ core.mainLeaf)
      (heavier : (core.pushBlock seg pushed).cumulativeDifficulty core.mainLeaf <
        (core.pushBlock seg pushed).cumulativeDifficulty seg) :
      Committed env order now core seg previous pushed
        ((core.pushBlock seg pushed).switchTo env order now seg pushed)
        .addedToAlternativeAndSwitched
  | forkOnTop (top : (core.lineage seg).getTopBlockIndex = previous)
      (inner : core.chainsStorage.childrenOf seg ≠ []) :
      Committed env order now core seg previous pushed
        (core.forkOnTop seg pushed previous) .addedToAlternative
  | forkInside {cut : Core} (below : (core.lineage seg).getTopBlockIndex ≠ previous)
      (parts : core.splitSegment seg (previous + 1) = some cut) :
      Committed env order now core seg previous pushed
        (cut.pushOnNewSegment seg pushed previous).updateMainChainSet
        .addedToAlternative

section Frames

variable (core : Core) (seg : Nat) (pushed : PushedBlockInfo)

@[simp] theorem chainsLeaves_pushBlock :
    (core.pushBlock seg pushed).chainsLeaves = core.chainsLeaves := by
  unfold pushBlock
  split <;> rfl

@[simp] theorem mainChainSet_pushBlock :
    (core.pushBlock seg pushed).mainChainSet = core.mainChainSet := by
  unfold pushBlock
  split <;> rfl

@[simp] theorem transactionPool_pushBlock :
    (core.pushBlock seg pushed).transactionPool = core.transactionPool := by
  unfold pushBlock
  split <;> rfl

@[simp] theorem mainLeaf_pushBlock : (core.pushBlock seg pushed).mainLeaf = core.mainLeaf := by
  rw [mainLeaf, chainsLeaves_pushBlock, mainLeaf]

variable {core seg pushed}

theorem chainsStorage_pushBlock {cache : Cache} {parents : Lineage}
    (lineage_eq : core.lineage seg = cache :: parents) : (core.pushBlock seg pushed).chainsStorage =
      core.chainsStorage.setValue seg (cache.pushBlock parents pushed) := by
  rw [pushBlock, lineage_eq]

/-- A split leaves the pool alone. -/
theorem transactionPool_splitSegment {cut : Core} {splitBlockIndex : Nat}
    (parts : core.splitSegment seg splitBlockIndex = some cut) :
    cut.transactionPool = core.transactionPool := by
  unfold splitSegment at parts
  split at parts
  · cases parts
  split at parts
  · cases parts
  · cases parts
    rfl

end Frames

theorem commit_committed {pushed : PushedBlockInfo} {core' : Core} {result : AddBlockResult}
    (done : core.commit env order now seg previous pushed = some (core', result)) :
    Committed env order now core seg previous pushed core' result := by
  unfold commit at done
  split at done
  · rename_i top
    split at done
    · rename_i childless
      split at done
      · rename_i main
        cases done
        exact .extendMain top childless main
      · rename_i other
        unfold extendAlternative at done
        simp only [mainLeaf_pushBlock] at done
        split at done
        · rename_i heavier
          cases done
          exact .switch top childless other heavier
        · rename_i lighter
          cases done
          exact .extendAlternative top childless other (Nat.le_of_not_lt lighter)
    · rename_i inner
      cases done
      exact .forkOnTop top inner
  · rename_i below
    unfold forkInside at done
    simp only [Option.map_map, Option.map_eq_some_iff] at done
    obtain ⟨cut, parts, same⟩ := done
    cases same
    exact .forkInside below parts

/-- Either the call fails and only the pool may change, or a checked block is
committed. -/
theorem addBlock_cases (env : Env) (order : HashOrder) (now : Nat) (core : Core) (raw : RawBlock) :
    (∃ reason, (core.addBlock env order now raw).2 = .failed reason ∧
        OnlyPool core (core.addBlock env order now raw).1) ∨
      ∃ seg previous pushed result,
        core.checkBlock env now raw = .ok (seg, previous, pushed) ∧
        (core.addBlock env order now raw).2 = .added result ∧
        Committed env order now core seg previous pushed
          (core.addBlock env order now raw).1 result := by
  unfold addBlock
  split
  · exact .inl ⟨_, rfl, onlyPool_onFailure core _⟩
  · rename_i seg previous pushed passed
    split
    · exact .inl ⟨_, rfl, .refl core⟩
    · rename_i core' result done
      exact .inr ⟨seg, previous, pushed, result, passed, rfl, commit_committed done⟩

/-- One call changes nothing but the pool, or it commits a block. -/
theorem step_cases (env : Env) (order : HashOrder) (core : Core) (call : Call) :
    OnlyPool core (core.step env order call) ∨
      ∃ now raw seg previous pushed result, call = .addBlock now raw ∧
        core.checkBlock env now raw = .ok (seg, previous, pushed) ∧
        Committed env order now core seg previous pushed (core.step env order call) result := by
  cases call with
  | addBlock now raw =>
    rcases addBlock_cases env order now core raw with
      ⟨-, -, onlyPool⟩ | ⟨seg, previous, pushed, result, passed, -, committed⟩
    · exact .inl onlyPool
    · exact .inr ⟨now, raw, seg, previous, pushed, result, rfl, passed, committed⟩
  | addTransactionToPool now raw => exact .inl (onlyPool_addRawTransactionToPool core raw)
  | cleanPool now => exact .inl ⟨_, rfl⟩

end Core

end DeroGold
