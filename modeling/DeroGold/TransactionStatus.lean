import DeroGold.Answers
import DeroGold.Reorg

/-!
What the core tells a wallet about its transactions (`Core::getTransactionsStatus`).

The pool is asked first, then every branch: a transaction that only an alternative block holds
counts as being in a block. In a run that keeps the root whole and brings new transactions, the
answers speak of the main chain exactly for hashes that are `Settled` (`statusExact_iff`).
-/

namespace DeroGold

open SegmentTree KeyIndex List

/-- The three sets the caller gets back. -/
structure TransactionsStatus where
  transactionsInPool : List Hash
  transactionsInBlock : List Hash
  transactionsUnknown : List Hash

namespace Core

variable (core : Core)

/-- The main chain is searched first, then the branches up to where they leave it. -/
def findSegmentContainingTransaction (hash : Hash) : Option Nat :=
  ((core.chainsStorage.path core.mainLeaf).find? (core.segmentHasTransaction hash)).or
    (core.chainsLeaves.tail.findSome? fun leaf =>
      (core.offMainChain leaf).find? (core.segmentHasTransaction hash))

/-- One round over a set of hashes, which has no order of its own. -/
def classify (hash : Hash) (status : TransactionsStatus) : TransactionsStatus :=
  if hash ∈ core.transactionPool.getTransactionHashes then
    { status with transactionsInPool := status.transactionsInPool.insert hash }
  else if (core.findSegmentContainingTransaction hash).isSome then
    { status with transactionsInBlock := status.transactionsInBlock.insert hash }
  else { status with transactionsUnknown := status.transactionsUnknown.insert hash }

def getTransactionsStatus (transactionHashes : List Hash) : TransactionsStatus :=
  transactionHashes.foldr core.classify ⟨[], [], []⟩

theorem isSome_findSegmentContainingTransaction (hash : Hash) :
    (core.findSegmentContainingTransaction hash).isSome = core.isTransactionInChain hash := by
  rw [findSegmentContainingTransaction, isTransactionInChain, Bool.eq_iff_iff]
  simp

/-- The answer a hash is put into depends on nothing but the hash. -/
theorem mem_getTransactionsStatus (hash : Hash) (hashes : List Hash) :
    let status := core.getTransactionsStatus hashes
    let pooled := hash ∈ core.transactionPool.getTransactionHashes
    (hash ∈ status.transactionsInPool ↔ hash ∈ hashes ∧ pooled) ∧
      (hash ∈ status.transactionsInBlock ↔
        hash ∈ hashes ∧ ¬ pooled ∧ core.isTransactionInChain hash = true) ∧
      (hash ∈ status.transactionsUnknown ↔
        hash ∈ hashes ∧ ¬ pooled ∧ ¬ core.isTransactionInChain hash = true) := by
  induction hashes with
  | nil => simp [getTransactionsStatus]
  | cons first rest ih =>
    simp only [getTransactionsStatus, foldr_cons, classify,
      isSome_findSegmentContainingTransaction] at ih ⊢
    by_cases same : hash = first
    · subst same
      split_ifs <;> simp_all
    · split_ifs <;> simp [same, ih]

/-- A block of the chain up to a segment contains the transaction. -/
abbrev Contains (core : Core) (segment : Nat) (hash : Hash) : Prop :=
  hash ∈ keysOf Entry.allHashes (core.chain segment)

/-- Every hash is in one answer, and in a block if the main chain has it. -/
def StatusExact (hashes : List Hash) : Prop :=
  let status := core.getTransactionsStatus hashes
  ∀ hash ∈ hashes,
    [status.transactionsInPool, status.transactionsInBlock,
      status.transactionsUnknown].countP (hash ∈ ·) = 1 ∧
    (hash ∈ status.transactionsInBlock ↔ core.Contains core.mainLeaf hash)

/-- The pool and the main chain do not both have the transaction, and a branch has it only
together with one of them. -/
abbrev Settled (core : Core) (hash : Hash) : Prop :=
  if hash ∈ core.transactionPool.getTransactionHashes then ¬ core.Contains core.mainLeaf hash
  else ∀ leaf ∈ core.chainsLeaves, core.Contains leaf hash → core.Contains core.mainLeaf hash

theorem isTransactionInChain_iff_contains {core : Core} (shape : core.Shape)
    (ok : ∀ leaf, (core.lineage leaf).InOrder) {hash : Hash} :
    core.isTransactionInChain hash = true ↔ ∃ leaf ∈ core.chainsLeaves, core.Contains leaf hash := by
  rw [shape.isTransactionInChain_iff]
  refine exists_congr fun leaf => and_congr_right fun _ => ?_
  refine Iff.trans ?_ (Lineage.any_hasTransaction_iff hash (ok leaf))
  simp only [SegmentTree.lineage, any_filterMap, any_eq_true]
  rfl

/-- In a run that keeps the root whole and brings new transactions, the status of a set of
hashes speaks of the main chain just if all of them are settled. -/
theorem statusExact_iff (env : Env) (order : HashOrder) (genesis : CachedBlock)
    (calls : List Call) (hashes : List Hash) (ok : TransitionSystem.Along (step env order)
      (fun core call => core.KeepsRoot env call ∧ core.FreshTransactions call) (load genesis) calls) :
    (afterCalls env order genesis calls).StatusExact hashes ↔
      ∀ hash ∈ hashes, (afterCalls env order genesis calls).Settled hash := by
  have shape := (linear_afterCalls (ok.mono fun _ _ both => both.1)).shape
  have branches := fun hash => @isTransactionInChain_iff_contains _ shape (inOrder_afterCalls ok) hash
  generalize afterCalls env order genesis calls = core at *
  refine forall₂_congr fun hash mem => ?_
  obtain ⟨inPool, inBlock, unknown⟩ := core.mem_getTransactionsStatus hash hashes
  refine (and_iff_right ?_).trans ?_
  · by_cases pooled : hash ∈ core.transactionPool.getTransactionHashes
    · simp [inPool, inBlock, unknown, mem, pooled]
    · by_cases known : core.isTransactionInChain hash = true
      · simp [inPool, inBlock, unknown, mem, pooled, known]
      · simp [inPool, inBlock, unknown, mem, pooled, known]
  · rw [inBlock, branches hash, Settled]
    split
    · rename_i pooled
      simp [pooled]
    · rename_i pooled
      constructor
      · exact fun main leaf leaf_mem has => main.1 ⟨mem, pooled, leaf, leaf_mem, has⟩
      · exact fun all => ⟨fun ⟨_, _, leaf, leaf_mem, has⟩ => all leaf leaf_mem has,
          fun main => ⟨mem, pooled, _, shape.mainLeaf_mem, main⟩⟩

/-- The coinbase of block 11 on the main chain, a transaction of the pool and one nobody knows. -/
theorem statusExact_iff_forked : (afterCalls Sample.env .insertion Sample.genesis
    (pooledOnBranch [] [] 0)).StatusExact [1000011, 5000, 7] :=
  (statusExact_iff Sample.env .insertion Sample.genesis _ _ (by decide +kernel)).2 (by decide +kernel)

/-- The coinbase of a block beside block 11 is reported to be in a block. -/
theorem not_statusExact_alternative : ¬ (afterCalls Sample.env .insertion Sample.genesis
    (pooledOnBranch [] [] 0)).StatusExact [1000111] := by
  intro answers
  have main := (answers 1000111 (mem_singleton_self _)).2.1 (by decide +kernel)
  exact absurd main (by decide +kernel)

end Core

end DeroGold
