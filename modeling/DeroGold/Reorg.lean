import DeroGold.PoolAgrees
import DeroGold.Rejected
import Mathlib.Data.List.TakeWhile

/-!
Transactions over a switch of the main chain.

After a switch the core drops pool transactions that some branch holds and then offers
the transactions of the abandoned blocks to the pool. Everything still valid is kept if
the pool can take it and no pool transaction sits on a third branch
(`losesNothing_of_restorable`). A transaction that does sit on a third branch is
dropped although the new main chain does not hold it (`not_losesNothing_thirdBranch`).
-/

namespace DeroGold

open SegmentTree KeyIndex Checked List Parameters TransitionSystem CachedTransaction
  TransactionPool Cache

/-! ### Stored blocks parse -/

def RawBlock.Parses (raw : RawBlock) : Prop := ∀ tx ∈ raw.transactions, (ofRaw tx).isSome = true

/-- The transactions of a block that parses stand at the places of their blobs. -/
theorem RawBlock.Parses.getElem?_cachedTransactions {raw : RawBlock} (parses : raw.Parses) (i : Nat) :
    raw.cachedTransactions[i]? = raw.transactions[i]?.bind ofRaw := by
  have listed : raw.cachedTransactions.map some = raw.transactions.map ofRaw := by
    rw [cachedTransactions, map_filterMap_some_eq_filter_map_isSome, filter_eq_self, forall_mem_map]
    exact parses
  simpa [Option.bind_map, Function.comp_def] using congrArg (·[i]?.bind id) listed

theorem parses_of_extractTransactions {raw : RawBlock} {txs : List CachedTransaction}
    (parsed : extractTransactions raw.transactions = .ok txs) : raw.Parses := by
  obtain ⟨-, parsed⟩ := of_require_bind.1 parsed
  have each : List.Forall₂ (fun tx (_ : CachedTransaction) =>
      (ofRaw tx).isSome = true ∧ True) raw.transactions txs := by
    refine (mapM_ok.1 parsed).imp fun tx cached parsed => ⟨?_, trivial⟩
    cases found : ofRaw tx with
    | none => rw [found] at parsed; cases parsed
    | some cached => rfl
  exact ((forall₂_and_left _ _).1 each).1

/-! ### Blobs of an in-memory segment -/

variable {cache : BlockchainCache}

/-- Blobs of a segment are blobs of its blocks. -/
theorem BlockchainCache.mem_of_rawTransactions {order : HashOrder} {raw : RawTransaction}
    {tx : CachedTransaction} (mem : raw ∈ (memory cache).rawTransactions order)
    (parsed : ofRaw raw = some tx) : ∃ block ∈ cache.storage, tx ∈ block.cachedTransactions := by
  obtain ⟨info, -, found⟩ := mem_filterMap.1 mem
  split at found
  · cases found
  · obtain ⟨block, block_at, raw_at⟩ := Option.bind_eq_some_iff.1 found
    exact ⟨block, mem_of_getElem? block_at, mem_filterMap.2 ⟨raw, mem_of_getElem? raw_at, parsed⟩⟩

/-- The blob of a transaction with an info, unless it is a coinbase. -/
theorem InfosOk.exists_rawTransaction {order : HashOrder}
    {below : List RawBlock} (ok : InfosOk cache.startIndex below cache.storage cache.transactions)
    (parses : ∀ block ∈ cache.storage, block.Parses) {info : CachedTransactionInfo}
    (mem : info ∈ cache.transactions) : (∃ block ∈ cache.storage,
        block.block.baseTransaction.transactionHash = info.transactionHash) ∨
      ∃ raw ∈ (memory cache).rawTransactions order, ∃ tx,
        ofRaw raw = some tx ∧ tx.transactionHash = info.transactionHash := by
  obtain ⟨p, block, tx, block_at, tx_at, info_eq⟩ := ok.located info mem
  have hash : tx.transactionHash = info.transactionHash := by
    rw [info_eq]
    rfl
  have index : info.blockIndex - cache.startIndex = p := by
    rw [info_eq]
    exact Nat.add_sub_cancel_left ..
  cases position : info.transactionIndex with
  | zero =>
    rw [position] at tx_at
    cases tx_at
    exact .inl ⟨block, mem_of_getElem? block_at, hash⟩
  | succ i =>
    rw [position, RawBlock.allTransactions, getElem?_cons_succ,
      (parses block (mem_of_getElem? block_at)).getElem?_cachedTransactions] at tx_at
    obtain ⟨raw, raw_at, parsed⟩ := Option.bind_eq_some_iff.1 tx_at
    refine .inr ⟨raw, ?_, tx, parsed, hash⟩
    refine mem_filterMap.2 ⟨info, (order.perm _).mem_iff.2 mem, ?_⟩
    rw [position, if_neg (Nat.succ_ne_zero i), index, block_at]
    exact raw_at

namespace Core

variable {env : Env} {order : HashOrder} {now : Nat} {core core' : Core} {raw : RawBlock}
  {seg previous : Nat} {pushed : PushedBlockInfo} {nd : Node Cache}
  {parents : Lineage} {parent : Entry} {result : AddBlockResult} {genesis : CachedBlock}

/-- What holds of the genesis block and of every block that a call may bring and that
passes its checks holds of every stored block. -/
theorem forall_stored {P : RawBlock → Prop} {ok : Core → Call → Prop} {calls : List Call}
    (base : P ⟨genesis, []⟩)
    (checked : ∀ {core : Core} {now : Nat} {raw : RawBlock} {seg previous : Nat}
      {pushed : PushedBlockInfo}, ok core (.addBlock now raw) →
      core.checkBlock env now raw = .ok (seg, previous, pushed) → P raw)
    (along : Along (step env order) ok (load genesis) calls) :
    ∀ entry ∈ (afterCalls env order genesis calls).allEntries, P entry.1 := by
  have step : ∀ (core : Core) (call : Call),
      core.Shape ∧ (∀ entry ∈ core.allEntries, P entry.1) → ok core call →
      (core.step env order call).Shape ∧
        ∀ entry ∈ (core.step env order call).allEntries, P entry.1 := by
    rintro core call ⟨shape, all⟩ meets
    refine ⟨shape.step call, ?_⟩
    intro entry mem
    rcases step_cases env order core call with
      onlyPool | ⟨now, raw, seg, previous, pushed, result, rfl, passed, committed⟩
    · rw [allEntries, onlyPool.chainsStorage_eq] at mem
      exact all entry mem
    · obtain ⟨nd, parents, parent, placed, same⟩ := shape.placed passed
      have grown := committed.allEntries_perm shape placed same
      rcases mem_cons.1 (grown.mem_iff.1 mem) with rfl | mem
      · exact checked meets passed
      · exact all entry mem
  have initial : ∀ entry ∈ (load genesis).allEntries, P entry.1 := forall_mem_singleton.2 base
  exact (invariant_run step ⟨shape_load genesis, initial⟩ along).2

theorem parses_afterCalls (env : Env) (order : HashOrder) (genesis : CachedBlock)
    (calls : List Call) :
    ∀ entry ∈ (afterCalls env order genesis calls).allEntries, entry.1.Parses := by
  refine forall_stored (forall_mem_nil _) ?_ (along_true _ _)
  intro core now raw seg previous pushed _ passed
  obtain ⟨-, -, -, -, -, checked⟩ := checkBlock_ok passed
  obtain ⟨difficulty, fee, state, reward, checks, -⟩ := checkOnBranch_ok checked
  exact parses_of_extractTransactions checks.parsed

/-! ### What offering transactions to the pool does -/

/-- A set of transactions the pool can hold all at once. -/
structure Compatible (txs : List CachedTransaction) : Prop where
  eq_of_hash : ∀ a ∈ txs, ∀ b ∈ txs, a.transactionHash = b.transactionHash → a = b
  apart : ∀ a ∈ txs, ∀ b ∈ txs, a ≠ b → ∀ k ∈ a.transaction.keyImages, k ∉ b.transaction.keyImages
  room : txs.countP (fun tx => tx.getTransactionFee == 0) ≤ fusionTxMaxPoolCount

instance (txs : List CachedTransaction) : Decidable (Compatible txs) :=
  decidable_of_iff (_ ∧ _ ∧ _)
    ⟨fun h => ⟨h.1, h.2.1, h.2.2⟩, fun h => ⟨h.eq_of_hash, h.apart, h.room⟩⟩

/-- The pool holds transactions of the set only. -/
structure Drawn (txs : List CachedTransaction) (core : Core) : Prop where
  ok : core.transactionPool.Ok
  inside : ∀ pending ∈ core.transactionPool.transactions, pending.cachedTransaction ∈ txs

variable {txs : List CachedTransaction} {tx : CachedTransaction} {holder : Nat}

theorem Drawn.addRawTransactionToPool (drawn : Drawn txs core) {raw : RawTransaction}
    (offered : ∀ tx, ofRaw raw = some tx → tx ∈ txs) :
    Drawn txs (core.addRawTransactionToPool env now raw) := by
  refine ⟨poolOk_addRawTransactionToPool drawn.ok raw, ?_⟩
  rcases addRawTransactionToPool_cases env now core raw with
    same | ⟨tx, parsed, -, -, pushed⟩
  · rw [same]
    exact drawn.inside
  · rw [pushed]
    exact forall_mem_append.2 ⟨drawn.inside, forall_mem_singleton.2 (offered tx parsed)⟩

variable {pending : PendingTransactionInfo} {hd : Node Cache}

/-- Offering a transaction never takes another one out. -/
theorem mem_addRawTransactionToPool
    (mem : pending ∈ core.transactionPool.transactions) (raw : RawTransaction) :
    pending ∈ (core.addRawTransactionToPool env now raw).transactionPool.transactions := by
  rcases addRawTransactionToPool_cases env now core raw with same | ⟨tx, -, -, -, pushed⟩
  · rw [same]
    exact mem
  · rw [pushed]
    exact mem_append_left _ mem

/-- Fewer transactions without fee are in the pool than the set has, as long as one of
the set is missing. -/
theorem Drawn.fusionCount_lt (drawn : Drawn txs core) (mem : tx ∈ txs)
    (free : tx.getTransactionFee = 0)
    (absent : ∀ pending ∈ core.transactionPool.transactions, pending.cachedTransaction ≠ tx) :
    core.transactionPool.getFusionTransactionCount <
      txs.countP fun tx => tx.getTransactionFee == 0 := by
  have held_nodup : (core.transactionPool.transactions.map (·.cachedTransaction)).Nodup := by
    apply List.Nodup.of_map (·.transactionHash)
    rw [map_map]
    exact drawn.ok.hashes
  have tx_absent : tx ∉ core.transactionPool.transactions.map (·.cachedTransaction) :=
    fun held => forall_mem_map (P := (· ≠ tx)).2 absent tx held rfl
  have all_inside : (tx :: core.transactionPool.transactions.map (·.cachedTransaction)) ⊆ txs :=
    cons_subset.2 ⟨mem, fun other => forall_mem_map (P := (· ∈ txs)).2 drawn.inside other⟩
  have counted := ((subperm_of_subset (nodup_cons.2 ⟨tx_absent, held_nodup⟩)
    all_inside).countP_le fun tx => tx.getTransactionFee == 0)
  rw [countP_cons_of_pos (by rw [free]; rfl), countP_map] at counted
  exact counted

/-- A valid transaction of a compatible set that was not deleted lately is in the pool
once it has been offered. -/
theorem Drawn.exists_pending (compatible : Compatible txs) (drawn : Drawn txs core)
    {raw : RawTransaction} (parsed : ofRaw raw = some tx) (mem : tx ∈ txs)
    (valid : core.ValidOnMain env now tx)
    (recent : core.transactionPool.isTransactionRecentlyDeleted tx.transactionHash = false) :
    ∃ pending ∈ (core.addRawTransactionToPool env now raw).transactionPool.transactions,
      pending.cachedTransaction = tx := by
  by_cases present : core.transactionPool.checkIfTransactionPresent tx.transactionHash = true
  · obtain ⟨pending, held, same⟩ := checkIfTransactionPresent_iff.1 present
    exact ⟨pending, mem_addRawTransactionToPool held raw,
      compatible.eq_of_hash _ (drawn.inside pending held) tx mem same⟩
  · have absent : ∀ pending ∈ core.transactionPool.transactions, pending.cachedTransaction ≠ tx := by
      intro pending held same
      exact present (checkIfTransactionPresent_iff.2 ⟨pending, held, same ▸ rfl⟩)
    have room : ¬ (tx.getTransactionFee = 0 ∧ fusionTxMaxPoolCount ≤
        core.transactionPool.getFusionTransactionCount) := by
      rintro ⟨free, full⟩
      have fewer := drawn.fusionCount_lt mem free absent
      have room := compatible.room
      omega
    obtain ⟨⟨state, fee⟩, passed⟩ := valid
    obtain ⟨images, -⟩ := validate_ok passed nodup_nil
    have no_conflict : hasIntersections core.transactionPool.poolState tx.transaction.keyImages =
        false := by
      rw [hasIntersections, any_eq_false]
      intro k spends noted
      rw [decide_eq_true_eq] at noted
      obtain ⟨pending, held, spends'⟩ := drawn.ok.noted k noted
      exact compatible.apart _ (drawn.inside pending held) tx mem (absent pending held) k spends'
        spends
    have entered : core.addRawTransactionToPool env now raw =
        { core with
          transactionPool := { core.transactionPool with
            poolState := core.transactionPool.poolState ++ tx.transaction.keyImages
            transactions := core.transactionPool.transactions ++ [⟨now, tx⟩] } } := by
      rw [Bool.not_eq_true] at present
      simp only [Core.addRawTransactionToPool, parsed, addTransactionToPool, present,
        isTransactionValidForPool, if_neg room, passed, pushTransaction, recent,
        images, nil_append, no_conflict, Bool.false_eq_true, if_false]
    rw [entered]
    exact ⟨⟨now, tx⟩, mem_append_right _ (mem_singleton_self _), rfl⟩

/-! ### Abandoned blocks -/

/-- Blocks of the main chain that the branch of a segment does not hold. -/
def abandoned (core : Core) (segment : Nat) : List Entry :=
  core.mainChain.filter fun entry => decide (entry ∉ core.chain segment)

def abandonedTransactions (core : Core) (segment : Nat) : List CachedTransaction :=
  (core.abandoned segment).flatMap fun entry => entry.1.cachedTransactions

/-- Segments of the main chain that the branch of a segment leaves out. -/
def abandonedSegments (core : Core) (segment : Nat) : List Nat :=
  (core.chainsStorage.path core.mainLeaf).takeWhile fun holder =>
    decide (holder ∉ core.chainsStorage.path segment)

/-- The entries of a segment that is left out are abandoned. -/
theorem Linear.mem_abandoned (linear : core.Linear) (mem : holder ∈ core.abandonedSegments seg)
    (found : core.chainsStorage.node? holder = some hd) {entry : Entry}
    (held : entry ∈ hd.value.entries) : entry ∈ core.abandoned seg := by
  refine mem_filter.2 ⟨mem_chain.2 ⟨holder, takeWhile_subset _ mem, hd, found, held⟩, ?_⟩
  rw [decide_eq_true_eq]
  intro kept
  obtain ⟨other, on_path, od, found', held'⟩ := mem_chain.1 kept
  have same := position_unique (.of_map _ linear.hashes) (getElem?_values_of_node? found)
    (getElem?_values_of_node? found') held held'
  have off := mem_takeWhile_imp mem
  rw [decide_eq_true_eq] at off
  exact off (same ▸ on_path)

/-- A segment of the main chain is left out unless it is on the branch. -/
theorem Shape.mem_abandonedSegments_or_mem (shape : core.Shape)
    (old : seg < core.chainsStorage.size) (mem : holder ∈ core.chainsStorage.path core.mainLeaf) :
    holder ∈ core.abandonedSegments seg ∨ holder ∈ core.chainsStorage.path seg := by
  refine (shape.tree.wellFormed.isPath_path shape.mainLeaf_lt).mem_takeWhile_or_mem ?_ mem
  intro j qs on_path walk
  obtain ⟨qs', walk', suffix⟩ := (shape.tree.wellFormed.isPath_path old).of_mem on_path
  rw [walk.unique walk']
  exact suffix.subset

/-- The database is on every branch. -/
theorem Shape.memory_of_abandoned (shape : core.Shape) (old : seg < core.chainsStorage.size)
    (mem : holder ∈ core.abandonedSegments seg)
    (found : core.chainsStorage.node? holder = some hd) : ∃ cache, hd.value = .memory cache := by
  cases value : hd.value with
  | memory cache => exact ⟨cache, rfl⟩
  | database cache =>
    have root : holder = 0 := (shape.tree.database found).1 (by rw [value]; rfl)
    have off := mem_takeWhile_imp mem
    rw [decide_eq_true_eq] at off
    exact absurd (root ▸ shape.root_mem_path old) off

/-- The blobs of the segments that are left out, in the order they are offered. -/
def offered (order : HashOrder) (core : Core) (segment : Nat) : List RawTransaction :=
  (core.abandonedSegments segment).flatMap fun holder =>
    ((core.chainsStorage.value? holder).map (rawTransactions order)).getD []

theorem mem_offered {tx : RawTransaction} :
    tx ∈ core.offered order seg ↔ ∃ holder ∈ core.abandonedSegments seg,
      ∃ cache, core.chainsStorage.value? holder = some cache ∧ tx ∈ cache.rawTransactions order := by
  rw [offered, mem_flatMap]
  refine exists_congr fun holder => and_congr_right fun _ => ?_
  cases core.chainsStorage.value? holder with
  | none | some cache => simp

/-- Only transactions of abandoned blocks are offered. -/
theorem Linear.mem_abandonedTransactions (linear : core.Linear)
    (old : seg < core.chainsStorage.size) {tx : RawTransaction} (mem : tx ∈ core.offered order seg)
    {cached : CachedTransaction} (parsed : ofRaw tx = some cached) :
    cached ∈ core.abandonedTransactions seg := by
  obtain ⟨holder, off, cache, value, mem⟩ := mem_offered.1 mem
  rw [value?, Option.map_eq_some_iff] at value
  obtain ⟨hd, found, rfl⟩ := value
  obtain ⟨memory, value⟩ := linear.shape.memory_of_abandoned old off found
  rw [value] at mem
  obtain ⟨block, stored, has⟩ := BlockchainCache.mem_of_rawTransactions mem parsed
  have sound := linear.shape.tree.sound found
  have listed : block ∈ hd.value.entries.map Prod.fst := by
    rw [map_fst_entries sound.aligned, value]
    exact stored
  obtain ⟨entry, held, rfl⟩ := mem_map.1 listed
  exact mem_flatMap.2 ⟨entry, linear.mem_abandoned off found held, has⟩

/-- Every transaction of an abandoned block is offered, unless its hash occurs on the
branch or is that of an abandoned coinbase. -/
theorem Linear.exists_offered (linear : core.Linear)
    (infos : Consistent entries Cache.InfosOk core.chainsStorage)
    (parses : ∀ entry ∈ core.allEntries, entry.1.Parses) (old : seg < core.chainsStorage.size)
    {hash : Hash} (occurs : HashOccurs (core.mainChain.map Prod.fst) hash)
    (off : ¬ HashOccurs ((core.chain seg).map Prod.fst) hash) : (∃ entry ∈ core.abandoned seg,
        entry.1.block.baseTransaction.transactionHash = hash) ∨
      ∃ tx ∈ core.offered order seg, ∃ cached, ofRaw tx = some cached ∧
        cached.transactionHash = hash := by
  have wf := linear.shape.tree.wellFormed
  -- the lowest seg of the main chain in which the hash occurs
  have occurs' : ∃ entry ∈ core.chainsStorage.chain entries core.mainLeaf,
      ∃ tx ∈ entry.1.allTransactions, tx.transactionHash = hash := by
    obtain ⟨raw, listed, has⟩ := occurs
    obtain ⟨entry, mem, rfl⟩ := mem_map.1 listed
    exact ⟨entry, mem, has⟩
  obtain ⟨holder, on_path, hd, found, ⟨entry, held, tx, tx_mem, tx_hash⟩, first⟩ :=
    (wf.isPath_path linear.shape.mainLeaf_lt).exists_first wf occurs'
  have sound := linear.shape.tree.sound found
  rcases linear.shape.mem_abandonedSegments_or_mem old on_path with left | kept
  · obtain ⟨cache, value⟩ := linear.shape.memory_of_abandoned old left found
    have infosOk := infos found
    rw [value] at infosOk
    have storage_eq : cache.storage = hd.value.entries.map Prod.fst := by
      rw [map_fst_entries sound.aligned, value]
      rfl
    have of_storage : ∀ block ∈ cache.storage, ∃ entry ∈ hd.value.entries, entry.1 = block :=
      fun block mem => mem_map.1 (storage_eq ▸ mem)
    obtain ⟨p, block_at⟩ := getElem?_of_mem (storage_eq ▸ mem_map_of_mem held)
    rcases infosOk.complete p entry.1 block_at tx tx_mem with ⟨info, info_mem, info_hash, -⟩ | deeper
    · have segment_parses : ∀ block ∈ cache.storage, block.Parses := by
        intro block mem
        obtain ⟨entry, held, rfl⟩ := of_storage block mem
        exact parses entry (mem_allEntries.2 ⟨holder, hd, found, held⟩)
      rcases infosOk.exists_rawTransaction segment_parses info_mem with
        ⟨block, stored, base⟩ | ⟨raw, raw_mem, cached, parsed, cached_hash⟩
      · obtain ⟨entry, held, rfl⟩ := of_storage block stored
        exact .inl ⟨entry, linear.mem_abandoned left found held,
          base.trans (info_hash.trans tx_hash)⟩
      · refine .inr ⟨raw, mem_offered.2 ⟨holder, left, hd.value, ?_, ?_⟩, cached, parsed,
          cached_hash.trans (info_hash.trans tx_hash)⟩
        · rw [value?, found]
          rfl
        · rw [value]
          exact raw_mem
    · obtain ⟨raw, listed, tx', tx'_mem, same⟩ := deeper
      obtain ⟨entry', below, rfl⟩ := mem_map.1 listed
      exact absurd ⟨tx', tx'_mem, same.trans tx_hash⟩ (first entry' below)
  · exact absurd ⟨entry.1, mem_map_of_mem (mem_chain.2 ⟨holder, kept, hd, found, held⟩), tx,
      tx_mem, tx_hash⟩ off

/-! ### The pool over a switch -/

theorem OnlyPool.validOnMain (h : OnlyPool core core') :
    core'.ValidOnMain env now tx ↔ core.ValidOnMain env now tx := by
  obtain ⟨pool, rfl⟩ := h
  exact Iff.rfl

theorem recentlyDeletedTransactions_checkAndRemoveInvalidPoolTransactions (core : Core)
    (images : List KeyImage) : (core.checkAndRemoveInvalidPoolTransactions
        images).transactionPool.recentlyDeletedTransactions =
      core.transactionPool.recentlyDeletedTransactions := by
  refine foldl_keeps (g := recentlyDeletedTransactions) ?_ _ _
  intro pool hash
  split
  · rfl
  · split
    · rfl
    · unfold removeTransaction
      split <;> rfl

/-- Offering transactions never takes another one out. -/
theorem mem_foldl_addRawTransactionToPool
    (raws : List RawTransaction) (mem : pending ∈ core.transactionPool.transactions) :
    pending ∈ (raws.foldl (fun core raw => core.addRawTransactionToPool env now raw)
      core).transactionPool.transactions :=
  foldlRecOn (motive := fun core : Core => pending ∈ core.transactionPool.transactions) _ _ mem
    fun _ mem raw _ => mem_addRawTransactionToPool mem raw

/-- The loop brings every valid transaction it is offered into the pool. -/
theorem Drawn.exists_pending_foldl (compatible : Compatible txs) {raws : List RawTransaction}
    (inside : ∀ raw ∈ raws, ∀ tx, ofRaw raw = some tx → tx ∈ txs)
    (drawn : Drawn txs core) {raw : RawTransaction} (mem : raw ∈ raws)
    (parsed : ofRaw raw = some tx) (valid : core.ValidOnMain env now tx)
    (recent : core.transactionPool.isTransactionRecentlyDeleted tx.transactionHash = false) :
    ∃ pending ∈ (raws.foldl (fun core raw => core.addRawTransactionToPool env now raw)
      core).transactionPool.transactions, pending.cachedTransaction = tx := by
  induction raws generalizing core with
  | nil => cases mem
  | cons first raws ih =>
    rcases mem_cons.1 mem with rfl | mem
    · obtain ⟨pending, held, same⟩ := drawn.exists_pending compatible parsed
        (inside raw mem_cons_self tx parsed) valid recent
      exact ⟨pending, mem_foldl_addRawTransactionToPool raws held, same⟩
    · refine ih (forall_mem_cons.1 inside).2
        (drawn.addRawTransactionToPool (inside first mem_cons_self)) mem ?_ ?_
      · exact (onlyPool_addRawTransactionToPool core first).validOnMain.2 valid
      · unfold isTransactionRecentlyDeleted at recent ⊢
        dsimp only
        rcases addRawTransactionToPool_cases env now core first with same | ⟨_, -, -, -, pushed⟩
        · rwa [same]
        · rwa [pushed]

end Core

/-! ### Known transactions of a pushed block -/

/-- A segment learns of the transactions of the pushed block only. -/
theorem Cache.known_of_pushBlock {cache : Cache} {hash : Hash} {parents : Lineage}
    {pushed : PushedBlockInfo}
    (known : (cache.pushBlock parents pushed).hasTransaction hash = true) :
    cache.hasTransaction hash = true ∨
      ∃ tx ∈ pushed.rawBlock.allTransactions, tx.transactionHash = hash := by
  cases cache with
  | database cache => exact (cache.isSome_transactions_pushBlock pushed hash).1 known
  | memory cache =>
    obtain ⟨info, held, same⟩ := any_eq_true.1 known
    rw [BlockchainCache.transactions_pushBlock] at held
    rcases mem_foldl_addUnless held with held | offered
    · exact .inl (any_eq_true.2 ⟨info, held, same⟩)
    · obtain ⟨⟨tx, i⟩, zipped, rfl⟩ := mem_map.1 offered
      exact .inr ⟨tx, mem_of_getElem? (mem_zipIdx_iff_getElem?.1 zipped), eq_of_beq same⟩

namespace Core

variable {env : Env} {order : HashOrder} {now : Nat} {core core' : Core} {raw : RawBlock}
  {seg previous : Nat} {pushed : PushedBlockInfo} {nd : Node Cache}
  {parents : Lineage} {parent : Entry} {result : AddBlockResult} {genesis : CachedBlock}

/-- What is in the chain after a switch was there before or came with the block. -/
theorem isTransactionInChain_of_switched (shape : core.Shape)
    (placed : Placed core raw seg previous nd parents parent) (same : pushed.rawBlock = raw)
    (top : (core.lineage seg).getTopBlockIndex = previous)
    (childless : core.chainsStorage.childrenOf seg = []) {hash : Hash}
    (known : ((core.pushBlock seg pushed).switched seg).isTransactionInChain hash = true) :
    core.isTransactionInChain hash = true ∨ HashOccurs [raw] hash := by
  rw [isTransactionInChain_switched_iff shape placed same top childless] at known
  obtain ⟨leaf, leaf_mem, holder, on_path, cache, value, has⟩ := known
  have before : cache.hasTransaction hash = true → core.isTransactionInChain hash = true :=
    fun has => shape.isTransactionInChain_iff.2
      ⟨leaf, leaf_mem, holder, on_path, (Option.any_eq_true ..).2 ⟨cache, value, has⟩⟩
  split at has
  · rcases known_of_pushBlock has with has | ⟨tx, tx_mem, tx_hash⟩
    · exact .inl (before has)
    · exact .inr ⟨raw, mem_singleton_self raw, tx, same ▸ tx_mem, tx_hash⟩
  · exact .inl (before has)

/-- The loop after a switch offers the blobs of the segments left out. -/
theorem copyTransactionsToPool_switched (shape : core.Shape)
    (placed : Placed core raw seg previous nd parents parent)
    (childless : core.chainsStorage.childrenOf seg = []) {mid : Core}
    (onlyPool : OnlyPool ((core.pushBlock seg pushed).switched seg) mid) :
    mid.copyTransactionsToPool env order now core.mainLeaf =
      (core.offered order seg).foldl
        (fun core raw => core.addRawTransactionToPool env now raw) mid := by
  have wf := shape.tree.wellFormed
  have listed : seg ∈ (core.pushBlock seg pushed).chainsLeaves := by
    rw [chainsLeaves_pushBlock]
    exact placed.mem_leaves shape childless
  have storage : mid.chainsStorage =
      core.chainsStorage.setValue seg (nd.value.pushBlock parents pushed) :=
    onlyPool.chainsStorage_eq.trans (chainsStorage_pushBlock placed.lineage)
  have main : mid.mainChainSet = core.chainsStorage.path seg := by
    rw [onlyPool.mainChainSet_eq]
    change (core.pushBlock seg pushed).chainsStorage.path
      ((swapWithMain (core.pushBlock seg pushed).chainsLeaves seg).headD 0) = _
    rw [headD_swapWithMain listed, chainsStorage_pushBlock placed.lineage,
      wf.path_setValue _ (lt_size_of_node? placed.node)]
  have off : mid.offMainChain core.mainLeaf = core.abandonedSegments seg := by
    rw [offMainChain, storage, main, wf.path_setValue _ shape.mainLeaf_lt]
    rfl
  have blobs : ((mid.offMainChain core.mainLeaf).flatMap fun holder =>
      ((mid.chainsStorage.value? holder).map (rawTransactions order)).getD []) =
        core.offered order seg := by
    rw [off, offered]
    refine flatMap_congr fun holder mem => ?_
    have apart : holder ≠ seg := by
      rintro rfl
      have out := mem_takeWhile_imp mem
      exact of_decide_eq_true out (wf.isPath_path (lt_size_of_node? placed.node)).self_mem
    rw [storage, value?_setValue_of_ne _ _ apart]
  rw [copyTransactionsToPool, blobs]

/-! ### Nothing is lost -/

/-- If the block switches the main chain, then every transaction of the pool or of an
abandoned block that is valid on the new main chain, spends nothing spent there and is
not contained in it is in the pool afterwards. -/
def LosesNothing (env : Env) (order : HashOrder) (now : Nat) (core : Core) (raw : RawBlock) : Prop :=
  (core.addBlock env order now raw).2 = .added .addedToAlternativeAndSwitched →
    ∀ tx : CachedTransaction,
      ((∃ entry ∈ core.mainChain, entry ∉ (core.addBlock env order now raw).1.mainChain ∧
          tx ∈ entry.1.cachedTransactions) ∨
        ∃ pending ∈ core.transactionPool.transactions, pending.cachedTransaction = tx) →
      (core.addBlock env order now raw).1.ValidOnMain env now tx →
      (∀ k ∈ tx.transaction.keyImages,
        k ∉ keysOf Entry.keyImages (core.addBlock env order now raw).1.mainChain) →
      ¬ HashOccurs ((core.addBlock env order now raw).1.mainChain.map Prod.fst)
        tx.transactionHash →
      ∃ pending ∈ (core.addBlock env order now raw).1.transactionPool.transactions,
        pending.cachedTransaction = tx

/-- What has to hold for a switch to a branch to bring everything into the pool: pool
and abandoned transactions fit into it together, no abandoned coinbase shares a hash
with one of them, none was deleted from the pool lately, and a pool transaction that
some branch holds is held by the new main chain or by an abandoned block. -/
structure Restorable (core : Core) (segment : Nat) : Prop where
  compatible : Compatible (core.transactionPool.transactions.map (·.cachedTransaction) ++
    core.abandonedTransactions segment)
  coinbases : ∀ entry ∈ core.abandoned segment, ∀ tx ∈ core.abandonedTransactions segment,
    entry.1.block.baseTransaction.transactionHash ≠ tx.transactionHash
  remembered : ∀ tx ∈ core.abandonedTransactions segment,
    core.transactionPool.isTransactionRecentlyDeleted tx.transactionHash = false
  branches : ∀ pending ∈ core.transactionPool.transactions,
    core.isTransactionInChain pending.cachedTransaction.transactionHash = true →
      HashOccurs ((core.chain segment).map Prod.fst) pending.cachedTransaction.transactionHash ∨
        ∃ tx ∈ core.abandonedTransactions segment,
          tx.transactionHash = pending.cachedTransaction.transactionHash

instance (blocks : List RawBlock) (hash : Hash) : Decidable (HashOccurs blocks hash) :=
  inferInstanceAs (Decidable (∃ raw ∈ blocks, ∃ tx ∈ raw.allTransactions, _))

instance (core : Core) (segment : Nat) : Decidable (core.Restorable segment) :=
  decidable_of_iff (_ ∧ _ ∧ _ ∧ _)
    ⟨fun h => ⟨h.1, h.2.1, h.2.2.1, h.2.2.2⟩,
      fun h => ⟨h.compatible, h.coinbases, h.remembered, h.branches⟩⟩

/-- A branch that outgrows the main chain by the block can take over without loss. -/
def KeepsTransactions (core : Core) (raw : RawBlock) : Prop :=
  ∀ segment ∈ core.findSegmentContainingBlock raw.block.previousBlockHash,
    core.EndsWith segment raw.block.previousBlockHash → core.Outgrows segment →
    core.Restorable segment

instance (core : Core) (raw : RawBlock) : Decidable (core.KeepsTransactions raw) :=
  inferInstanceAs (Decidable (∀ segment ∈ _, _))

/-- A valid pool transaction passes the verdict after a switch, if no branch holds it. -/
theorem isValidAfterBlock_of_validOnMain {images : List KeyImage} {tx : CachedTransaction}
    (valid : core.ValidOnMain env now tx)
    (unknown : core.isTransactionInChain tx.transactionHash = false)
    (unspent : ∀ k ∈ tx.transaction.keyImages, k ∉ images) :
    core.isValidAfterBlock images tx = true := by
  obtain ⟨result, passed⟩ := valid
  obtain ⟨inputs, sumOfOutputs, checks, -⟩ := checks_of_validate passed
  have mixin : Mixins.validate tx core.getTopBlockIndex = true := require_eq_ok.1 checks.mixin
  have size : tx.binarySize ≤ getMaximumTransactionAllowedSize core.blockMedianSize :=
    require_eq_ok.1 checks.size
  simp only [isValidAfterBlock, unknown, mixin, size, hasIntersections, Bool.not_false, decide_true,
    Bool.and_self, Bool.true_and, Bool.not_eq_true', any_eq_false, decide_eq_true_eq]
  exact unspent

section

variable (linear : core.Linear) (infos : Consistent entries Cache.InfosOk core.chainsStorage)
  (parses : ∀ entry ∈ core.allEntries, entry.1.Parses)
include linear infos parses

/-- An abandoned transaction that is valid on the new main chain and not held by it gets
into the pool. -/
theorem exists_pending_of_abandoned (old : seg < core.chainsStorage.size)
    (restorable : core.Restorable seg) {mid : Core}
    (drawn : Drawn (core.transactionPool.transactions.map (·.cachedTransaction) ++
      core.abandonedTransactions seg) mid)
    (remembered : mid.transactionPool.recentlyDeletedTransactions =
      core.transactionPool.recentlyDeletedTransactions) {tx : CachedTransaction}
    (mem : tx ∈ core.abandonedTransactions seg) (valid : mid.ValidOnMain env now tx)
    (off : ¬ HashOccurs ((core.chain seg).map Prod.fst) tx.transactionHash) :
    ∃ pending ∈ ((core.offered order seg).foldl
        (fun core raw => core.addRawTransactionToPool env now raw) mid).transactionPool.transactions,
      pending.cachedTransaction = tx := by
  have occurs : HashOccurs (core.mainChain.map Prod.fst) tx.transactionHash := by
    obtain ⟨entry, left, has⟩ := mem_flatMap.1 mem
    exact ⟨entry.1, mem_map_of_mem (mem_filter.1 left).1, tx, mem_cons_of_mem _ has, rfl⟩
  rcases linear.exists_offered infos parses old occurs off with
    ⟨entry, left, base⟩ | ⟨blob, offered, cached, parsed, cached_hash⟩
  · exact absurd base (restorable.coinbases entry left tx mem)
  · have cached_mem := linear.mem_abandonedTransactions old offered parsed
    obtain rfl : cached = tx := restorable.compatible.eq_of_hash cached
      (mem_append_right _ cached_mem) tx (mem_append_right _ mem) cached_hash
    refine drawn.exists_pending_foldl restorable.compatible ?_ offered parsed valid ?_
    · intro raw raw_mem other other_parsed
      exact mem_append_right _ (linear.mem_abandonedTransactions old raw_mem other_parsed)
    · have recent := restorable.remembered cached mem
      unfold isTransactionRecentlyDeleted at recent ⊢
      rw [remembered]
      exact recent

/-- A switch that meets the condition loses nothing. -/
theorem losesNothing_step (poolOk : core.transactionPool.Ok) (keeps : core.KeepsTransactions raw) :
    core.LosesNothing env order now raw := by
  intro outcome tx source valid unspent off
  rcases addBlock_cases env order now core raw with
    ⟨reason, failed, -⟩ |
    ⟨seg, previous, pushed, result, passed, added, committed⟩
  · rw [failed] at outcome
    cases outcome
  obtain rfl : result = .addedToAlternativeAndSwitched := by
    rw [added] at outcome
    simpa using outcome
  have shape := linear.shape
  obtain ⟨nd, parents, parent, placed, same⟩ := shape.placed passed
  obtain ⟨images, -⟩ := images_of_checkBlock passed
  generalize (core.addBlock env order now raw).1 = core' at *
  have old := lt_size_of_node? placed.node
  cases committed with
  | switch top childless other heavier =>
    have restorable := keeps seg (checkBlock_ok passed).2.1 (placed.endsWith passed top)
      ((outgrows_iff shape passed placed top childless other).2 heavier)
    have grown : ((core.pushBlock seg pushed).switchTo env order now seg pushed).mainChain =
        core.chain seg ++ [(raw, parent.2.next pushed)] :=
      (Committed.switch top childless other heavier).mainChain_eq shape placed same
        fun below => absurd top below
    rw [grown] at source unspent off
    rw [switchTo_eq, mainLeaf_pushBlock] at valid ⊢
    have pool : ((core.pushBlock seg pushed).switched seg).transactionPool = core.transactionPool :=
      transactionPool_pushBlock ..
    obtain ⟨midOk, stays⟩ := checkAndRemoveInvalidPoolTransactions_spec
      ((core.pushBlock seg pushed).switched seg) pool poolOk pushed.spentKeyImages
    have remembered := recentlyDeletedTransactions_checkAndRemoveInvalidPoolTransactions
      ((core.pushBlock seg pushed).switched seg) pushed.spentKeyImages
    have onlyPool := onlyPool_checkAndRemoveInvalidPoolTransactions
      ((core.pushBlock seg pushed).switched seg) pushed.spentKeyImages
    rw [pool] at remembered
    generalize ((core.pushBlock seg pushed).switched seg
      ).checkAndRemoveInvalidPoolTransactions pushed.spentKeyImages = mid at *
    have drawn : Drawn (core.transactionPool.transactions.map (·.cachedTransaction) ++
        core.abandonedTransactions seg) mid := by
      refine ⟨midOk, fun pending mem => mem_append_left _ (mem_map_of_mem ?_)⟩
      exact ((stays pending).1 mem).1
    have valid_mid : mid.ValidOnMain env now tx :=
      (onlyPool_copyTransactionsToPool ..).validOnMain.1 valid
    rw [map_append, map_singleton] at off
    have off_branch : ¬ HashOccurs ((core.chain seg).map Prod.fst) tx.transactionHash :=
      fun ⟨block, mem, has⟩ => off ⟨block, mem_append_left _ mem, has⟩
    have off_block : ¬ HashOccurs [raw] tx.transactionHash :=
      fun ⟨block, mem, has⟩ => off ⟨block, mem_append_right _ mem, has⟩
    rw [copyTransactionsToPool_switched shape placed childless onlyPool]
    rcases source with ⟨entry, on_main, off_main, has⟩ | ⟨pending, held, rfl⟩
    · refine exists_pending_of_abandoned linear infos parses old restorable drawn remembered
        (mem_flatMap.2 ⟨entry, mem_filter.2 ⟨on_main, ?_⟩, has⟩) valid_mid off_branch
      rw [decide_eq_true_eq]
      exact fun kept => off_main (mem_append_left _ kept)
    · by_cases known : ((core.pushBlock seg pushed).switched seg).isTransactionInChain
          pending.cachedTransaction.transactionHash = true
      · rcases isTransactionInChain_of_switched shape placed same top childless known with
          before | here
        · rcases restorable.branches pending held before with kept | ⟨tx, left, tx_hash⟩
          · exact absurd kept off_branch
          · obtain rfl : tx = pending.cachedTransaction := restorable.compatible.eq_of_hash tx
              (mem_append_right _ left) _
              (mem_append_left _ (mem_map_of_mem held)) tx_hash
            exact exists_pending_of_abandoned linear infos parses old restorable drawn remembered
              left valid_mid off_branch
        · exact absurd here off_block
      · rw [Bool.not_eq_true] at known
        refine ⟨pending, mem_foldl_addRawTransactionToPool _ ((stays pending).2 ⟨held, ?_⟩), rfl⟩
        apply isValidAfterBlock_of_validOnMain (onlyPool.validOnMain.1 valid_mid) known
        intro k spends mem
        apply unspent k spends
        rw [keysOf_append, keysOf_singleton]
        rw [images] at mem
        exact mem_append_right _ mem

end

/-- In every state that a run reaches without forking inside a database with children,
a block that meets the condition loses no transaction when it switches the main chain. -/
theorem losesNothing_of_restorable (env : Env) (order : HashOrder) (genesis : CachedBlock)
    (calls : List Call) (now : Nat) (raw : RawBlock)
    (keeps : Along (step env order) (KeepsRoot env) (load genesis) calls)
    (restorable : (afterCalls env order genesis calls).KeepsTransactions raw) :
    (afterCalls env order genesis calls).LosesNothing env order now raw :=
  losesNothing_step (linear_afterCalls keeps) (infosOk_afterCalls keeps)
    (parses_afterCalls env order genesis calls) (poolOk_afterCalls env order genesis calls)
    restorable

end Core

namespace Core

open Sample

/-- Block 11 of the main chain, its sibling 111 and a third branch with block 211; one
of them may spend the genesis output. The same spending transaction is then handed to
the pool. -/
def pooledOnBranch (main third : List RawTransaction) (fee : Nat) : List Call :=
  calls (trunk 10 ++ [next 11 10 11 main fee,
      next 111 10 11 [] 0, next 211 10 11 third (10 - fee)]) ++
    [.addTransactionToPool 100000 spend]

/-- A block that spends the genesis output is abandoned, and the transaction comes back. -/
theorem losesNothing_of_restorable_abandoned : ((afterCalls env .insertion genesis
        (pooledOnBranch [spend] [] 10)).addBlock env .insertion 100000
          (next 112 111 12 [] 0)).2 = .added .addedToAlternativeAndSwitched ∧
      (afterCalls env .insertion genesis
        (pooledOnBranch [spend] [] 10)).LosesNothing env .insertion 100000
          (next 112 111 12 [] 0) :=
  ⟨by decide +kernel, losesNothing_of_restorable env .insertion genesis _ 100000 _
    (by decide +kernel) (by decide +kernel)⟩

/-- A transaction that is in the pool and on a third branch is lost by a switch. -/
theorem not_losesNothing_thirdBranch : ¬ (afterCalls env .insertion genesis
        (pooledOnBranch [] [spend] 0)).LosesNothing env .insertion 100000
          (next 112 111 12 [] 0) := by
  intro keeps
  obtain ⟨pending, mem, -⟩ := keeps (by decide +kernel)
    ⟨⟨0, [.key ⟨2980232, [0], 77⟩], [⟨2980222, 3⟩], 0, [1]⟩, 5000, 200⟩
    (.inr ⟨⟨100000, ⟨⟨0, [.key ⟨2980232, [0], 77⟩], [⟨2980222, 3⟩], 0, [1]⟩, 5000, 200⟩⟩,
      by decide +kernel, rfl⟩)
    ⟨(⟨[77]⟩, 10), by decide +kernel⟩ (by decide +kernel) (by decide +kernel)
  have empty : ((afterCalls env .insertion genesis
      (pooledOnBranch [] [spend] 0)).addBlock env .insertion 100000
        (next 112 111 12 [] 0)).1.transactionPool.transactions = [] := by decide +kernel
  rw [empty] at mem
  cases mem

end Core

end DeroGold
