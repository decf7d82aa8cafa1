import DeroGold.Paths

/-!
What an in-memory segment knows about the transactions of its blocks.

The container of transaction infos refuses a second info with the same hash or the same
position. So every info describes the transaction at its position, and every transaction
of a block has an info with its hash in the segment or further down the chain
(`InfosOk`). This is kept by pushing, splitting and rebuilding.
-/

namespace DeroGold

open SegmentTree KeyIndex List Slice BlockchainCache CachedTransactionInfo DatabaseBlockchainCache
  Cache

/-- Info of a transaction of the block at the given index, by position in the block. -/
def CachedTransactionInfo.of (blockIndex : Nat) (tx : CachedTransaction × Nat) :
    CachedTransactionInfo where
  blockIndex := blockIndex
  transactionIndex := tx.2
  transactionHash := tx.1.transactionHash
  unlockTime := tx.1.transaction.unlockTime
  outputs := tx.1.transaction.outputs.map (·.key)

/-- Both the hash and the position are unique keys of the container. -/
def CachedTransactionInfo.conflicts (info other : CachedTransactionInfo) : Bool :=
  other.transactionHash == info.transactionHash ||
    (other.blockIndex == info.blockIndex && other.transactionIndex == info.transactionIndex)

namespace BlockchainCache

theorem transactions_foldl_pushTransaction (parents : Lineage) (index : Nat)
    (txs : List (CachedTransaction × Nat)) (cache : BlockchainCache) :
    (txs.foldl (fun cache tx => cache.pushTransaction parents tx.1 index tx.2)
        cache).transactions =
      (txs.map (.of index)).foldl (addUnless conflicts)
        cache.transactions := by
  rw [foldl_map]
  exact (foldl_hom transactions fun _ _ => rfl).symm

/-- A push offers the container an info for each transaction of the block. -/
theorem transactions_pushBlock (parents : Lineage) (cache : BlockchainCache)
    (pushed : PushedBlockInfo) : (cache.pushBlock parents pushed).transactions =
      (pushed.rawBlock.allTransactions.zipIdx.map
        (.of pushed.rawBlock.block.getBlockIndex)).foldl
          (addUnless conflicts) cache.transactions :=
  transactions_foldl_pushTransaction parents _ _ _

end BlockchainCache

/-- The hash is the hash of a transaction of one of the blocks. -/
def HashOccurs (blocks : List RawBlock) (hash : Hash) : Prop :=
  ∃ raw ∈ blocks, ∃ tx ∈ raw.allTransactions, tx.transactionHash = hash

/-- Infos of a segment with the given blocks: each describes the transaction at its
position, and no transaction lacks an info unless its hash occurs further down. -/
structure InfosOk (start : Nat) (below blocks : List RawBlock) (infos : List CachedTransactionInfo) :
    Prop where
  located : ∀ info ∈ infos, ∃ (p : Nat) (raw : RawBlock) (tx : CachedTransaction),
    blocks[p]? = some raw ∧ raw.allTransactions[info.transactionIndex]? = some tx ∧
      info = .of (start + p) (tx, info.transactionIndex)
  complete : ∀ (p : Nat) (raw : RawBlock), blocks[p]? = some raw → ∀ tx ∈ raw.allTransactions,
    (∃ info ∈ infos, info.transactionHash = tx.transactionHash ∧ info.blockIndex ≤ start + p) ∨
      HashOccurs below tx.transactionHash

namespace InfosOk

variable {start : Nat} {below blocks : List RawBlock} {infos : List CachedTransactionInfo}

theorem nil (start : Nat) (below : List RawBlock) : InfosOk start below [] [] where
  located := by
    intro info mem
    cases mem
  complete := by
    intro p raw found
    cases found

section

variable (ok : InfosOk start below blocks infos)
include ok

theorem concat (raw : RawBlock) : InfosOk start below (blocks ++ [raw])
      ((raw.allTransactions.zipIdx.map (.of (start + blocks.length))).foldl
        (addUnless conflicts) infos) := by
  have located : ∀ info ∈ (raw.allTransactions.zipIdx.map (.of (start + blocks.length))).foldl
      (addUnless conflicts) infos,
      ∃ (p : Nat) (raw' : RawBlock) (tx : CachedTransaction),
        (blocks ++ [raw])[p]? = some raw' ∧
        raw'.allTransactions[info.transactionIndex]? = some tx ∧
        info = .of (start + p) (tx, info.transactionIndex) := by
    intro info mem
    rcases mem_foldl_addUnless mem with mem | mem
    · obtain ⟨p, raw', tx, found, at_tx, same⟩ := ok.located info mem
      exact ⟨p, raw', tx, getElem?_concat_eq_some.2 (.inl found), at_tx, same⟩
    · obtain ⟨⟨tx, i⟩, zipped, rfl⟩ := mem_map.1 mem
      exact ⟨blocks.length, raw, tx, getElem?_concat_length, mem_zipIdx_iff_getElem?.1 zipped, rfl⟩
  refine ⟨located, ?_⟩
  intro p raw' found tx mem
  rcases getElem?_concat_eq_some.1 found with found | ⟨rfl, rfl⟩
  · rcases ok.complete p raw' found tx mem with ⟨info, held, hash, le⟩ | lower
    · exact .inl ⟨info, (prefix_foldl_addUnless _ _ _).subset held, hash, le⟩
    · exact .inr lower
  · obtain ⟨i, at_i⟩ := getElem?_of_mem mem
    have offered : of (start + blocks.length) (tx, i) ∈
        raw.allTransactions.zipIdx.map (.of (start + blocks.length)) :=
      mem_map.2 ⟨(tx, i), mem_zipIdx_iff_getElem?.2 at_i, rfl⟩
    obtain ⟨info, held, same⟩ := exists_mem_foldl_addUnless conflicts infos offered
    obtain ⟨q, raw', tx', found, at_tx', info_eq⟩ := located info held
    have q_le : q ≤ blocks.length := by
      have inside := (List.getElem?_eq_some_iff.1 found).1
      rw [length_append, length_singleton] at inside
      omega
    refine .inl ⟨info, held, ?_, ?_⟩
    · rcases same with rfl | conflict
      · rfl
      · rcases Bool.or_eq_true_iff.1 conflict with hash | position
        · exact eq_of_beq hash
        · -- an info at the same position describes the same transaction
          obtain ⟨block_eq, index_eq⟩ := Bool.and_eq_true_iff.1 position
          have block_eq : info.blockIndex = start + blocks.length := eq_of_beq block_eq
          have index_eq : info.transactionIndex = i := eq_of_beq index_eq
          have q_eq : q = blocks.length := by
            rw [info_eq] at block_eq
            exact Nat.add_left_cancel block_eq
          rw [q_eq, getElem?_concat_length, Option.some.injEq] at found
          rw [← found, index_eq, at_i, Option.some.injEq] at at_tx'
          rw [info_eq, ← at_tx']
          rfl
    · rw [info_eq]
      exact Nat.add_le_add_left q_le start

/-- The infos a split keeps. -/
theorem lower (n : Nat) : InfosOk start below (blocks.take n)
      (infos.filter fun info => decide (info.blockIndex < start + n)) where
  located := by
    intro info mem
    obtain ⟨held, low⟩ := mem_filter.1 mem
    obtain ⟨p, raw, tx, found, at_tx, same⟩ := ok.located info held
    rw [decide_eq_true_eq, same] at low
    have kept := getElem?_take_eq_some.2 ⟨found, Nat.lt_of_add_lt_add_left low⟩
    exact ⟨p, raw, tx, kept, at_tx, same⟩
  complete := by
    intro p raw found tx mem
    obtain ⟨found, inside⟩ := getElem?_take_eq_some.1 found
    rcases ok.complete p raw found tx mem with ⟨info, held, hash, le⟩ | deeper
    · exact .inl ⟨info, mem_filter.2 ⟨held, decide_eq_true (by omega)⟩, hash, le⟩
    · exact .inr deeper

/-- The infos a split moves; their chain goes on below with the lower half. -/
theorem upper (n : Nat) : InfosOk (start + n) (below ++ blocks.take n) (blocks.drop n)
      (infos.filter fun info => decide (start + n ≤ info.blockIndex)) where
  located := by
    intro info mem
    obtain ⟨held, high⟩ := mem_filter.1 mem
    obtain ⟨p, raw, tx, found, at_tx, same⟩ := ok.located info held
    rw [decide_eq_true_eq, same] at high
    have le : n ≤ p := Nat.le_of_add_le_add_left high
    refine ⟨p - n, raw, tx, ?_, at_tx, ?_⟩
    · rw [getElem?_drop, Nat.add_sub_cancel' le]
      exact found
    · rw [Nat.add_assoc, Nat.add_sub_cancel' le]
      exact same
  complete := by
    intro p raw found tx mem
    rw [getElem?_drop] at found
    rcases ok.complete (n + p) raw found tx mem with ⟨info, held, hash, le⟩ | ⟨raw', deeper, has⟩
    · by_cases high : start + n ≤ info.blockIndex
      · exact .inl ⟨info, mem_filter.2 ⟨held, decide_eq_true high⟩, hash, by omega⟩
      · obtain ⟨q, raw', tx', found', at_tx', same⟩ := ok.located info held
        refine .inr ⟨raw', mem_append_right _ ?_, tx', mem_of_getElem? at_tx', ?_⟩
        · rw [same] at high
          have low : q < n := by
            simp only [of] at high
            omega
          exact mem_of_getElem? (getElem?_take_eq_some.2 ⟨found', low⟩)
        · rw [← hash, same]
          rfl
    · exact .inr ⟨raw', mem_append_left _ deeper, has⟩

end

end InfosOk

/-! ### Segments -/

namespace Cache

/-- The infos of an in-memory segment above the given chain are in order. -/
def InfosOk (below : List Entry) : Cache → Prop
  | .memory cache =>
    DeroGold.InfosOk cache.startIndex (below.map Prod.fst) cache.storage cache.transactions
  | .database _ => True

variable {below : List Entry} {cache : Cache} {cut : Nat}

theorem infosOk_pushBlock (ok : cache.InfosOk below)
    (parents : Lineage) {pushed : PushedBlockInfo} (index : pushed.rawBlock.block.getBlockIndex =
      cache.getStartBlockIndex + cache.rawBlocks.length) :
    (cache.pushBlock parents pushed).InfosOk below := by
  cases cache with
  | database cache => trivial
  | memory cache =>
    have pushedOk := DeroGold.InfosOk.concat ok pushed.rawBlock
    change DeroGold.InfosOk (cache.pushBlock parents pushed).startIndex _
      (cache.pushBlock parents pushed).storage (cache.pushBlock parents pushed).transactions
    rw [startIndex_pushBlock, storage_pushBlock, transactions_pushBlock, index]
    exact pushedOk

/-- The upper half rebuilt from the database's rows has all infos. -/
theorem infosOk_upperSegment {cache : DatabaseBlockchainCache}
    (sound : (database cache).Sound) (pos : 0 < cut) (below : List RawBlock) :
    DeroGold.InfosOk cut below ((cache.blocks.drop cut).map (·.rawBlock))
      (cache.upperSegment cut).transactions := by
  refine upperSegment_induction
    (Q := fun done upper => DeroGold.InfosOk cut below (done.map (·.rawBlock))
      upper.transactions) (DeroGold.InfosOk.nil _ _) ?_
  intro done previous row upper ahead ok
  obtain ⟨-, height⟩ := restored_row sound pos ahead
  have pushedOk := ok.concat row.rawBlock
  rw [length_map] at pushedOk
  rw [BlockchainCache.transactions_pushBlock, map_append]
  have index : (getPushedBlockInfo previous row).rawBlock.block.getBlockIndex =
      cut + done.length := height
  rw [index]
  exact pushedOk

theorem infosOk_split {lower upper : Cache} (sound : cache.Sound)
    (ok : cache.InfosOk below) (above : cache.getStartBlockIndex < cut)
    (inside : cut ≤ cache.getTopBlockIndex) (halves : cache.split cut = some (lower, upper)) :
    lower.InfosOk below ∧ upper.InfosOk (below ++ lower.entries) := by
  obtain ⟨lower_raw, upper_raw⟩ := split_rawBlocks sound above inside halves
  cases cache with
  | memory cache =>
    obtain ⟨n, rfl⟩ : ∃ n, cut = cache.startIndex + n := Nat.exists_eq_add_of_le (le_of_lt above)
    simp only [getStartBlockIndex, rawBlocks, Nat.add_sub_cancel_left] at lower_raw
    cases halves
    have lowerOk := DeroGold.InfosOk.lower ok n
    have upperOk := DeroGold.InfosOk.upper ok n
    constructor
    · simpa [InfosOk, BlockchainCache.split] using lowerOk
    · rw [InfosOk, map_append, lower_raw]
      simpa [BlockchainCache.split] using upperOk
  | database cache =>
    simp only [split, DatabaseBlockchainCache.split, Option.map_eq_some_iff] at halves
    obtain ⟨⟨kept, moved⟩, parts, same⟩ := halves
    cases same
    split at parts
    · cases parts
    cases parts
    simp only [getStartBlockIndex, rawBlocks, Nat.sub_zero, ← map_drop] at upper_raw
    refine ⟨trivial, ?_⟩
    rw [InfosOk, upper_raw, DatabaseBlockchainCache.startIndex_upperSegment]
    exact infosOk_upperSegment sound above _

end Cache

namespace Core

variable {env : Env} {order : HashOrder} {now : Nat} {core core' : Core} {raw : RawBlock}
  {seg previous : Nat} {pushed : PushedBlockInfo} {result : AddBlockResult}
  {genesis : CachedBlock}

theorem infosOk_step (linear : core.Linear)
    (ok : Consistent entries Cache.InfosOk core.chainsStorage)
    (passed : core.checkBlock env now raw = .ok (seg, previous, pushed))
    (keeps : core.KeepsRoot env (.addBlock now raw))
    (committed : Committed env order now core seg previous pushed core' result) :
    Consistent entries Cache.InfosOk core'.chainsStorage := by
  have shape := linear.shape
  obtain ⟨nd, parents, parent, placed, same⟩ := shape.placed passed
  have sound := shape.tree.sound placed.node
  have index := placed.index_pushed same
  refine (consistent_step shape linear.fits ok placed same committed
    (fun below => placed.not_sharedRoot shape passed below keeps) ?_ ?_ ?_).2
  · intro _ lineageOk top _ _
    apply infosOk_pushBlock lineageOk.1 parents
    rw [index, ← top, sound.getTopBlockIndex_rawBlocks]
  · intro lineage _ _ _ _
    have created : (memory (.create (previous + 1))).InfosOk
        (chainTo nd parents previous) := InfosOk.nil _ _
    exact infosOk_pushBlock created lineage index
  · intro lower upper above inside halves _ _
    exact infosOk_split sound (placed.holds shape ok) above inside halves

theorem infosOk_afterCalls {calls : List Call}
    (keeps : TransitionSystem.Along (step env order) (KeepsRoot env) (load genesis) calls) :
    Consistent entries Cache.InfosOk (afterCalls env order genesis calls).chainsStorage :=
  consistent_afterCalls (fun _ _ keeps => keeps) trivial
    (fun linear ok keeps passed committed => infosOk_step linear ok passed keeps committed) keeps

end Core

end DeroGold
