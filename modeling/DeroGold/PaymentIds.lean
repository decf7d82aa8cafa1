import DeroGold.DatabaseRuns

/-!
The index of transactions by payment id.

Under each payment id the database numbers the hashes of the transactions that carry it.
The number of the next one is read from the store, so two transactions of one block with
the same id overwrite each other. Where this does not happen, the index lists exactly the
transactions of the stored chain, in every run (`paymentIds_exact`). An id without
transactions is answered with an exception.
-/

namespace DeroGold

open KeyValue Grouped Slice List TransitionSystem Sample RawBlock Database

/-- Payment id and hash of the transactions that carry an id, in order. -/
def paymentRows (env : DatabaseEnv) (txs : List CachedTransaction) : List (Hash × Hash) :=
  txs.filterMap fun tx => (env.paymentId tx).map fun paymentId => (paymentId, tx.transactionHash)

/-- Hashes of the transactions of a chain that carry a payment id. -/
def carriers (env : DatabaseEnv) (paymentId : Hash) (blocks : List RawBlock) : List Hash :=
  group paymentId (paymentRows env (blocks.flatMap allTransactions))

theorem carriers_append (env : DatabaseEnv) (paymentId : Hash) (xs ys : List RawBlock) :
    carriers env paymentId (xs ++ ys) = carriers env paymentId xs ++ carriers env paymentId ys := by
  rw [carriers, flatMap_append, paymentRows, filterMap_append, group_append]
  rfl

theorem map_fst_paymentRows (env : DatabaseEnv) (txs : List CachedTransaction) :
    (paymentRows env txs).map Prod.fst = txs.filterMap env.paymentId := by
  rw [paymentRows, map_filterMap]
  congr 1
  funext tx
  rw [Option.map_map]
  exact Option.map_id' ..

theorem carriers_eq (env : DatabaseEnv) (paymentId : Hash) (blocks : List RawBlock) :
    carriers env paymentId blocks = ((blocks.flatMap allTransactions).filter
      fun tx => env.paymentId tx = some paymentId).map (·.transactionHash) := by
  rw [carriers, group, paymentRows, filterMap_filterMap, ← filterMap_eq_map, filterMap_filter]
  refine filterMap_congr fun tx _ => ?_
  cases env.paymentId tx with
  | none | some _ => simp

variable {blocks : List RawBlock}

theorem mem_carriers {env : DatabaseEnv} {paymentId hash : Hash} :
    hash ∈ carriers env paymentId blocks ↔ ∃ block ∈ blocks, ∃ tx ∈ block.allTransactions,
      env.paymentId tx = some paymentId ∧ tx.transactionHash = hash := by
  rw [carriers_eq, mem_map]
  constructor
  · rintro ⟨tx, mem, same⟩
    obtain ⟨mem, carried⟩ := mem_filter.1 mem
    obtain ⟨block, stored, mem⟩ := mem_flatMap.1 mem
    exact ⟨block, stored, tx, mem, of_decide_eq_true carried, same⟩
  · rintro ⟨block, stored, tx, mem, carried, same⟩
    exact ⟨tx, mem_filter.2 ⟨mem_flatMap.2 ⟨block, stored, mem⟩, decide_eq_true carried⟩, same⟩

/-! ### What is inserted and removed -/

namespace Database

variable (database : Database) (env : DatabaseEnv)

/-- Number of stored transactions with a payment id. -/
def paymentCount (paymentId : Hash) : Nat := (database.paymentCounts paymentId).getD 0

theorem payments_pushTransaction (state : Collected) (tx : CachedTransaction) (index place : Nat) :
    let after := (database.pushTransaction env state tx index place).2
    after.paymentCounts = state.2.paymentCounts.insertAll ((paymentRows env [tx]).map fun row =>
        (row.1, database.paymentCount row.1 + 1)) ∧
      after.payments = state.2.payments.insertAll ((paymentRows env [tx]).map fun row =>
        ((row.1, database.paymentCount row.1), row.2)) := by
  obtain ⟨kept, -⟩ := database.withoutOutputs_positioned (tx.info index place)
    tx.transaction.outputs state
  have counts := congrArg (·.paymentCounts) kept
  have hashes := congrArg (·.payments) kept
  change (database.insertPaymentId env tx _).paymentCounts = _ ∧
    (database.insertPaymentId env tx _).payments = _
  rw [insertNewAmounts_eq, insertPaymentId]
  cases carried : env.paymentId tx with
  | none =>
    have rows : paymentRows env [tx] = [] := by simp [paymentRows, carried]
    rw [rows, map_nil, map_nil, Changes.insertAll, Changes.insertAll, append_nil, append_nil]
    exact ⟨counts, hashes⟩
  | some paymentId =>
    have rows : paymentRows env [tx] = [(paymentId, tx.transactionHash)] := by
      simp [paymentRows, carried]
    rw [rows]
    exact ⟨congrArg (Changes.insert · paymentId _) counts,
      congrArg (Changes.insert · (paymentId, _) _) hashes⟩

theorem payments_pushTransactions (index : Nat) (txs : List CachedTransaction) (state : Collected) :
    let after := (database.pushTransactions env index txs state).2
    after.paymentCounts = state.2.paymentCounts.insertAll ((paymentRows env txs).map fun row =>
        (row.1, database.paymentCount row.1 + 1)) ∧
      after.payments = state.2.payments.insertAll ((paymentRows env txs).map fun row =>
        ((row.1, database.paymentCount row.1), row.2)) := by
  have rows : paymentRows env txs = txs.zipIdx.flatMap fun tx => paymentRows env [tx.1] := by
    rw [flatMap_zipIdx_fst (paymentRows env [·]), paymentRows, filterMap_eq_flatMap_toList]
    refine flatMap_congr fun tx _ => ?_
    cases carried : env.paymentId tx with
    | none | some _ => simp [paymentRows, carried]
  rw [rows, map_flatMap, map_flatMap]
  have each := fun state (tx : CachedTransaction × Nat) =>
    database.payments_pushTransaction env state tx.1 index tx.2
  exact ⟨Changes.foldl_insertAll (g := (·.2.paymentCounts)) (fun state tx => (each state tx).1) _ state,
    Changes.foldl_insertAll (g := (·.2.payments)) (fun state tx => (each state tx).2) _ state⟩

/-- Deleting transactions lowers the counts of their ids and removes one entry for each id. -/
theorem requestDeletePaymentIds_eq (hashes : List Hash) (batch : BlockchainWriteBatch) :
    let paymentIds := hashes.filterMap (database.requestPaymentId env)
    let left := fun paymentId =>
      paymentsLeft (database.paymentCount paymentId) (paymentIds.count paymentId)
    database.requestDeletePaymentIds env hashes batch = { batch with
      paymentCounts := batch.paymentCounts.insertAll
        (paymentIds.dedup.map fun paymentId => (paymentId, left paymentId))
      payments := batch.payments.removeAll
        (paymentIds.dedup.map fun paymentId => (paymentId, left paymentId)) } := by
  intro paymentIds left
  change paymentIds.dedup.foldl (fun batch paymentId =>
    BlockchainWriteBatch.removePaymentId batch paymentId (left paymentId)) batch = _
  generalize paymentIds.dedup = ids
  induction ids generalizing batch with
  | nil => simp [Changes.insertAll, Changes.removeAll]
  | cons paymentId ids ih =>
    rw [foldl_cons, ih]
    simp [BlockchainWriteBatch.removePaymentId, Changes.insertAll, Changes.removeAll,
      Changes.insert, Changes.remove]

theorem requestDeleteTransactions_tables (hashes : List Hash) (state : Collected) :
    let after := (database.requestDeleteTransactions hashes state).2
    after.transactions = state.2.transactions.removeAll hashes ∧
      after.paymentCounts = state.2.paymentCounts ∧ after.payments = state.2.payments := by
  unfold requestDeleteTransactions
  refine ⟨?_, Prod.ext_iff.1 (foldl_keeps (g := fun state : Collected =>
    (state.2.paymentCounts, state.2.payments)) (fun _ _ => by rfl) _ _)⟩
  refine (Changes.foldl_removeAll (g := fun state : Collected =>
    state.2.transactions) (k := fun hash => hash) (fun _ _ => by rfl) _ _).trans ?_
  rw [map_id']

theorem requestDeleteKeyOutputs_tables (deleted : List StoredTransaction) (state : Collected) :
    let after := (database.requestDeleteKeyOutputs deleted state).2
    after.transactions = state.2.transactions ∧
      after.paymentCounts = state.2.paymentCounts ∧ after.payments = state.2.payments := by
  intro after
  rw [← Prod.mk.injEq, ← Prod.mk.injEq]
  refine foldl_keeps (g := fun state : Collected =>
    (state.2.transactions, state.2.paymentCounts, state.2.payments)) (fun state amount => ?_) _ _
  split
  · rw [requestDeleteKeyOutputsAmount, foldl_removeKeyOutputInfo]
    rfl
  · rfl

end Database

/-! ### The index describes the chain -/

/-- Every transaction of the rows is stored with its position, and the rows list the hashes
of their transactions. -/
structure Database.Located (database : Database) (rows : List BlockRow) : Prop where
  claims : ∀ row ∈ rows, row.transactionHashes = row.rawBlock.allHashes
  found : ∀ {i j : Nat} {row : BlockRow} {tx : CachedTransaction}, rows[i]? = some row →
    row.rawBlock.allTransactions[j]? = some tx → ∃ info,
      database.transactions tx.transactionHash = some info ∧ info.blockIndex = i ∧
        info.transactionIndex = j

theorem Database.map_fst_storedFrom (index : Nat) (count : Amount → Nat)
    (txs : List (CachedTransaction × Nat)) :
    (storedFrom index count txs).map Prod.fst = txs.map (·.1.transactionHash) := by
  induction txs generalizing count with
  | nil => rfl
  | cons tx txs ih => rw [storedFrom, map_cons, ih, map_cons]

variable {tx : CachedTransaction} {database database' : Database} {rows : List BlockRow}
  {row : BlockRow} {env : DatabaseEnv}

theorem Database.exists_mem_storedFrom {index : Nat} {count : Amount → Nat}
    {txs : List (CachedTransaction × Nat)} {i : Nat} (mem : (tx, i) ∈ txs) :
    ∃ indexes, (tx.transactionHash, StoredTransaction.mk (tx.info index i) indexes) ∈
      storedFrom index count txs := by
  induction txs generalizing count with
  | nil => cases mem
  | cons first txs ih =>
    rcases mem_cons.1 mem with rfl | mem
    · exact ⟨_, mem_cons_self⟩
    · obtain ⟨indexes, held⟩ := ih mem
      exact ⟨indexes, mem_cons_of_mem _ held⟩

section

variable (located : database.Located rows)
include located

/-- The transactions of a further block, if they are new. -/
theorem Database.Located.append (count : Amount → Nat)
    (claims : row.transactionHashes = row.rawBlock.allHashes)
    (distinct : row.rawBlock.allHashes.Nodup)
    (fresh : ∀ hash ∈ row.rawBlock.allHashes, database.transactions hash = none)
    (stored : database'.transactions = KeyValue.write database.transactions (Changes.none.insertAll
      (storedFrom rows.length count row.rawBlock.allTransactions.zipIdx))) :
    database'.Located (rows ++ [row]) := by
  have keys : (storedFrom rows.length count row.rawBlock.allTransactions.zipIdx).map Prod.fst =
      row.rawBlock.allHashes := by
    rw [map_fst_storedFrom]
    exact map_zipIdx_fst _ _ 0
  constructor
  · exact forall_mem_append.2 ⟨located.claims, forall_mem_singleton.2 claims⟩
  · intro i j other tx at_i at_j
    rw [stored, write_insertAll_apply rfl, write_none]
    rcases getElem?_concat_eq_some.1 at_i with at_i | ⟨rfl, rfl⟩
    · obtain ⟨info, found, position⟩ := located.found at_i at_j
      refine ⟨info, ?_, position⟩
      rw [latest_eq_none, Option.none_or, found]
      intro entry mem same
      have new : entry.1 ∈ row.rawBlock.allHashes := by
        rw [← keys]
        exact mem_map_of_mem mem
      rw [same] at new
      cases (fresh _ new).symm.trans found
    · obtain ⟨indexes, held⟩ := exists_mem_storedFrom (mem_zipIdx_iff_getElem?.2 at_j)
      have new : latest tx.transactionHash
          (storedFrom rows.length count row.rawBlock.allTransactions.zipIdx) =
            some ⟨tx.info rows.length j, indexes⟩ := by
        refine latest_eq_some held fun info held' => ?_
        rw [← keys] at distinct
        exact (Prod.mk.inj (inj_on_of_nodup_map distinct held' held rfl)).2
      rw [new]
      exact ⟨_, rfl, rfl, rfl⟩

/-- A hash is stored with one position. -/
theorem Database.Located.same_position {i j i' j' : Nat} {row' : BlockRow} {tx' : CachedTransaction}
    (at_i : rows[i]? = some row) (at_j : row.rawBlock.allTransactions[j]? = some tx)
    (at_i' : rows[i']? = some row') (at_j' : row'.rawBlock.allTransactions[j']? = some tx')
    (same : tx.transactionHash = tx'.transactionHash) : i = i' ∧ j = j' := by
  obtain ⟨info, found, block, position⟩ := located.found at_i at_j
  obtain ⟨info', found', block', position'⟩ := located.found at_i' at_j'
  rw [← same, found] at found'
  cases found'
  exact ⟨block.symm.trans block', position.symm.trans position'⟩

/-- The hashes of the blocks that stay are not among those that go. -/
theorem Database.Located.cut {cut : Nat} (stored : database'.transactions =
      KeyValue.write database.transactions
        (Changes.none.removeAll ((rows.drop cut).flatMap (·.transactionHashes)))) :
    database'.Located (rows.take cut) := by
  refine ⟨fun row mem => located.claims row (mem_of_mem_take mem), ?_⟩
  intro i j row tx at_i at_j
  obtain ⟨at_i, below⟩ := getElem?_take_eq_some.1 at_i
  obtain ⟨info, found, position⟩ := located.found at_i at_j
  refine ⟨info, ?_, position⟩
  rw [stored, write_removeAll_apply, if_neg, write_none, found]
  intro gone
  obtain ⟨row', mem', listed⟩ := mem_flatMap.1 gone
  obtain ⟨k, at_k⟩ := mem_iff_getElem?.1 mem'
  rw [getElem?_drop] at at_k
  rw [located.claims row' (mem_of_getElem? at_k), allHashes] at listed
  obtain ⟨tx', tx_mem, same⟩ := mem_map.1 listed
  obtain ⟨j', at_j'⟩ := mem_iff_getElem?.1 tx_mem
  have position := (located.same_position at_i at_j at_k at_j' same.symm).1
  omega

theorem Database.Located.requestPaymentId_eq
    (raws : ∀ i, database.rawBlocks i = rows[i]?.map (·.rawBlock)) (mem : row ∈ rows)
    (tx_mem : tx ∈ row.rawBlock.allTransactions) :
    database.requestPaymentId env tx.transactionHash = env.paymentId tx := by
  obtain ⟨i, at_i⟩ := mem_iff_getElem?.1 mem
  obtain ⟨j, at_j⟩ := mem_iff_getElem?.1 tx_mem
  obtain ⟨info, found, block, position⟩ := located.found at_i at_j
  unfold requestPaymentId
  simp only [found, Option.bind_eq_bind, Option.bind_some, block, position, raws, at_i,
    Option.map_some, at_j]

/-- The ids that a split finds are those of the transactions that go. -/
theorem Database.Located.paymentIds_eq (env : DatabaseEnv)
    (raws : ∀ i, database.rawBlocks i = rows[i]?.map (·.rawBlock)) (cut : Nat) :
    ((rows.drop cut).flatMap (·.transactionHashes)).filterMap
        (database.requestPaymentId env) =
      (((rows.drop cut).map (·.rawBlock)).flatMap allTransactions).filterMap
        env.paymentId := by
  rw [filterMap_flatMap, flatMap_map, filterMap_flatMap]
  refine flatMap_congr fun row mem => ?_
  rw [located.claims row (mem_of_mem_drop mem), allHashes, filterMap_map]
  exact filterMap_congr fun tx listed =>
    located.requestPaymentId_eq raws (mem_of_mem_drop mem) listed

/-- No hash occurs twice. -/
theorem Database.Located.nodup :
    (((rows.map (·.rawBlock)).flatMap allTransactions).map (·.transactionHash)).Nodup := by
  rw [map_flatMap, nodup_flatMap]
  refine ⟨fun raw mem => ?_, ?_⟩
  · obtain ⟨row, held, rfl⟩ := mem_map.1 mem
    obtain ⟨i, at_i⟩ := mem_iff_getElem?.1 held
    rw [List.Nodup, pairwise_map, pairwise_iff_getElem]
    intro j k inside inside' before same
    have position := (located.same_position at_i (getElem?_eq_getElem inside) at_i
      (getElem?_eq_getElem inside') same).2
    omega
  · rw [pairwise_map, pairwise_iff_getElem]
    intro i k inside inside' before hash mem mem'
    obtain ⟨tx, listed, same⟩ := mem_map.1 mem
    obtain ⟨tx', listed', same'⟩ := mem_map.1 mem'
    obtain ⟨j, at_j⟩ := mem_iff_getElem?.1 listed
    obtain ⟨j', at_j'⟩ := mem_iff_getElem?.1 listed'
    have position := (located.same_position (getElem?_eq_getElem inside) at_j
      (getElem?_eq_getElem inside') at_j' (same.trans same'.symm)).1
    omega

end

/-- The entries under each payment id are the hashes of the transactions that carry it. -/
structure Database.Indexed (database : Database) (env : DatabaseEnv) (blocks : List RawBlock) :
    Prop where
  counts : ∀ paymentId, database.paymentCount paymentId = (carriers env paymentId blocks).length
  hashes : ∀ paymentId i, i < (carriers env paymentId blocks).length →
    database.payments (paymentId, i) = (carriers env paymentId blocks)[i]?

/-- The new hashes are given the next numbers, if no id occurs twice among them. -/
theorem Database.Indexed.append {raw : RawBlock} (indexed : database.Indexed env blocks)
    (single : (raw.allTransactions.filterMap env.paymentId).Nodup)
    (counts : database'.paymentCounts = KeyValue.write database.paymentCounts
      (Changes.none.insertAll ((paymentRows env raw.allTransactions).map fun row =>
        (row.1, database.paymentCount row.1 + 1))))
    (hashes : database'.payments = KeyValue.write database.payments
      (Changes.none.insertAll ((paymentRows env raw.allTransactions).map fun row =>
        ((row.1, database.paymentCount row.1), row.2)))) :
    database'.Indexed env (blocks ++ [raw]) := by
  have carried : ∀ paymentId, carriers env paymentId (blocks ++ [raw]) =
      carriers env paymentId blocks ++ group paymentId (paymentRows env raw.allTransactions) := by
    intro paymentId
    rw [carriers_append, carriers, carriers, flatMap_singleton]
  rw [← map_fst_paymentRows] at single
  generalize paymentRows env raw.allTransactions = rows at *
  refine ⟨fun paymentId => ?_, fun paymentId i inside => ?_⟩
  · rw [carried, length_append, ← indexed.counts, paymentCount, counts,
      write_insertAll_apply rfl, latest_map Prod.fst (database.paymentCount · + 1)]
    by_cases present : paymentId ∈ rows.map Prod.fst
    · obtain ⟨row, mem, rfl⟩ := mem_map.1 present
      rw [group_of_nodup single mem, if_pos present]
      rfl
    · rw [group_eq_nil present, if_neg present]
      rfl
  · rw [carried] at inside ⊢
    rw [hashes, write_insertAll_apply rfl, write_none]
    by_cases old : i < (carriers env paymentId blocks).length
    · rw [getElem?_append_left old, ← indexed.hashes paymentId i old, latest_eq_none, Option.none_or]
      rintro entry held same
      obtain ⟨row, -, rfl⟩ := mem_map.1 held
      cases same
      rw [indexed.counts] at old
      exact lt_irrefl _ old
    · have present : paymentId ∈ rows.map Prod.fst := by
        by_contra absent
        rw [group_eq_nil absent, append_nil] at inside
        exact old inside
      obtain ⟨row, mem, rfl⟩ := mem_map.1 present
      rw [group_of_nodup single mem, length_append, length_singleton] at inside
      have next : i = database.paymentCount row.1 := by
        rw [indexed.counts]
        omega
      have added : latest (row.1, i) (rows.map fun row =>
          ((row.1, database.paymentCount row.1), row.2)) = some row.2 := by
        refine latest_eq_some (mem_map.2 ⟨row, mem, by rw [next]⟩) fun other held => ?_
        obtain ⟨row', mem', same⟩ := mem_map.1 held
        obtain ⟨keys, rfl⟩ := Prod.mk.inj same
        have in_group : row'.2 ∈ group row.1 rows := by
          rw [← (Prod.mk.inj keys).1]
          exact mem_group.2 mem'
        rw [group_of_nodup single mem, mem_singleton] at in_group
        exact in_group
      rw [added, Option.some_or, group_of_nodup single mem, next, indexed.counts,
        getElem?_concat_length]

/-- Each id loses as many hashes as blocks that carry it are deleted. -/
theorem Database.Indexed.cut {low high : List RawBlock} {paymentIds : List Hash}
    (indexed : database.Indexed env (low ++ high))
    (deleted : paymentIds = (high.flatMap allTransactions).filterMap env.paymentId)
    (counts : database'.paymentCounts = KeyValue.write database.paymentCounts
      (Changes.none.insertAll (paymentIds.dedup.map fun paymentId => (paymentId,
        paymentsLeft (database.paymentCount paymentId) (paymentIds.count paymentId)))))
    (hashes : database'.payments = KeyValue.write database.payments
      (Changes.none.removeAll (paymentIds.dedup.map fun paymentId => (paymentId,
        paymentsLeft (database.paymentCount paymentId) (paymentIds.count paymentId))))) :
    database'.Indexed env low := by
  have left : ∀ paymentId, paymentsLeft (database.paymentCount paymentId)
      (paymentIds.count paymentId) = (carriers env paymentId low).length := by
    intro paymentId
    have lost : (carriers env paymentId high).length = paymentIds.count paymentId := by
      rw [carriers, length_group, map_fst_paymentRows, deleted]
    rw [indexed.counts, carriers_append, length_append, lost, paymentsLeft,
      if_pos (Nat.le_add_left _ _), Nat.add_sub_cancel]
  simp only [left] at counts hashes
  refine ⟨fun paymentId => ?_, fun paymentId i inside => ?_⟩
  · rw [paymentCount, counts, write_insertAll_apply rfl, latest_map (fun paymentId => paymentId)
      fun paymentId => (carriers env paymentId low).length, map_id']
    by_cases present : paymentId ∈ paymentIds
    · rw [if_pos (mem_dedup.2 present)]
      rfl
    · rw [if_neg (mt mem_dedup.1 present), ← left paymentId, count_eq_zero.2 present]
      rfl
  · rw [hashes, write_removeAll_apply, if_neg]
    · rw [write_none, indexed.hashes paymentId i (by
        rw [carriers_append, length_append]
        omega), carriers_append, getElem?_append_left inside]
    · intro removed
      obtain ⟨_, -, same⟩ := mem_map.1 removed
      cases same
      exact lt_irrefl _ inside

/-- The index answers with the hashes of the transactions that carry the id, or throws. -/
theorem Database.Indexed.query (indexed : database.Indexed env blocks)
    (paymentId : Hash) : database.getTransactionHashesByPaymentId paymentId =
      if carriers env paymentId blocks = [] then none else some (carriers env paymentId blocks) := by
  have count := indexed.counts paymentId
  have hashes := indexed.hashes paymentId
  unfold getTransactionHashesByPaymentId
  unfold paymentCount at count
  generalize carriers env paymentId blocks = held at count hashes ⊢
  cases stored : database.paymentCounts paymentId with
  | none =>
    rw [stored, Option.getD_none] at count
    rw [if_pos (length_eq_zero_iff.1 count.symm)]
  | some number =>
    rw [stored, Option.getD_some] at count
    cases number with
    | zero => rw [if_pos (length_eq_zero_iff.1 count.symm)]
    | succ number =>
      have nonempty : held ≠ [] := ne_nil_of_length_eq_add_one count.symm
      rw [if_neg nonempty]
      dsimp only
      have all := filterMap_getElem?_range' held 0 held.length
      rw [drop_zero, take_length, ← range_eq_range'] at all
      rw [count]
      exact congrArg some ((filterMap_congr fun i mem =>
        hashes i (mem_range.1 mem)).trans all)

/-! ### Runs -/

namespace DatabaseSegment

variable {seg : DatabaseSegment} {rows : List BlockRow} {env : DatabaseEnv}
  {genesis : CachedBlock} {pushed : PushedBlockInfo}

/-- A block whose transactions are those it claims and new to the database, and of which no
two carry the same payment id. -/
structure Separate (env : DatabaseEnv) (segment : DatabaseSegment) (raw : RawBlock) : Prop where
  claims : raw.block.transactionHashes = raw.cachedTransactions.map (·.transactionHash)
  distinct : raw.allHashes.Nodup
  fresh : ∀ hash ∈ raw.allHashes, segment.database.transactions hash = none
  single : (raw.allTransactions.filterMap env.paymentId).Nodup

instance (env : DatabaseEnv) (segment : DatabaseSegment) (raw : RawBlock) :
    Decidable (segment.Separate env raw) :=
  decidable_of_iff (_ ∧ _ ∧ _ ∧ _)
    ⟨fun h => ⟨h.1, h.2.1, h.2.2.1, h.2.2.2⟩, fun h => ⟨h.claims, h.distinct, h.fresh, h.single⟩⟩

/-- Calls that complete and push only such blocks. -/
def SeparateCall (env : DatabaseEnv) (segment : DatabaseSegment) : DatabaseCall → Prop
  | .pushBlock pushed =>
    segment.Completes env (.pushBlock pushed) ∧ segment.Separate env pushed.rawBlock
  | .split splitBlockIndex => segment.Completes env (.split splitBlockIndex)

instance (env : DatabaseEnv) (segment : DatabaseSegment) : DecidablePred (segment.SeparateCall env)
  | .pushBlock _ => inferInstanceAs (Decidable (_ ∧ _))
  | .split splitBlockIndex => inferInstanceAs (Decidable (segment.Completes env (.split splitBlockIndex)))

/-- The chain that the segment holds, with its transactions and payment ids. -/
structure HoldsPayments (env : DatabaseEnv) (segment : DatabaseSegment) (rows : List BlockRow) :
    Prop where
  holds : segment.Holds rows
  located : segment.database.Located rows
  indexed : segment.database.Indexed env (rows.map (·.rawBlock))

theorem HoldsPayments.pushBlock (held : seg.HoldsPayments env rows) (last : BlockRow)
    (separate : seg.Separate env pushed.rawBlock) :
    (seg.pushedSegment env (last.info.next pushed) pushed).HoldsPayments env
      (rows ++ [last.next pushed]) := by
  let start := (seg.toCounters, blockBatch (seg.getTopBlockIndex + 1) (last.info.next pushed) pushed)
  obtain ⟨counts, hashes⟩ := seg.database.payments_pushTransactions env
    (seg.getTopBlockIndex + 1) pushed.rawBlock.allTransactions start
  obtain ⟨-, -, stored⟩ := seg.database.pushTransactions_spec env
    (seg.getTopBlockIndex + 1) pushed.rawBlock.allTransactions start
  refine ⟨held.holds.pushBlock last, ?_, ?_⟩
  all_goals rw [pushedSegment, insertDay_eq]
  · refine held.located.append (seg.toCounters.keyOutputCount seg.database)
      (congrArg (_ :: ·) separate.claims) separate.distinct separate.fresh ?_
    rw [← held.holds.length_eq]
    exact congrArg (KeyValue.write _) stored
  · rw [map_append]
    exact held.indexed.append separate.single (congrArg (KeyValue.write _) counts)
      (congrArg (KeyValue.write _) hashes)

theorem Holds.requestTransactionHashes_eq (holds : seg.Holds rows) (cut : Nat) :
    seg.requestTransactionHashesFromBlockIndex cut =
      (rows.drop cut).flatMap (·.transactionHashes) := by
  have pos := length_pos_of_ne_nil holds.nonempty
  have read := filterMap_getElem?_range' rows cut (rows.length - cut)
  rw [← length_drop, take_length, length_drop] at read
  rw [requestTransactionHashesFromBlockIndex, indexesFrom, holds.getTopBlockIndex_eq,
    Nat.sub_add_cancel pos, ← read, filterMap_eq_flatMap_toList, flatMap_assoc]
  refine flatMap_congr fun i _ => ?_
  rw [holds.stores.hashes]
  cases rows[i]? with
  | none | some row => simp

/-- What the batch of a split does to the transactions and their payment ids. -/
theorem cutDown_tables (seg : DatabaseSegment) (env : DatabaseEnv)
    (deleting : List PushedBlockInfo) (cut : Nat) (deleted : List StoredTransaction) :
    let batch := (seg.cutDown env .empty deleting cut deleted).2
    let hashes := seg.requestTransactionHashesFromBlockIndex cut
    let paymentIds := hashes.filterMap (seg.database.requestPaymentId env)
    let left := paymentIds.dedup.map fun paymentId =>
      (paymentId, paymentsLeft (seg.database.paymentCount paymentId) (paymentIds.count paymentId))
    batch.transactions = Changes.none.removeAll hashes ∧
      batch.paymentCounts = Changes.none.insertAll left ∧
      batch.payments = Changes.none.removeAll left := by
  intro batch hashes paymentIds left
  let start := deleteBlocks deleting cut .empty
  have untouched : start.transactions = Changes.none ∧ start.paymentCounts = Changes.none ∧
      start.payments = Changes.none := by
    rw [show start = _ from deleteBlocks_eq deleting cut .empty]
    exact ⟨rfl, rfl, rfl⟩
  let counted := seg.database.requestDeleteTransactions hashes (seg.toCounters, start)
  obtain ⟨removed, counts, payments⟩ := seg.database.requestDeleteTransactions_tables hashes
    (seg.toCounters, start)
  have ids := seg.database.requestDeletePaymentIds_eq env hashes counted.2
  obtain ⟨same_transactions, same_counts, same_payments⟩ :=
    seg.database.requestDeleteKeyOutputs_tables deleted
      (counted.1, seg.database.requestDeletePaymentIds env hashes counted.2)
  refine ⟨same_transactions.trans ?_, same_counts.trans ?_, same_payments.trans ?_⟩
  · rw [ids, ← untouched.1]
    exact removed
  · rw [ids, ← untouched.2.1]
    exact congrArg (Changes.insertAll · left) counts
  · rw [ids, ← untouched.2.2]
    exact congrArg (Changes.removeAll · left) payments

theorem HoldsPayments.cut (held : seg.HoldsPayments env rows) {cut : Nat}
    {deleting : List PushedBlockInfo} {deleted : List StoredTransaction} {info : CachedBlockInfo}
    (cuts : seg.Cuts cut deleting deleted info) :
    (seg.cutSegment env .empty deleting cut deleted info.timestamp).HoldsPayments env
      (rows.take cut) := by
  have hashes := held.holds.requestTransactionHashes_eq cut
  have paymentIds := held.located.paymentIds_eq env held.holds.stores.raws cut
  obtain ⟨removed, counts, payments⟩ := seg.cutDown_tables env deleting cut deleted
  rw [hashes] at removed counts payments
  have indexed := held.indexed
  rw [← take_append_drop cut rows, map_append] at indexed
  refine ⟨held.holds.cut cuts, ?_, ?_⟩
  all_goals rw [cutSegment, deleteClosestTimestampBlockIndex_eq]
  · exact held.located.cut (congrArg (KeyValue.write _) removed)
  · exact indexed.cut paymentIds (congrArg (KeyValue.write _) counts)
      (congrArg (KeyValue.write _) payments)

theorem holdsPayments_create (time : genesis.timestamp ≤ maxTime) :
    (create env genesis .empty).segment.HoldsPayments env [genesisRow genesis] := by
  refine ⟨holds_create time, ?_, ?_⟩
  all_goals
    rw [create_empty]
    unfold addGenesisBlock
    dsimp only
    rw [if_neg (not_lt.2 time)]
  · have empty : opened.database.Located [] := by
      refine ⟨fun _ mem => ?_, fun at_i => ?_⟩
      · cases mem
      · cases at_i
    exact empty.append (opened.toCounters.keyOutputCount opened.database) rfl
      (nodup_singleton _) (fun _ _ => rfl) (congrArg (KeyValue.write _)
        (opened.database.transactions_pushTransaction env (opened.toCounters, .empty)
          genesis.baseTransaction 0 0))
  · have empty : opened.database.Indexed env [] := ⟨fun _ => rfl, fun _ _ inside => by cases inside⟩
    obtain ⟨counts, hashes⟩ := opened.database.payments_pushTransaction env
      (opened.toCounters, .empty) genesis.baseTransaction 0 0
    have single : ((genesisRow genesis).rawBlock.allTransactions.filterMap env.paymentId).Nodup := by
      change (List.filterMap env.paymentId [genesis.baseTransaction]).Nodup
      cases carried : env.paymentId genesis.baseTransaction with
      | none | some _ => simp [carried]
    exact empty.append single (congrArg (KeyValue.write _) counts)
      (congrArg (KeyValue.write _) hashes)

theorem holdsPayments_step (held : ∃ rows, seg.HoldsPayments env rows) {call : DatabaseCall}
    (separate : seg.SeparateCall env call) :
    ∃ rows, (seg.step env call).HoldsPayments env rows := by
  obtain ⟨rows, held⟩ := held
  have completes : seg.Completes env call := by
    cases call
    · exact separate.1
    · exact separate
  refine exists_rows_step held.holds.toChained completes ?_ fun _ => held.cut
  rintro last pushed rfl -
  exact held.pushBlock _ separate.2

theorem holdsPayments_afterCalls {calls : List DatabaseCall} (time : genesis.timestamp ≤ maxTime)
    (separate : Along (step env) (SeparateCall env) (create env genesis .empty).segment calls) :
    ∃ rows, (afterCalls env genesis calls).HoldsPayments env rows := by
  refine invariant_run (I := fun seg => ∃ rows, seg.HoldsPayments env rows)
    (fun _ _ held ok => holdsPayments_step held ok) ?_ separate
  exact ⟨_, holdsPayments_create time⟩

/-! ### Exact answers -/

/-- The query returns the hash of each transaction of the stored chain that carries the id,
and each once. -/
def ExactPayments (env : DatabaseEnv) (segment : DatabaseSegment) (paymentId : Hash) : Prop :=
  ∃ hashes, segment.database.getTransactionHashesByPaymentId paymentId = some hashes ∧
    hashes.Nodup ∧ ∀ hash, hash ∈ hashes ↔
      ∃ block ∈ segment.storedBlocks, ∃ tx ∈ block.allTransactions,
        env.paymentId tx = some paymentId ∧ tx.transactionHash = hash

/-- Some transaction of the stored chain carries the id. -/
def Carried (env : DatabaseEnv) (segment : DatabaseSegment) (paymentId : Hash) : Prop :=
  ∃ block ∈ segment.storedBlocks, ∃ tx ∈ block.allTransactions, env.paymentId tx = some paymentId

section

variable (held : seg.HoldsPayments env rows) (paymentId : Hash)
include held paymentId

theorem HoldsPayments.carried_iff :
    seg.Carried env paymentId ↔ carriers env paymentId (rows.map (·.rawBlock)) ≠ [] := by
  rw [Carried, held.holds.storedBlocks_eq]
  constructor
  · rintro ⟨block, stored, tx, listed, carried⟩
    exact ne_nil_of_mem (mem_carriers.2 ⟨block, stored, tx, listed, carried, rfl⟩)
  · intro carried
    obtain ⟨hash, mem⟩ := exists_mem_of_ne_nil _ carried
    obtain ⟨block, stored, tx, listed, carried, -⟩ := mem_carriers.1 mem
    exact ⟨block, stored, tx, listed, carried⟩

/-- Without carriers the query throws, otherwise it is exact. -/
theorem HoldsPayments.exactPayments_iff :
    seg.ExactPayments env paymentId ↔ seg.Carried env paymentId := by
  have query := held.indexed.query paymentId
  rw [held.carried_iff]
  constructor
  · rintro ⟨hashes, answer, -⟩ none
    rw [query, if_pos none] at answer
    cases answer
  · intro carried
    refine ⟨_, query.trans (if_neg carried), ?_, fun hash => ?_⟩
    · rw [carriers_eq]
      exact held.located.nodup.sublist (filter_sublist.map _)
    · rw [held.holds.storedBlocks_eq]
      exact mem_carriers

theorem HoldsPayments.query_throws_iff :
    seg.database.getTransactionHashesByPaymentId paymentId = none ↔
      ¬ seg.Carried env paymentId := by
  rw [held.indexed.query, held.carried_iff, not_not, ite_eq_left_iff]
  refine ⟨fun throws => ?_, fun none carried => absurd none carried⟩
  by_contra carried
  cases throws carried

end

/-- In every run whose pushed blocks are new and repeat no payment id, the query is exact for
the ids that the chain carries. For the others it throws. -/
theorem paymentIds_exact (env : DatabaseEnv) (genesis : CachedBlock) (calls : List DatabaseCall)
    (time : genesis.timestamp ≤ maxTime) (separate : Along (step env) (SeparateCall env)
      (create env genesis .empty).segment calls) (paymentId : Hash) :
    ((afterCalls env genesis calls).ExactPayments env paymentId ↔
        (afterCalls env genesis calls).Carried env paymentId) ∧
      ((afterCalls env genesis calls).database.getTransactionHashesByPaymentId paymentId = none ↔
        ¬ (afterCalls env genesis calls).Carried env paymentId) := by
  obtain ⟨rows, held⟩ := holdsPayments_afterCalls time separate
  exact ⟨held.exactPayments_iff paymentId, held.query_throws_iff paymentId⟩

end DatabaseSegment

namespace Sample

/-- A transaction that carries the payment id 7. -/
def payment (hash : Hash) : RawTransaction :=
  ⟨200, hash, some ⟨0, [.key ⟨2980232, [0], hash⟩], [⟨100, hash⟩], 7, [1]⟩⟩

/-- Two blocks with a payment each, of which the second is replaced by another. -/
def replacedPayment : List DatabaseCall :=
  pushes [next 1 0 1 [payment 5001] 0, next 2 1 2 [payment 5002] 0] ++
    [.split 2] ++ pushes [next 12 1 2 [payment 5003] 0]

/-- One block with two payments. -/
def twoPayments : List DatabaseCall := pushes [next 1 0 1 [payment 5001, payment 5002] 0]

end Sample

namespace DatabaseSegment

theorem paymentIds_exact_replaced :
    (afterCalls databaseEnv genesis replacedPayment).ExactPayments
        databaseEnv 7 ∧
      getTransactionHashesByPaymentId
        (afterCalls databaseEnv genesis replacedPayment).database 8 = none :=
  have exact := paymentIds_exact databaseEnv genesis replacedPayment
    (by decide +kernel) (by decide +kernel)
  ⟨(exact 7).1.2 (by unfold Carried; decide +kernel),
    (exact 8).2.2 (by unfold Carried; decide +kernel)⟩

/-- Of two payments in one block only the second is found. -/
theorem not_exactPayments_two : getTransactionHashesByPaymentId
        (afterCalls databaseEnv genesis twoPayments).database 7 = some [5002] ∧
      ¬ (afterCalls databaseEnv genesis twoPayments).ExactPayments
        databaseEnv 7 := by
  have answer : getTransactionHashesByPaymentId
      (afterCalls databaseEnv genesis twoPayments).database 7 = some [5002] := by
    decide +kernel
  refine ⟨answer, ?_⟩
  rintro ⟨hashes, answer', -, listed⟩
  rw [answer] at answer'
  cases answer'
  have first := (listed 5001).2 (by decide +kernel)
  revert first
  decide

end DatabaseSegment

end DeroGold
