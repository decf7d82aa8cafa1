import DeroGold.Outputs
import DeroGold.Checks

/-!
Ring members and the chain they come from.

A ring input names outputs by amount and global index. `extractKeyOutputs_eq` says what a
lookup yields when all named outputs exist: the outputs with these numbers on the whole
chain of the segment asked. The block index that is passed along keeps nothing out, so a
block that forks off inside a segment can use outputs of the blocks after its
predecessor (`not_ringsFromAncestors_sibling`). A block that names only outputs its
ancestors have is served from them (`ringsFromAncestors_of_inside`).
-/

namespace DeroGold

open SegmentTree KeyIndex Grouped Search Checked List Cache ValidationContext Option

/-- Key of an output by global index, if it may be spent. -/
def spendableKey (unlocked : Nat → Bool) (rows : List KeyOutputRow) (globalIndex : Nat) :
    Except ExtractOutputKeysError PublicKey :=
  match rows[globalIndex]? with
  | none => .error .invalidGlobalIndex
  | some row => if unlocked row.unlockTime then .ok row.publicKey else .error .outputLocked

variable {unlocked : Nat → Bool} {index : Nat} {indexes : List Nat} {below : List RawBlock}
  {amount : Amount} {key : PublicKey} {keys : List PublicKey} {input : KeyInput}
  {context : ValidationContext} {tx : CachedTransaction}

theorem spendableKey_append_left {rows rest : List KeyOutputRow} (inside : index < rows.length) :
    spendableKey unlocked (rows ++ rest) index = spendableKey unlocked rows index := by
  rw [spendableKey, spendableKey, getElem?_append_left inside]

theorem mapM_congr {α β ε : Type} {f g : α → Except ε β} {xs : List α}
    (same : ∀ x ∈ xs, f x = g x) : xs.mapM f = xs.mapM g := by
  induction xs with
  | nil => rfl
  | cons x xs ih =>
    rw [mapM_cons, mapM_cons, same x mem_cons_self, ih (forall_mem_cons.1 same).2]

/-! ### The database -/

theorem sorted_of_ascending (ascending : indexes.Pairwise (· < ·)) :
    indexes.dedup.insertionSort (· ≤ ·) = indexes := by
  have nodup : indexes.Nodup := ascending.imp ne_of_lt
  rw [nodup.dedup]
  exact (ascending.imp le_of_lt).insertionSort_eq

variable {cache : DatabaseBlockchainCache} {blocks : List RawBlock} {row : KeyOutputRow}
  {chain : List Entry} {result : TransactionValidatorState × Nat}

/-- Ascending indexes of existing outputs are looked up one by one. -/
theorem RowsOk.extractKeyOutputs_eq (ok : RowsOk cache)
    (unlocked : Nat → Bool) (amount : Amount) (ascending : indexes.Pairwise (· < ·))
    (inside : ∀ index ∈ indexes,
      index < (outputsOf amount (cache.blocks.map (·.rawBlock))).length) :
    cache.extractKeyOutputs unlocked amount indexes = indexes.mapM
        (spendableKey unlocked (outputsOf amount (cache.blocks.map (·.rawBlock)))) := by
  rw [DatabaseBlockchainCache.extractKeyOutputs, sorted_of_ascending ascending, ok.outputs amount]
  clear ascending
  induction indexes with
  | nil => rfl
  | cons index indexes ih =>
    have found := getElem?_eq_getElem (inside index mem_cons_self)
    have rest := ih (forall_mem_cons.1 inside).2
    rw [filterMap_cons_some found, mapM_cons, mapM_cons, rest, spendableKey, found]

/-! ### In-memory segments -/

/-- The info of a transaction of the segment is found by its position. -/
theorem InfosOk.find_at {start p i : Nat} {raw : RawBlock} {infos : List CachedTransactionInfo}
    (ok : InfosOk start below blocks infos)
    (distinct : (keysOf RawBlock.allHashes (below ++ blocks)).Nodup)
    (at_raw : blocks[p]? = some raw) (at_tx : raw.allTransactions[i]? = some tx) :
    (infos.find? fun info => info.blockIndex == start + p && info.transactionIndex == i) =
      some (.of (start + p) (tx, i)) := by
  rw [keysOf_append] at distinct
  obtain ⟨-, distinctOwn, apart⟩ := nodup_append.1 distinct
  have at_hash : raw.allHashes[i]? = some tx.transactionHash := by
    rw [RawBlock.allHashes, getElem?_map, at_tx]
    rfl
  have hash_mem := mem_of_getElem? at_hash
  have held : .of (start + p) (tx, i) ∈ infos := by
    rcases ok.complete p raw at_raw tx (mem_of_getElem? at_tx) with
      ⟨info, held, hash, -⟩ | ⟨raw', deeper, tx', tx'_mem, hash⟩
    · obtain ⟨q, raw', tx', at_raw', at_tx', info_eq⟩ := ok.located info held
      have at_hash' : raw'.allHashes[info.transactionIndex]? = some tx.transactionHash := by
        rw [RawBlock.allHashes, getElem?_map, at_tx', map_some, ← hash, info_eq]
        rfl
      -- the hash occurs once on the chain, so the info is the one at this position
      obtain rfl := position_unique distinctOwn at_raw' at_raw (mem_of_getElem? at_hash') hash_mem
      obtain rfl : raw' = raw := some.inj (at_raw'.symm.trans at_raw)
      have nodup : raw'.allHashes.Nodup :=
        (nodup_flatMap.1 distinctOwn).1 _ (mem_of_getElem? at_raw)
      obtain rfl := (getElem?_inj (List.getElem?_eq_some_iff.1 at_hash').1 nodup).1
        (at_hash'.trans at_hash.symm)
      obtain rfl : tx' = tx := some.inj (at_tx'.symm.trans at_tx)
      exact info_eq ▸ held
    · refine absurd rfl (apart tx.transactionHash ?_ tx.transactionHash ?_)
      · exact mem_flatMap.2 ⟨raw', deeper, hash ▸ mem_map_of_mem tx'_mem⟩
      · exact mem_flatMap.2 ⟨raw, mem_of_getElem? at_raw, hash_mem⟩
  cases found : infos.find? fun info => info.blockIndex == start + p && info.transactionIndex == i with
  | none => exact absurd (by simp [CachedTransactionInfo.of]) (find?_eq_none.1 found _ held)
  | some info =>
    obtain ⟨q, raw', tx', at_raw', at_tx', info_eq⟩ := ok.located info (mem_of_find?_eq_some found)
    have here := find?_some found
    rw [Bool.and_eq_true, beq_iff_eq, beq_iff_eq] at here
    obtain ⟨block_eq, rfl⟩ := here
    obtain rfl : q = p := by
      rw [info_eq] at block_eq
      exact Nat.add_left_cancel block_eq
    obtain rfl : raw' = raw := some.inj (at_raw'.symm.trans at_raw)
    obtain rfl : tx' = tx := some.inj (at_tx'.symm.trans at_tx)
    rw [← info_eq]

/-- The tables of an in-memory segment describe its blocks above a chain. -/
structure BlockchainCache.Above (below : List RawBlock) (cache : BlockchainCache) : Prop where
  start : cache.startIndex = below.length
  distinct : (keysOf RawBlock.allHashes (below ++ cache.storage)).Nodup
  positions : PositionsOk below cache.storage cache.keyOutputsGlobalIndexes
  infos : InfosOk below.length below cache.storage cache.transactions

theorem BlockchainCache.above {cache : BlockchainCache} {entries : List Entry}
    (fits : Fits entries (.memory cache)) (ok : OutputsOk entries (.memory cache))
    (infos : Cache.InfosOk entries (.memory cache)) : cache.Above (entries.map Prod.fst) := by
  have start : cache.startIndex = (entries.map Prod.fst).length := by
    rw [length_map]
    exact fits.start
  exact ⟨start, ok.distinct_raw fits.sound, ok.tables, start ▸ infos⟩

/-- A segment's own outputs are looked up by their numbers on the whole chain. -/
theorem extractOwnKey_eq {cache : BlockchainCache} (own : cache.Above below) (unlocked : Nat → Bool)
    (amount : Amount) (above : (outputsOf amount below).length ≤ index) :
    cache.extractOwnKey (ownTable amount below cache.storage) unlocked index =
      spendableKey unlocked (outputsOf amount (below ++ cache.storage)) index := by
  rw [BlockchainCache.extractOwnKey, if_neg (not_lt.2 above), spendableKey, outputsOf_append,
    getElem?_append_right above, getElem?_map]
  cases found : (group amount (outputsFrom below.length cache.storage))[
      index - (outputsOf amount below).length]? with
  | none => rfl
  | some row =>
    obtain ⟨p, raw, tx, output, at_raw, at_index, at_tx, at_output, -, key, unlock⟩ :=
      exists_of_mem_outputsFrom (mem_group.1 (mem_of_getElem? found))
    have at_info := own.infos.find_at own.distinct at_raw at_tx
    simp only [map_some, at_index, at_info, CachedTransactionInfo.of, unlock, getElem?_map,
      at_output, key, getD_some]

/-! ### Asking a lineage -/

/-- The search for a segment's first index cuts an ascending list of indexes there. -/
theorem lowerBound_ascending (ascending : indexes.Pairwise (· < ·)) (bound : Nat) :
    (∀ index ∈ indexes.take
        (lowerBound (fun index => decide (index < bound)) indexes),
      index < bound) ∧
    ∀ index ∈ indexes.drop
        (lowerBound (fun index => decide (index < bound)) indexes),
      bound ≤ index := by
  have partitioned : Partitioned (fun index => decide (index < bound)) indexes := by
    refine ascending.imp fun {a b} lt low => ?_
    rw [decide_eq_true_eq] at low ⊢
    omega
  rw [take_lowerBound partitioned, drop_lowerBound partitioned]
  constructor
  · intro index mem
    exact of_decide_eq_true (mem_filter.1 mem).2
  · intro index mem
    simpa using (mem_filter.1 mem).2

/-- Ascending indexes of existing outputs are looked up on the whole chain, whatever later
blocks it holds: the block index only has to reach the segments. -/
theorem extractKeyOutputs_eq (unlocked : Nat → Bool) (amount : Amount) (index : Nat)
    {lineage : Lineage} {indexes : List Nat} (fits : LineageOk entries Fits lineage)
    (ok : LineageOk entries OutputsOk lineage) (infos : LineageOk entries Cache.InfosOk lineage)
    (reached : ∀ cache ∈ lineage, cache.getStartBlockIndex ≤ index) (nonempty : indexes ≠ [])
    (ascending : indexes.Pairwise (· < ·)) (inside : ∀ globalIndex ∈ indexes,
      globalIndex < (outputsOf amount ((chainOf entries lineage).map Prod.fst)).length) :
    lineage.extractKeyOutputs unlocked amount index indexes =
      indexes.mapM (spendableKey unlocked
        (outputsOf amount ((chainOf entries lineage).map Prod.fst))) := by
  induction lineage generalizing indexes with
  | nil =>
    obtain ⟨first, mem⟩ := exists_mem_of_ne_nil _ nonempty
    exact absurd (inside first mem) (Nat.not_lt_zero _)
  | cons cache parents ih =>
    obtain ⟨fits, fitsBelow⟩ := fits
    obtain ⟨ok, okBelow⟩ := ok
    obtain ⟨infos, infosBelow⟩ := infos
    have reachedBelow := (forall_mem_cons.1 reached).2
    rw [map_fst_chain_cons fits.sound] at inside ⊢
    cases cache with
    | database cache =>
      have root : chainOf entries parents = [] := length_eq_zero_iff.1 fits.start.symm
      rw [root, map_nil, nil_append] at inside ⊢
      exact RowsOk.extractKeyOutputs_eq ok.tables unlocked amount ascending inside
    | memory cache =>
      have own_eq : (memory cache).rawBlocks = cache.storage := rfl
      rw [own_eq] at inside ⊢
      have own := BlockchainCache.above fits ok infos
      generalize (chainOf entries parents).map Prod.fst = below at *
      rw [Lineage.extractKeyOutputs]
      rcases own.positions.cases amount with ⟨held, same⟩ | held
      · rw [same] at inside ⊢
        rw [held]
        exact ih fitsBelow okBelow infosBelow reachedBelow nonempty ascending inside
      · rw [held]
        have high : ¬ index < cache.startIndex := not_lt.2 (reached _ mem_cons_self)
        simp only [if_neg high]
        obtain ⟨lows, highs⟩ := lowerBound_ascending ascending (outputsOf amount below).length
        generalize lowerBound (fun globalIndex =>
          decide (globalIndex < (outputsOf amount below).length)) indexes = offset
          at lows highs ⊢
        have fromOwn : (indexes.drop offset).mapM
              (cache.extractOwnKey (ownTable amount below cache.storage) unlocked) =
            (indexes.drop offset).mapM
              (spendableKey unlocked (outputsOf amount (below ++ cache.storage))) :=
          mapM_congr fun globalIndex mem =>
            extractOwnKey_eq own unlocked amount (highs globalIndex mem)
        conv_rhs => rw [← take_append_drop offset indexes, mapM_append, ← fromOwn]
        by_cases zero : offset = 0
        · rw [if_pos zero, zero]
          rfl
        · have fromParents : Lineage.extractKeyOutputs unlocked parents amount index
                (indexes.take offset) =
              (indexes.take offset).mapM
                (spendableKey unlocked (outputsOf amount (below ++ cache.storage))) := by
            rw [ih fitsBelow okBelow infosBelow reachedBelow (by simp [zero, nonempty])
              (ascending.sublist (take_sublist _ _)) lows]
            refine mapM_congr fun globalIndex mem => ?_
            rw [outputsOf_append, spendableKey_append_left (lows globalIndex mem)]
          rw [if_neg zero, fromParents]
          rfl

/-! ### Keys by global index -/

/-- Key of the output of an amount with a global index. -/
def keyOn (amount : Amount) (blocks : List RawBlock) (globalIndex : Nat) : Option PublicKey :=
  (outputsOf amount blocks)[globalIndex]?.map (·.publicKey)

theorem keyOn_append (found : keyOn amount below index = some key) (blocks : List RawBlock) :
    keyOn amount (below ++ blocks) index = some key := by
  obtain ⟨row, at_row, rfl⟩ := map_eq_some_iff.1 found
  have inside := (List.getElem?_eq_some_iff.1 at_row).1
  rw [keyOn, outputsOf_append, getElem?_append_left inside, at_row]
  rfl

theorem keyOn_of_spendableKey
    (found : spendableKey unlocked (outputsOf amount blocks) index = .ok key) :
    keyOn amount blocks index = some key := by
  unfold spendableKey at found
  unfold keyOn
  split at found
  · cases found
  · rename_i row at_row
    split at found
    · rw [at_row, ← Except.ok.inj found]
      rfl
    · cases found

/-- The database hands out the keys of the rows it finds. -/
theorem RowsOk.keys_eq (ok : RowsOk cache)
    (extracted : cache.extractKeyOutputs unlocked amount indexes = .ok keys) :
    keys = (indexes.dedup.insertionSort (· ≤ ·)).filterMap
      (keyOn amount (cache.blocks.map (·.rawBlock))) := by
  rw [DatabaseBlockchainCache.extractKeyOutputs, ok.outputs amount] at extracted
  have listed := map_eq_of_forall₂ (f := fun row => some row.publicKey) (mapM_ok.1 extracted)
    fun {row key} found => by
      split at found
      · rw [Except.ok.inj found]
      · cases found
  apply map_injective_iff.2 (Option.some_injective _)
  rw [← listed, map_filterMap, map_filterMap]
  refine filterMap_congr fun index _ => ?_
  rw [keyOn, Option.map_map]
  rfl

/-! ### Rings of a block -/

/-- The key inputs of a transaction. -/
def Transaction.keyInputs (tx : Transaction) : List KeyInput :=
  tx.inputs.filterMap fun input => match input with
    | .base _ => none
    | .key input => some input

theorem Transaction.mem_keyInputs {tx : Transaction} :
    input ∈ tx.keyInputs ↔ TransactionInput.key input ∈ tx.inputs := by
  rw [keyInputs, mem_filterMap]
  constructor
  · rintro ⟨other, mem, found⟩
    cases other with
    | base index => cases found
    | key other =>
      cases found
      exact mem
  · intro mem
    exact ⟨_, mem, rfl⟩

/-- An output of the amount with the key was created by a block of the chain. -/
def CreatedOn (chain : List Entry) (amount : Amount) (key : PublicKey) : Prop :=
  ∃ entry ∈ chain, ∃ tx ∈ entry.1.allTransactions, ⟨amount, key⟩ ∈ tx.transaction.outputs

instance (chain : List Entry) (amount : Amount) (key : PublicKey) :
    Decidable (CreatedOn chain amount key) :=
  inferInstanceAs (Decidable (∃ entry ∈ chain, ∃ tx ∈ entry.1.allTransactions,
    ⟨amount, key⟩ ∈ tx.transaction.outputs))

theorem createdOn_of_mem
    (mem : row ∈ outputsOf amount (chain.map Prod.fst)) : CreatedOn chain amount row.publicKey := by
  obtain ⟨p, raw, tx, output, at_raw, -, at_tx, at_output, amount_eq, key, -⟩ :=
    exists_of_mem_outputsFrom (mem_group.1 mem)
  obtain ⟨entry, held, rfl⟩ := mem_map.1 (mem_of_getElem? at_raw)
  refine ⟨entry, held, tx, mem_of_getElem? at_tx, ?_⟩
  rw [← amount_eq, ← key]
  exact mem_of_getElem? at_output

/-- The ring names, in ascending order, outputs that the chain has. -/
def RingInside (chain : List Entry) (input : KeyInput) : Prop :=
  input.globalIndexes.Pairwise (· < ·) ∧
    ∀ globalIndex ∈ input.globalIndexes,
      globalIndex < (outputsOf input.amount (chain.map Prod.fst)).length

instance (chain : List Entry) (input : KeyInput) : Decidable (RingInside chain input) :=
  inferInstanceAs (Decidable (_ ∧ _))

/-- The rings of a transaction that passes are not empty. -/
theorem globalIndexes_ne_nil {state : TransactionValidatorState}
    (passed : context.validate tx state = .ok result)
    (mem : input ∈ tx.transaction.keyInputs) : input.globalIndexes ≠ [] := by
  obtain ⟨inputs, sumOfOutputs, checks, -⟩ := checks_of_validate passed
  obtain ⟨-, inputsPass⟩ := of_require_bind.1 checks.inputsPass
  obtain ⟨before, after, checked⟩ :=
    exists_of_foldlM_ok inputsPass _ (Transaction.mem_keyInputs.1 mem)
  obtain ⟨-, checked⟩ := of_require_bind.1 checked
  have nonempty := (of_require_bind.1 checked).1
  intro empty
  rw [KeyInput.globalIndexes] at empty
  cases offsets : input.outputIndexes with
  | nil => exact nonempty offsets
  | cons offset rest =>
    rw [offsets] at empty
    cases empty

/-- Outside the checkpoint zone the ring of a passing transaction was looked up. -/
theorem ringKeys_of_expensive (passed : context.validateTransactionInputsExpensive tx = .ok ())
    (outside : context.env.checkpoints.isInCheckpointZone (context.blockHeight + 1) = false)
    (mem : input ∈ tx.transaction.keyInputs) : ∃ keys, context.ringKeys input = .ok keys := by
  obtain ⟨index, at_index⟩ := getElem?_of_mem (Transaction.mem_keyInputs.1 mem)
  obtain ⟨-, checked⟩ := of_require_bind.1 (validateInputExpensive_ok passed outside at_index)
  obtain ⟨keys, found, -⟩ := of_bind.1 checked
  exact ⟨keys, found⟩

theorem ringKeys_eq_ok : context.ringKeys input = .ok keys ↔
      context.lineage.extractKeyOutputKeys context.now input.amount context.blockHeight
        input.globalIndexes = .ok keys := by
  unfold ringKeys
  split <;> simp_all

theorem createdOn_of_spendableKey
    (resolved : spendableKey unlocked (outputsOf amount (chain.map Prod.fst)) index = .ok key) :
    CreatedOn chain amount key := by
  unfold spendableKey at resolved
  split at resolved
  · cases resolved
  · rename_i row found
    split at resolved
    · cases resolved
      exact createdOn_of_mem (mem_of_getElem? found)
    · cases resolved

/-- A block index that reaches a segment reaches its parents. -/
theorem starts_le {cache : Cache} {parents : Lineage} {index : Nat}
    (fits : LineageOk entries Fits (cache :: parents)) (reached : cache.getStartBlockIndex ≤ index) :
    ∀ other ∈ cache :: parents, other.getStartBlockIndex ≤ index := by
  induction parents generalizing cache with
  | nil => simpa using reached
  | cons parent parents ih =>
    obtain ⟨own, below⟩ := fits
    have start := own.start
    rw [chainOf, length_append, ← below.1.start] at start
    exact forall_mem_cons.2 ⟨reached, ih below (by omega)⟩

namespace Core

variable {env : Env} {order : HashOrder} {now : Nat} {core : Core} {raw : RawBlock}
  {seg previous : Nat} {nd : Node Cache} {parents : Lineage} {parent : Entry}
  {genesis : CachedBlock}

/-- A ring of outputs of the ancestors is looked up among them. -/
theorem Placed.extractKeyOutputKeys_eq (placed : Placed core raw seg previous nd parents parent)
    (linear : core.Linear) (tables : Consistent entries OutputsOk core.chainsStorage)
    (infos : Consistent entries Cache.InfosOk core.chainsStorage)
    (nonempty : input.globalIndexes ≠ [])
    (inside : RingInside (chainTo nd parents previous) input) :
    (core.lineage seg).extractKeyOutputKeys now input.amount previous input.globalIndexes =
      input.globalIndexes.mapM (spendableKey
        (fun unlockTime => (core.lineage seg).isTransactionSpendTimeUnlocked now unlockTime
          previous) (outputsOf input.amount ((chainTo nd parents previous).map Prod.fst))) := by
  have wf := linear.shape.tree.wellFormed
  have lineageFits := linear.fits.lineageOk wf seg
  have lineageTables := tables.lineageOk wf seg
  have lineageInfos := infos.lineageOk wf seg
  have lineage_eq : core.chainsStorage.lineage seg = nd.value :: parents := placed.lineage
  rw [lineage_eq] at lineageFits lineageTables lineageInfos
  have fits := lineageFits.1
  have reached := starts_le lineageFits placed.start_le
  obtain ⟨ascending, inside⟩ := inside
  have whole : outputsOf input.amount ((chainOf entries (nd.value :: parents)).map Prod.fst) =
      outputsOf input.amount ((chainTo nd parents previous).map Prod.fst) ++
        group input.amount (outputsFrom ((chainTo nd parents previous).map Prod.fst).length
          (((chainOf entries (nd.value :: parents)).drop (previous + 1)).map Prod.fst)) := by
    rw [← outputsOf_append, ← map_append, placed.chainTo_eq_take fits, take_append_drop]
  rw [Lineage.extractKeyOutputKeys, placed.lineage,
    extractKeyOutputs_eq _ _ _ lineageFits lineageTables lineageInfos reached nonempty ascending]
  · rw [whole]
    exact mapM_congr fun index mem => spendableKey_append_left (inside index mem)
  · intro index mem
    rw [whole, length_append]
    exact lt_of_lt_of_le (inside index mem) (Nat.le_add_right _ _)

/-- Every ring of the block names outputs of the block's ancestors, in ascending order. -/
def RingsInside (core : Core) (raw : RawBlock) : Prop :=
  ∀ tx ∈ raw.cachedTransactions, ∀ input ∈ tx.transaction.keyInputs,
    RingInside (core.ancestors raw.block.previousBlockHash) input

instance (core : Core) (raw : RawBlock) : Decidable (core.RingsInside raw) :=
  inferInstanceAs (Decidable (∀ tx ∈ raw.cachedTransactions, ∀ input ∈ tx.transaction.keyInputs,
    RingInside (core.ancestors raw.block.previousBlockHash) input))

/-- If the block is accepted, the members of its rings were resolved, one for each index, to
keys of outputs on the path from the genesis block to its predecessor. -/
def RingsFromAncestors (env : Env) (order : HashOrder) (genesis : CachedBlock) (now : Nat)
    (core : Core) (raw : RawBlock) : Prop :=
  ∀ result segment path, (core.addBlock env order now raw).2 = .added result →
    core.findSegmentContainingBlock raw.block.previousBlockHash = some segment →
    core.Ancestry genesis raw.block.previousBlockHash path →
    ∀ tx ∈ raw.cachedTransactions, ∀ input ∈ tx.transaction.keyInputs,
      ∃ keys, ringKeys ⟨env, core.lineage segment, now,
          core.indexIn segment raw.block.previousBlockHash, core.blockMedianSize, false⟩ input =
            .ok keys ∧
        List.Forall₂ (fun _ key => CreatedOn path input.amount key) input.globalIndexes keys

/-- In every run without checkpoints that never forks inside a database with children and
brings new transactions only, a block whose rings stay within its ancestors' outputs gets
its ring members from its ancestors. -/
theorem ringsFromAncestors_of_inside (crypto : Crypto) (order : HashOrder) (genesis : CachedBlock)
    (calls : List Call) (now : Nat) (raw : RawBlock)
    (ok : TransitionSystem.Along (step ⟨crypto, .empty⟩ order)
      (fun core call => core.KeepsRoot ⟨crypto, .empty⟩ call ∧ core.FreshTransactions call)
      (load genesis) calls)
    (inside : (afterCalls ⟨crypto, .empty⟩ order genesis calls).RingsInside raw) :
    (afterCalls ⟨crypto, .empty⟩ order genesis calls).RingsFromAncestors ⟨crypto, .empty⟩ order
      genesis now raw := by
  have keeps := ok.mono fun _ _ h => h.1
  obtain ⟨linear, anchored⟩ := anchored_afterCalls keeps
  have tables := outputsOk_afterCalls ok
  have infos := infosOk_afterCalls keeps
  generalize afterCalls ⟨crypto, .empty⟩ order genesis calls = core at *
  intro result segment path added found isPath tx tx_mem input input_mem
  rcases addBlock_cases ⟨crypto, .empty⟩ order now core raw with
    ⟨reason, failed, -⟩ | ⟨segment', previous, pushed, -, passed, -, -⟩
  · cases added.symm.trans failed
  obtain ⟨nd, parents, parent, placed, -⟩ := linear.shape.placed passed
  obtain ⟨-, found', cache, value, index, checked⟩ := checkBlock_ok passed
  obtain rfl : segment' = segment := some.inj (found'.symm.trans found)
  obtain ⟨difficulty, fee, state, reward, checks, rfl⟩ := checkOnBranch_ok checked
  obtain ⟨before, after, valid⟩ := validate_of_validateBlockTransactions checks.transactions tx_mem
  obtain ⟨inputs, sumOfOutputs, txChecks, -⟩ := checks_of_validate valid
  obtain ⟨keys, looked⟩ := ringKeys_of_expensive txChecks.expensive rfl input_mem
  rw [← indexIn_eq value] at index
  have fits := placed.holds linear.shape linear.fits
  have inside := inside tx tx_mem input input_mem
  rw [placed.ancestors_eq fits found index.symm] at inside
  refine ⟨keys, index ▸ looked, ?_⟩
  rw [ringKeys_eq_ok, placed.extractKeyOutputKeys_eq linear tables infos
    (globalIndexes_ne_nil valid input_mem) inside, mapM_ok] at looked
  rw [placed.ancestry_eq fits linear anchored isPath]
  refine looked.imp fun globalIndex key resolved => ?_
  exact createdOn_of_spendableKey resolved

end Core

namespace Core

open Sample

/-- Blocks up to height 11; the last one spends the genesis output. -/
def spentOnTop : Core :=
  afterCalls env .insertion genesis (calls (trunk 10 ++ [next 11 10 11 [spend] 10]))

/-- A block that forks off inside the database and uses an output of the genesis block, as a
later block of the database does. -/
theorem ringsFromAncestors_of_inside_fork :
    (spentOnTop.addBlock env .insertion 100000 (next 111 10 11 [spend] 10)).2 =
        .added .addedToAlternative ∧
      spentOnTop.RingsFromAncestors env .insertion genesis 100000
        (next 111 10 11 [spend] 10) :=
  ⟨by decide +kernel, ringsFromAncestors_of_inside crypto .insertion genesis _ 100000
    _ (by decide +kernel) (by decide +kernel)⟩

/-- Spends the output that `Sample.spend` creates. -/
def spendNext : RawTransaction :=
  ⟨200, 5002, some ⟨0, [.key ⟨2980222, [0], 88⟩], [⟨2980200, 4⟩], 0, [1]⟩⟩

/-- The output is created by block 11; block 111 on top of block 10 uses it. -/
theorem not_ringsFromAncestors_sibling :
    ¬ spentOnTop.RingsFromAncestors env .insertion genesis 100000
      (next 111 10 11 [spendNext] 22) := by
  intro fromAncestors
  have path : spentOnTop.Ancestry genesis 10 (spentOnTop.blocksNamed (range 11)) :=
    ⟨⟨by decide +kernel, by decide +kernel, by decide +kernel, by decide +kernel⟩,
      by decide +kernel⟩
  obtain ⟨keys, looked, created⟩ := fromAncestors .addedToAlternative 0 _ (by decide +kernel)
    (by decide +kernel) path ⟨⟨0, [.key ⟨2980222, [0], 88⟩], [⟨2980200, 4⟩], 0, [1]⟩, 5002, 200⟩
    (by decide) ⟨2980222, [0], 88⟩ (by decide)
  have found : ringKeys ⟨env, spentOnTop.lineage 0, 100000,
      spentOnTop.indexIn 0 10, spentOnTop.blockMedianSize, false⟩ ⟨2980222, [0], 88⟩ =
        .ok [3] := by decide +kernel
  obtain rfl : [3] = keys := Except.ok.inj (found.symm.trans looked)
  cases created with
  | cons first rest =>
    revert first
    decide +kernel

end Core

end DeroGold
