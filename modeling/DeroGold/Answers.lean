import DeroGold.Spent
import DeroGold.Split
import DeroGold.Sync

/-!
Two branches that hold the same chain give the same answers, however the chain is cut into
segments (`answer_congr`). The questions are the sensible ones: block indexes on the chain,
ranges that are not empty, and outputs that exist at the block index they are asked for.
-/

namespace DeroGold

open SegmentTree KeyIndex Slice List Lineage

/-- A branch above the database whose segments describe their parts of the chain, which
spends no key image and holds no block twice. -/
structure Lineage.Described (lineage : Lineage) : Prop where
  inOrder : lineage.InOrder
  spent : LineageOk Cache.entries SpentOk lineage
  hashes : (Core.hashesOf lineage.chain).Nodup
  nonempty : lineage ≠ []
  root : ∀ cache, lineage.getLast? = some cache → cache.isDatabase = true

/-- Questions about blocks and outputs that a chain of this length has. -/
def Query.Sensible (chain : List Entry) : Query → Prop
  | .getLastTimestamps count blockIndex _ | .getLastBlocksSizes count blockIndex _
  | .getLastCumulativeDifficulties count blockIndex _ =>
    blockIndex < chain.length ∧ count < 2 ^ 32
  | .getBlocksByHeight startHeight endHeight => startHeight < endHeight
  | .extractKeyOutputKeys _ amount blockIndex globalIndexes =>
    blockIndex < chain.length ∧ globalIndexes ≠ [] ∧ globalIndexes.Pairwise (· < ·) ∧
      ∀ globalIndex ∈ globalIndexes, globalIndex <
        (outputsOf amount ((chain.take (blockIndex + 1)).map Prod.fst)).length
  | _ => True

namespace Lineage

variable {lineage : Lineage}

/-! ### Outputs -/

/-- A longer chain has at least as many outputs. -/
theorem length_outputsOf_take_le (amount : Amount) (chain : List Entry) (n : Nat) :
    (outputsOf amount ((chain.take n).map Prod.fst)).length ≤
      (outputsOf amount (chain.map Prod.fst)).length := by
  conv_rhs => rw [← take_append_drop n chain, map_append, outputsOf_append, length_append]
  exact Nat.le_add_right _ _

/-- Outputs that exist at the block index are looked up on the whole chain; segments above
the block index are passed over. -/
theorem extractKeyOutputs_upTo (unlocked : Nat → Bool) (amount : Amount) {index : Nat}
    {indexes : List Nat} (nonempty : indexes ≠ []) (ascending : indexes.Pairwise (· < ·))
    {lineage : Lineage} (ok : lineage.InOrder) (inside : index < lineage.chain.length)
    (existing : ∀ globalIndex ∈ indexes, globalIndex <
      (outputsOf amount ((lineage.chain.take (index + 1)).map Prod.fst)).length) :
    lineage.extractKeyOutputs unlocked amount index indexes =
      indexes.mapM (spendableKey unlocked (outputsOf amount lineage.raws)) := by
  induction lineage with
  | nil =>
    exact absurd inside (Nat.not_lt_zero _)
  | cons cache parents ih =>
    have whole := ok.whole
    rcases Nat.lt_or_ge index cache.getStartBlockIndex with low | high
    · -- the segment is above the block index
      cases cache with
      | database cache => exact absurd low (Nat.not_lt_zero _)
      | memory cache =>
        have start : cache.startIndex = _ := whole.1.start
        have below : index < (chain parents).length := start ▸ low
        rw [chain, chainOf, take_append_of_le_length below] at existing
        rw [extractKeyOutputs_of_lt unlocked parents amount low, ih ok.parents below existing]
        refine mapM_congr fun globalIndex mem => ?_
        have reached := existing globalIndex mem
        rw [raws_cons whole.1.sound, outputsOf_append]
        exact (spendableKey_append_left (lt_of_lt_of_le reached (length_outputsOf_take_le ..))).symm
    · refine extractKeyOutputs_eq unlocked amount index whole ok.outputs ok.infos
        (starts_le whole high) nonempty ascending fun globalIndex mem => ?_
      exact lt_of_lt_of_le (existing globalIndex mem) (length_outputsOf_take_le ..)

/-- The timestamp that locked outputs are compared with is that of the last block. -/
theorem Described.getLastTimestampsFromTop_one (ok : lineage.Described) :
    lineage.getLastTimestampsFromTop 1 =
      (slice lineage.infos (lineage.chain.length - 1) lineage.chain.length).map (·.timestamp) := by
  have whole := ok.inOrder.whole
  cases lineage with
  | nil => exact absurd rfl ok.nonempty
  | cons cache parents =>
    have top := whole.getTopBlockIndex_eq
    have first : firstUnit 1 (getTopBlockIndex (cache :: parents))
        (useGenesisByDefault (cache :: parents)) = (chain (cache :: parents)).length - 1 := by
      cases cache with
      | database cache =>
        simp only [firstUnit, useGenesisByDefault, if_true]
        omega
      | memory cache =>
        -- an in-memory segment leaves the genesis block out, but is never that low
        have above : 0 < (chain parents).length := by
          cases parents with
          | nil => exact absurd (ok.root _ rfl) Bool.false_ne_true
          | cons parent rest => exact length_pos_iff.2 (Whole.chain_ne_nil whole.2)
        have start : cache.startIndex = (chain parents).length := whole.1.start
        have high : cache.startIndex ≤ getTopBlockIndex (.memory cache :: parents) := by
          have own := whole.1.sound.getTopBlockIndex_eq
          have pos := length_pos_iff.2 whole.1.sound.nonempty
          rw [← Cache.length_entries whole.1.sound.aligned] at pos
          simp only [getTopBlockIndex, Cache.getStartBlockIndex] at own ⊢
          omega
        simp only [firstUnit, useGenesisByDefault, Bool.false_eq_true, if_false]
        omega
    rw [getLastTimestampsFromTop, getLastTimestamps,
      getLastUnits_eq whole ok.inOrder.units (by omega) (by decide), lastUnits, first, top]

end Lineage

/-! ### Transactions -/

/-- A segment knows the transactions of its own blocks. -/
theorem Cache.hasTransaction_iff {below : List Entry} {cache : Cache} (sound : cache.Sound)
    (outputs : OutputsOk below cache) (infos : cache.InfosOk below) (hash : Hash) :
    cache.hasTransaction hash = true ↔ hash ∈ keysOf Entry.allHashes cache.entries := by
  have raws := Cache.map_fst_entries sound.aligned
  rw [← keysOf_map_fst, raws]
  cases cache with
  | database cache =>
    have rows : RowsOk cache := outputs.tables
    have listed : (recordsFrom (fun _ => 0) ((cache.blocks.map (·.rawBlock)).flatMap
        RawBlock.allTransactions)).map Prod.fst =
          keysOf RawBlock.allHashes (cache.blocks.map (·.rawBlock)) := by
      rw [map_fst_recordsFrom, map_hash_flatMap]
    change (cache.transactions hash).isSome = true ↔
      hash ∈ keysOf RawBlock.allHashes (cache.blocks.map (·.rawBlock))
    rw [← listed, Option.isSome_iff_exists, mem_map]
    constructor
    · rintro ⟨record, found⟩
      exact ⟨_, (rows.records hash record).1 found, rfl⟩
    · rintro ⟨⟨_, record⟩, mem, rfl⟩
      exact ⟨record, (rows.records _ record).2 mem⟩
  | memory cache =>
    have infos : DeroGold.InfosOk cache.startIndex (below.map Prod.fst) cache.storage
      cache.transactions := infos
    have distinct := outputs.distinct_raw sound
    change (cache.transactions.any fun info => info.transactionHash == hash) = true ↔
      hash ∈ keysOf RawBlock.allHashes cache.storage
    rw [any_eq_true]
    constructor
    · rintro ⟨info, mem, same⟩
      obtain ⟨p, raw, tx, at_p, at_index, info_eq⟩ := infos.located info mem
      refine mem_keysOf.2 ⟨p, raw, at_p, mem_map.2 ⟨tx, mem_of_getElem? at_index, ?_⟩⟩
      rw [← beq_iff_eq.1 same, info_eq]
      rfl
    · intro mem
      obtain ⟨p, raw, at_p, has⟩ := mem_keysOf.1 mem
      obtain ⟨tx, tx_mem, rfl⟩ := mem_map.1 has
      obtain ⟨i, at_i⟩ := getElem?_of_mem tx_mem
      have found := infos.find_at distinct at_p at_i
      exact ⟨_, mem_of_find?_eq_some found, beq_self_eq_true _⟩

namespace Lineage

variable {lineage : Lineage}

/-- Some segment of a branch knows a transaction just if the chain holds it. -/
theorem any_hasTransaction_iff (hash : Hash) {lineage : Lineage} (ok : lineage.InOrder) :
    (lineage.any (·.hasTransaction hash) = true ↔ hash ∈ keysOf Entry.allHashes lineage.chain) := by
  induction lineage with
  | nil =>
    simp [chain, chainOf]
  | cons cache parents ih =>
    have own := Cache.hasTransaction_iff ok.whole.1.sound ok.outputs.1 ok.infos.1 hash
    simp only [any_cons, Bool.or_eq_true, ih ok.parents, own, chain, chainOf, keysOf_append, mem_append]
    exact or_comm

end Lineage

/-! ### The answers -/

section Congr

variable {first second : Lineage} (ok : first.Described) (ok' : second.Described)
  (same : first.chain = second.chain)

include ok ok' same

theorem Lineage.Described.isTransactionSpendTimeUnlocked_congr (now unlockTime index : Nat) :
    first.isTransactionSpendTimeUnlocked now unlockTime index =
      second.isTransactionSpendTimeUnlocked now unlockTime index := by
  have last : first.getLastTimestampsFromTop 1 = second.getLastTimestampsFromTop 1 := by
    rw [ok.getLastTimestampsFromTop_one, ok'.getLastTimestampsFromTop_one, infos, infos, same]
  simp only [isTransactionSpendTimeUnlocked, last]

theorem Lineage.Described.getLastUnits_congr {index count : Nat}
    (sensible : index < first.chain.length ∧ count < 2 ^ 32) (useGenesis : Bool) :
    first.getLastUnits count index useGenesis = second.getLastUnits count index useGenesis := by
  rw [getLastUnits_eq ok.inOrder.whole ok.inOrder.units sensible.1 sensible.2,
    getLastUnits_eq ok'.inOrder.whole ok'.inOrder.units (same ▸ sensible.1) sensible.2, infos,
    infos, same]

/-- Branches with the same chain answer alike. -/
theorem answer_congr (query : Query) (sensible : query.Sensible first.chain) :
    first.answer query = second.answer query := by
  have whole := ok.inOrder.whole
  have whole' := ok'.inOrder.whole
  have infos : first.infos = second.infos := by rw [infos, infos, same]
  have raws : first.raws = second.raws := by rw [raws, raws, same]
  cases query with
  | checkIfSpent keyImage index =>
    have answered := checkIfSpent_iff keyImage index whole ok.spent
    have answered' := checkIfSpent_iff keyImage index whole' ok'.spent
    rw [show chainOf Cache.entries first = chainOf Cache.entries second from same] at answered
    rw [answer, answer, Bool.eq_iff_iff.2 (answered.trans answered'.symm)]
  | getBlockHash index =>
    rw [answer, answer, getBlockHash_eq whole, getBlockHash_eq whole', infos]
  | getBlockHashes startIndex maxCount =>
    rw [answer, answer, getBlockHashes_eq whole, getBlockHashes_eq whole', infos]
  | getLastTimestamps count index useGenesis =>
    simp only [answer, getLastTimestamps, ok.getLastUnits_congr ok' same sensible]
  | getLastBlocksSizes count index useGenesis =>
    simp only [answer, getLastBlocksSizes, ok.getLastUnits_congr ok' same sensible]
  | getLastCumulativeDifficulties count index useGenesis =>
    simp only [answer, getLastCumulativeDifficulties, ok.getLastUnits_congr ok' same sensible]
  | getBlocksByHeight startHeight endHeight =>
    rw [answer, answer, getBlocksByHeight_eq whole ok.nonempty sensible,
      getBlocksByHeight_eq whole' ok'.nonempty sensible, raws]
  | getNonEmptyBlocks startHeight blockCount =>
    rw [answer, answer, getNonEmptyBlocks_eq whole, getNonEmptyBlocks_eq whole', raws]
  | extractKeyOutputKeys now amount index indexes =>
    obtain ⟨inside, nonempty, ascending, existing⟩ := sensible
    simp only [answer, extractKeyOutputKeys, ok.isTransactionSpendTimeUnlocked_congr ok' same]
    rw [extractKeyOutputs_upTo _ amount nonempty ascending ok.inOrder inside existing,
      extractKeyOutputs_upTo _ amount nonempty ascending ok'.inOrder (same ▸ inside)
        (same ▸ existing), raws]

/-- They know the same blocks under the same indexes. -/
theorem findBlock_congr (hash : Hash) : first.findBlock hash = second.findBlock hash := by
  rw [findBlock_eq ok.inOrder.whole ok.hashes, findBlock_eq ok'.inOrder.whole ok'.hashes, same]

end Congr

end DeroGold
