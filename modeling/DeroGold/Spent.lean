import DeroGold.Paths
import DeroGold.Checks

/-!
The key images a chain has spent and the tables that record them.

`SpentOk` says of a segment that its table gives every key image of its own blocks the
height of the block, and that no key image occurs twice on the chain up to it. A push
of a block with new key images, a new segment and both kinds of split keep it. Given
it, `checkIfSpent` answers for the chain cut at the asked height, whatever later blocks
the segment holds (`checkIfSpent_iff`).
-/

namespace DeroGold

open SegmentTree KeyIndex List Slice TransitionSystem Cache DatabaseBlockchainCache Entry

/-- Key images spent by a stored block. -/
def Entry.keyImages (entry : Entry) : List KeyImage := entry.1.keyImages

namespace Cache

def spentKeyImages : Cache → KeyImage → Option Nat
  | .memory cache => cache.spentKeyImages
  | .database cache => cache.spentKeyImages

/-- The database rows repeat the key images of their blocks. -/
def RowsSpend : Cache → Prop
  | .memory _ => True
  | .database cache => ∀ row ∈ cache.blocks, row.spentKeyImages = row.rawBlock.keyImages

end Cache

/-- The table of a segment describes its blocks, and the chain up to it spends no key
image twice. -/
structure SpentOk (below : List Entry) (cache : Cache) : Prop where
  table : Describes keyImages cache.spentKeyImages cache.getStartBlockIndex cache.entries
  distinct : (keysOf keyImages (below ++ cache.entries)).Nodup
  rows : cache.RowsSpend

/-! ### Tables after a push -/

/-- Key images that are new to the table, or already have the given index, all get it. -/
theorem BlockchainCache.foldl_addSpentKeyImage (index : Nat) (images : List KeyImage)
    (table : KeyImage → Option Nat) (fresh : ∀ k ∈ images, table k = none ∨ table k = some index) :
    images.foldl (fun table k => addSpentKeyImage table k index) table =
      fun k => if k ∈ images then some index else table k := by
  induction images generalizing table with
  | nil => simp
  | cons image images ih =>
    have first : addSpentKeyImage table image index =
        fun k => if k = image then some index else table k := by
      unfold addSpentKeyImage
      funext k
      by_cases same : k = image
      · subst same
        rcases fresh k mem_cons_self with known | known <;> simp [known]
      · rcases fresh image mem_cons_self with known | known <;> simp [known, same]
    rw [foldl_cons, ih, first]
    · funext k
      by_cases same : k = image
      · simp [same]
      · simp [same]
    · intro k mem
      rw [first]
      by_cases same : k = image
      · exact .inr (if_pos same)
      · simp only [if_neg same]
        exact fresh k (mem_cons_of_mem _ mem)

variable {parents : Lineage} {cache : Cache} {pushed : PushedBlockInfo} {below : List Entry}
  {k : KeyImage}

/-- A push records the new key images under the height of the block. -/
theorem Cache.spentKeyImages_pushBlock (index : Nat)
    (unspent : ∀ k ∈ pushed.spentKeyImages, cache.spentKeyImages k = none)
    (index_eq : pushed.rawBlock.block.getBlockIndex = index)
    (top : cache.isDatabase = true → cache.getTopBlockIndex + 1 = index) :
    (cache.pushBlock parents pushed).spentKeyImages =
      fun k => if k ∈ pushed.spentKeyImages then some index else cache.spentKeyImages k := by
  cases cache with
  | memory cache =>
    simp only [pushBlock, spentKeyImages, BlockchainCache.spentKeyImages_pushBlock,
      index_eq]
    exact BlockchainCache.foldl_addSpentKeyImage index _ _ fun k mem => .inl (unspent k mem)
  | database cache =>
    have top_eq : cache.getTopBlockIndex + 1 = index := by
      have := top rfl
      simpa [getTopBlockIndex, getStartBlockIndex, rawBlocks,
        DatabaseBlockchainCache.getTopBlockIndex] using this
    simp only [pushBlock, spentKeyImages,
      DatabaseBlockchainCache.spentKeyImages_pushBlock, top_eq]
    exact foldl_update _ _ _

theorem Cache.rowsSpend_pushBlock (rows : cache.RowsSpend)
    (images : pushed.spentKeyImages = pushed.rawBlock.keyImages) :
    (cache.pushBlock parents pushed).RowsSpend := by
  cases cache with
  | memory cache => trivial
  | database cache =>
    change ∀ row ∈ (cache.pushBlock pushed).blocks, _
    rw [blocks_pushBlock]
    exact forall_mem_append.2 ⟨rows, forall_mem_singleton.2 images⟩

/-- A block on top of a segment whose key images are new to the chain. -/
theorem SpentOk.pushBlock (ok : SpentOk below cache) (sound : cache.Sound) {info : CachedBlockInfo}
    (appended : (cache.pushBlock parents pushed).entries =
      cache.entries ++ [(pushed.rawBlock, info)])
    (images : pushed.spentKeyImages = pushed.rawBlock.keyImages)
    (index : pushed.rawBlock.block.getBlockIndex = cache.getTopBlockIndex + 1)
    (distinct : (keysOf keyImages (below ++ (cache.entries ++ [(pushed.rawBlock, info)]))).Nodup) :
    SpentOk below (cache.pushBlock parents pushed) := by
  have fresh : ∀ k ∈ pushed.rawBlock.keyImages, k ∉ keysOf keyImages cache.entries := by
    intro k new old
    rw [keysOf_append, keysOf_append] at distinct
    refine (nodup_append.1 (nodup_append.1 distinct).2.1).2.2 k old k ?_ rfl
    rw [keysOf_singleton]
    exact new
  refine ⟨?_, by rwa [appended], rowsSpend_pushBlock ok.rows images⟩
  rw [spentKeyImages_pushBlock (cache.getTopBlockIndex + 1) ?_ index (fun _ => rfl), images,
    appended, getStartBlockIndex_pushBlock, sound.getTopBlockIndex_eq]
  · exact ok.table.concat (e := (pushed.rawBlock, info)) fresh
  · intro k mem
    rw [images] at mem
    exact ok.table.eq_none (fresh k mem)

/-! ### Tables after a split -/

variable {cut index : Nat}

/-- The rebuilt upper half records the key images of the moved rows. -/
theorem DatabaseBlockchainCache.describes_upperSegment {cache : DatabaseBlockchainCache}
    (sound : (Cache.database cache).Sound)
    (rows : ∀ row ∈ cache.blocks, row.spentKeyImages = row.rawBlock.keyImages)
    (distinct : (keysOf keyImages (Cache.database cache).entries).Nodup)
    (pos : 0 < cut) : Describes (fun row : BlockRow => row.rawBlock.keyImages)
      (cache.upperSegment cut).spentKeyImages cut (cache.blocks.drop cut) := by
  have distinct' : (keysOf (fun row : BlockRow => row.rawBlock.keyImages)
      (cache.blocks.drop cut)).Nodup := by
    rw [entries_eq, keysOf_map, ← take_append_drop cut cache.blocks] at distinct
    exact (nodup_parts distinct).2
  refine upperSegment_induction
    (Q := fun done upper => Describes (fun row : BlockRow => row.rawBlock.keyImages)
      upper.spentKeyImages cut done) Describes.nil ?_
  intro done previous row upper ahead described
  obtain ⟨at_row, height⟩ := restored_row sound pos ahead
  obtain ⟨rest, all⟩ := ahead
  have fresh : ∀ k ∈ row.rawBlock.keyImages,
      k ∉ keysOf (fun row : BlockRow => row.rawBlock.keyImages) done := by
    rw [← all, keysOf_append, keysOf_append, keysOf_singleton] at distinct'
    intro k mem old
    exact (nodup_append.1 (nodup_append.1 distinct').1).2.2 k old k mem rfl
  have images : (getPushedBlockInfo previous row).spentKeyImages = row.rawBlock.keyImages :=
    rows row (mem_of_getElem? at_row)
  have table : (upper.pushBlock [.database cache] (getPushedBlockInfo previous row)).spentKeyImages =
      fun k => if k ∈ row.rawBlock.keyImages then some (cut + done.length)
        else upper.spentKeyImages k := by
    rw [BlockchainCache.spentKeyImages_pushBlock, images]
    have index : (getPushedBlockInfo previous row).rawBlock.block.getBlockIndex =
        cut + done.length := height
    rw [index]
    exact BlockchainCache.foldl_addSpentKeyImage _ _ _ fun k mem =>
      .inl (described.eq_none (fresh k mem))
  rw [table]
  exact described.concat fresh

/-- Both halves of a split record the key images of their own blocks. -/
theorem Cache.describes_split {lower upper : Cache} (sound : cache.Sound)
    (table : Describes keyImages cache.spentKeyImages cache.getStartBlockIndex cache.entries)
    (distinct : (keysOf keyImages cache.entries).Nodup) (rows : cache.RowsSpend)
    (above : cache.getStartBlockIndex < cut) (inside : cut ≤ cache.getTopBlockIndex)
    (halves : cache.split cut = some (lower, upper)) :
    Describes keyImages lower.spentKeyImages lower.getStartBlockIndex lower.entries ∧
      Describes keyImages upper.spentKeyImages upper.getStartBlockIndex upper.entries ∧
      lower.RowsSpend ∧ upper.RowsSpend := by
  obtain ⟨lower_eq, upper_eq, lower_start, upper_start, -, -⟩ :=
    split_entries sound above inside halves
  rw [lower_eq, upper_eq, lower_start, upper_start]
  obtain ⟨count, rfl⟩ : ∃ count, cut = cache.getStartBlockIndex + count :=
    ⟨cut - cache.getStartBlockIndex, by omega⟩
  rw [Nat.add_sub_cancel_left]
  cases cache with
  | memory cache =>
    cases halves
    exact ⟨table.filter_lt count, table.filter_ge count, trivial, trivial⟩
  | database cache =>
    simp only [split, Option.map_eq_some_iff] at halves
    obtain ⟨parts, halves, same⟩ := halves
    cases same
    simp only [DatabaseBlockchainCache.split] at halves
    split at halves
    · cases halves
    · cases halves
      simp only [getStartBlockIndex, Nat.zero_add] at above ⊢
      refine ⟨?_, ?_, ?_, trivial⟩
      · have moved : (cache.blocks.drop count).flatMap (·.spentKeyImages) =
            keysOf keyImages ((database cache).entries.drop count) := by
          rw [entries_eq, ← map_drop, keysOf_map, keysOf]
          refine flatMap_congr fun row mem => ?_
          exact rows row (mem_of_mem_drop mem)
        simp only [spentKeyImages, moved]
        exact table.erase distinct count
      · rw [entries_eq, ← map_drop]
        exact Describes.map keyImages _
          (describes_upperSegment sound rows distinct above)
      · intro row mem
        exact rows row (mem_of_mem_take mem)

/-! ### Asking a lineage -/

/-- Key images spent at heights up to `blockIndex` of a chain. -/
def spentUpTo (chain : List Entry) (blockIndex : Nat) : List KeyImage :=
  keysOf keyImages (chain.take (blockIndex + 1))

theorem mem_spentUpTo {chain : List Entry} : k ∈ spentUpTo chain index ↔
      ∃ (p : Nat) (entry : Entry), chain[p]? = some entry ∧ k ∈ entry.keyImages ∧ p ≤ index := by
  rw [spentUpTo, mem_keysOf]
  constructor
  · rintro ⟨p, entry, found, has⟩
    obtain ⟨found, inside⟩ := getElem?_take_eq_some.1 found
    exact ⟨p, entry, found, has, by omega⟩
  · rintro ⟨p, entry, found, has, le⟩
    exact ⟨p, entry, getElem?_take_eq_some.2 ⟨found, by omega⟩, has⟩

/-- A segment that knows the key image answers by the height it knows. -/
theorem spentUpTo_of_known (fits : Fits below cache) (ok : SpentOk below cache) {spentAt : Nat}
    (known : cache.spentKeyImages k = some spentAt) (index : Nat) :
    k ∈ spentUpTo (below ++ cache.entries) index ↔ spentAt ≤ index := by
  obtain ⟨p, entry, found, has, rfl⟩ := (ok.table k spentAt).1 known
  rw [mem_spentUpTo, fits.start]
  have at_p : (below ++ cache.entries)[below.length + p]? = some entry := by
    rw [getElem?_append_right (by omega), Nat.add_sub_cancel_left]
    exact found
  constructor
  · rintro ⟨q, other, at_q, has', le⟩
    -- the key image occurs once on the chain, so this is the same block
    have same := position_unique ok.distinct at_q at_p has' has
    omega
  · intro le
    exact ⟨below.length + p, entry, at_p, has, le⟩

/-- A segment that does not know the key image leaves the answer to the chain below. -/
theorem spentUpTo_of_unknown (ok : SpentOk below cache) (unknown : cache.spentKeyImages k = none)
    (index : Nat) : k ∈ spentUpTo (below ++ cache.entries) index ↔ k ∈ spentUpTo below index := by
  rw [mem_spentUpTo, mem_spentUpTo]
  constructor
  · rintro ⟨p, entry, found, has, le⟩
    by_cases old : p < below.length
    · rw [getElem?_append_left old] at found
      exact ⟨p, entry, found, has, le⟩
    · rw [getElem?_append_right (Nat.le_of_not_lt old)] at found
      have known := (ok.table k _).2 ⟨_, entry, found, has, rfl⟩
      cases unknown.symm.trans known
  · rintro ⟨p, entry, found, has, le⟩
    refine ⟨p, entry, ?_, has, le⟩
    rw [getElem?_append_left (List.getElem?_eq_some_iff.1 found).1]
    exact found

/-- The segments answer for the chain cut at the given height. -/
theorem checkIfSpent_iff (k : KeyImage) (index : Nat) {lineage : Lineage}
    (fits : LineageOk entries Fits lineage) (ok : LineageOk entries SpentOk lineage) :
    (lineage.checkIfSpent k index = true ↔ k ∈ spentUpTo (chainOf entries lineage) index) := by
  induction lineage with
  | nil =>
    simp [Lineage.checkIfSpent, chainOf, spentUpTo]
  | cons cache parents ih =>
    obtain ⟨fits, fitsBelow⟩ := fits
    obtain ⟨ok, okBelow⟩ := ok
    cases cache with
    | database cache =>
      have root : chainOf entries parents = [] := length_eq_zero_iff.1 fits.start.symm
      simp only [Lineage.checkIfSpent, chainOf]
      cases known : cache.spentKeyImages k with
      | none =>
        rw [spentUpTo_of_unknown ok known, root]
        simp [spentUpTo]
      | some spentAt =>
        rw [spentUpTo_of_known fits ok known, decide_eq_true_eq]
    | memory cache =>
      simp only [Lineage.checkIfSpent, chainOf]
      split
      · rename_i lt
        -- the segment is not seen from heights below its first one
        rw [ih fitsBelow okBelow, spentUpTo, spentUpTo, take_append_of_le_length]
        rw [← fits.start]
        exact lt
      · cases known : cache.spentKeyImages k with
        | none =>
          rw [spentUpTo_of_unknown ok known]
          exact ih fitsBelow okBelow
        | some spentAt =>
          rw [spentUpTo_of_known fits ok known, decide_eq_true_eq]

/-! ### Tables along a run -/

namespace Core

variable {env : Env} {order : HashOrder} {now : Nat} {core core' : Core} {raw : RawBlock}
  {seg previous : Nat} {pushed : PushedBlockInfo} {nd : Node Cache}
  {parents : Lineage} {parent : Entry} {result : AddBlockResult} {genesis : CachedBlock}

/-- The chain up to the predecessor with the new block spends no key image twice. -/
theorem distinct_concat {prefixChain : List Entry} (distinct : (keysOf keyImages prefixChain).Nodup)
    (nodup : raw.keyImages.Nodup) (fresh : ∀ k ∈ raw.keyImages, k ∉ keysOf keyImages prefixChain)
    (info : CachedBlockInfo) : (keysOf keyImages (prefixChain ++ [(raw, info)])).Nodup := by
  rw [keysOf_append, keysOf_singleton]
  refine nodup_append.2 ⟨distinct, nodup, ?_⟩
  intro k old k' new same
  exact fresh k' new (same ▸ old)

/-- A committed block with key images that are new to its chain keeps the tables. -/
theorem spentOk_committed (shape : core.Shape) (fitsOk : Consistent entries Fits core.chainsStorage)
    (ok : Consistent entries SpentOk core.chainsStorage)
    (placed : Placed core raw seg previous nd parents parent) (same : pushed.rawBlock = raw)
    (committed : Committed env order now core seg previous pushed core' result)
    (regular : (core.lineage seg).getTopBlockIndex ≠ previous → ¬ core.SharedRoot seg nd)
    (images : pushed.spentKeyImages = raw.keyImages) (nodup : raw.keyImages.Nodup)
    (fresh : ∀ k ∈ raw.keyImages, k ∉ keysOf keyImages (chainTo nd parents previous)) :
    Consistent entries SpentOk core'.chainsStorage := by
  have index := placed.index_pushed same
  have rowImages : pushed.spentKeyImages = pushed.rawBlock.keyImages := by rw [images, same]
  have own := placed.holds shape ok
  have distinctTo : (keysOf keyImages (chainTo nd parents previous)).Nodup :=
    nodup_chainTo own.distinct
  have sound := shape.tree.sound placed.node
  refine (consistent_step shape fitsOk ok placed same committed regular ?_ ?_ ?_).2
  · intro _ _ top chain_eq appended
    apply own.pushBlock sound appended rowImages (by omega)
    have distinct := distinct_concat distinctTo nodup fresh (parent.2.next pushed)
    rw [chain_eq, chainOf, append_assoc] at distinct
    rwa [same]
  · intro lineage _ _ _ entries_eq
    refine ⟨?_, ?_, trivial⟩
    · rw [spentKeyImages_pushBlock (previous + 1) (fun _ _ => rfl) index
        (fun absurdity => Bool.noConfusion absurdity), images, entries_eq,
        getStartBlockIndex_pushBlock]
      exact Describes.nil.concat (e := (raw, parent.2.next pushed)) fun k _ => not_mem_nil
    · rw [entries_eq]
      exact distinct_concat distinctTo nodup fresh _
  · intro lower upper above inside halves whole _
    have distinct := own.distinct
    obtain ⟨lowerTable, upperTable, lowerRows, upperRows⟩ :=
      describes_split sound own.table (nodup_parts distinct).2 own.rows above inside halves
    rw [whole, ← append_assoc] at distinct
    exact ⟨⟨lowerTable, (nodup_parts distinct).1, lowerRows⟩, ⟨upperTable, distinct, upperRows⟩⟩

/-- A block that passes its checks spends each key image once. -/
theorem images_of_checkBlock (passed : core.checkBlock env now raw = .ok (seg, previous, pushed)) :
    pushed.spentKeyImages = raw.keyImages ∧ raw.keyImages.Nodup := by
  obtain ⟨-, -, -, -, -, checked⟩ := checkBlock_ok passed
  obtain ⟨difficulty, fee, state, reward, checks, rfl⟩ := checkOnBranch_ok checked
  obtain ⟨images, nodup, -⟩ := validateBlockTransactions_ok checks.transactions
  exact ⟨images, nodup⟩

section

variable (linear : core.Linear) (ok : Consistent entries SpentOk core.chainsStorage)
  (passed : core.checkBlock env now raw = .ok (seg, previous, pushed))
include linear ok passed

/-- Outside the checkpoint zone the key images of a block that passes its checks are new
to its chain. -/
theorem images_fresh (placed : Placed core raw seg previous nd parents parent)
    (outside : env.checkpoints.isInCheckpointZone raw.block.getBlockIndex = false) :
    ∀ k ∈ raw.keyImages, k ∉ keysOf keyImages (chainTo nd parents previous) := by
  intro k mem spent
  obtain ⟨-, -, -, -, -, checked⟩ := checkBlock_ok passed
  obtain ⟨difficulty, fee, state, reward, checks, rfl⟩ := checkOnBranch_ok checked
  obtain ⟨-, -, each⟩ := validateBlockTransactions_ok checks.transactions
  obtain ⟨tx, tx_mem, image⟩ := mem_flatMap.1 mem
  rw [placed.index] at outside
  have unspent := not_spent_of_expensive (each tx tx_mem).2.1 outside image
  have lineageFits := linear.fits.lineageOk linear.shape.tree.wellFormed seg
  have lineageOk := ok.lineageOk linear.shape.tree.wellFormed seg
  have fits := placed.holds linear.shape linear.fits
  rw [placed.chainTo_eq_take fits, ← placed.lineage] at spent
  have known := (checkIfSpent_iff k previous lineageFits lineageOk).2 spent
  exact Bool.false_ne_true (unspent.symm.trans known)

/-- A block committed outside the checkpoint zone keeps the tables in order. -/
theorem spentOk_checked (keeps : core.KeepsRoot env (.addBlock now raw))
    (outside : env.checkpoints.isInCheckpointZone raw.block.getBlockIndex = false)
    (committed : Committed env order now core seg previous pushed core' result) :
    Consistent entries SpentOk core'.chainsStorage := by
  obtain ⟨nd, parents, parent, placed, same⟩ := linear.shape.placed passed
  obtain ⟨images, nodup⟩ := images_of_checkBlock passed
  exact spentOk_committed linear.shape linear.fits ok placed same
    committed (fun below => placed.not_sharedRoot linear.shape passed below keeps) images nodup
    (images_fresh linear ok passed placed outside)

end

theorem spentOk_genesis (genesis : CachedBlock) :
    SpentOk [] (.database (.addGenesisBlock genesis)) where
  table := by
    intro k i
    constructor
    · rintro ⟨⟩
    · rintro ⟨p, entry, found, has, -⟩
      rw [entries_addGenesisBlock] at found
      cases p with
      | zero =>
        cases found
        cases has
      | succ p => cases found
  distinct := nodup_nil
  rows := forall_mem_singleton.2 rfl

/-- In the checkpoint zone, where key images are not looked up, the call brings no block
that spends one of its chain again. -/
def FreshImages (env : Env) (core : Core) : Call → Prop
  | .addBlock _ raw => env.checkpoints.isInCheckpointZone raw.block.getBlockIndex = true →
      ∀ k ∈ raw.keyImages, k ∉ keysOf keyImages (core.ancestors raw.block.previousBlockHash)
  | .addTransactionToPool _ _ => True
  | .cleanPool _ => True

instance (env : Env) (core : Core) : DecidablePred (core.FreshImages env)
  | .addBlock _ raw => inferInstanceAs (Decidable (_ → ∀ k ∈ raw.keyImages, k ∉ _))
  | .addTransactionToPool _ _ | .cleanPool _ => isTrue trivial

theorem freshImages_of_empty (crypto : Crypto) (core : Core) (call : Call) :
    core.FreshImages ⟨crypto, .empty⟩ call := by
  cases call with
  | addBlock now raw => exact fun inside => absurd inside Bool.false_ne_true
  | addTransactionToPool now raw | cleanPool now => trivial

/-- The tables are in order after every run of calls that keep the root whole and do not
spend a key image again where it is not looked up. -/
theorem spentOk_afterCalls {calls : List Call} (ok : Along (step env order)
      (fun core call => core.KeepsRoot env call ∧ core.FreshImages env call) (load genesis) calls) :
    Consistent entries SpentOk (afterCalls env order genesis calls).chainsStorage := by
  refine consistent_afterCalls (fun _ _ ok => ok.1) (spentOk_genesis genesis) ?_ ok
  intro core core' now raw seg previous pushed result linear spent ok passed committed
  obtain ⟨nd, parents, parent, placed, same⟩ := linear.shape.placed passed
  obtain ⟨images, nodup⟩ := images_of_checkBlock passed
  refine spentOk_committed linear.shape linear.fits spent placed same
    committed (fun below => placed.not_sharedRoot linear.shape passed below ok.1) images nodup ?_
  cases zone : env.checkpoints.isInCheckpointZone raw.block.getBlockIndex with
  | false => exact images_fresh linear spent passed placed zone
  | true =>
    have fresh := ok.2 zone
    rwa [linear.ancestors_of_checkBlock passed placed] at fresh

/-! ### No double spend -/

/-- No path from the genesis block to a leaf spends a key image twice. -/
def NoDoubleSpend (genesis : CachedBlock) (core : Core) : Prop :=
  ∀ leaf ∈ core.chainsLeaves, ∀ path, core.PathTo genesis leaf path →
    (keysOf Entry.keyImages path).Nodup

/-- In every run without checkpoints that never forks inside a database with children,
no branch spends a key image twice. -/
theorem noDoubleSpend_of_keepsRoot (crypto : Crypto) (order : HashOrder) (genesis : CachedBlock)
    (calls : List Call)
    (keeps : Along (step ⟨crypto, .empty⟩ order) (KeepsRoot ⟨crypto, .empty⟩) (load genesis) calls) :
    (afterCalls ⟨crypto, .empty⟩ order genesis calls).NoDoubleSpend genesis := by
  obtain ⟨linear, anchored⟩ := anchored_afterCalls keeps
  have ok := spentOk_afterCalls
    (keeps.mono fun core call kept => ⟨kept, freshImages_of_empty crypto core call⟩)
  intro leaf mem path isPath
  obtain ⟨nd, found⟩ := lt_size_iff.1 (linear.shape.leaves.old leaf mem)
  rw [linear.path_eq_chain anchored mem isPath, chain, linear.shape.tree.wellFormed.chain_eq found]
  exact (ok found).distinct

end Core

namespace Core

open Sample

/-- Two branches that spend the same output. -/
theorem noDoubleSpend_of_keepsRoot_branches :
    (afterCalls env .insertion genesis (calls (trunk 10 ++
      [next 11 10 11 [spend] 10, next 111 10 11 [spend] 10]))
        ).NoDoubleSpend genesis :=
  noDoubleSpend_of_keepsRoot crypto .insertion genesis _ (by decide +kernel)

/-- Spends the genesis output again, with a fee of twenty. -/
def spendAgain : RawTransaction :=
  ⟨200, 5001, some ⟨0, [.key ⟨2980232, [0], 77⟩], [⟨2980212, 3⟩], 0, [1]⟩⟩

/-- The genesis output is spent at height 10; forks at height 11 move that block out of
the database, a fork at height 10 cuts it off, and the block of height 12 spends the
output again. -/
def spentTwice : List RawBlock :=
  trunk 9 ++ [next 10 9 10 [spend] 10, next 11 10 11 [] 0,
    next 111 10 11 [] 0, next 112 10 11 [] 0, next 110 9 10 [] 0,
    next 12 11 12 [spendAgain] 20]

theorem not_noDoubleSpend_spentTwice :
    ¬ (afterCalls env .insertion genesis (calls spentTwice)).NoDoubleSpend
      genesis := by
  intro distinct
  have nodup := distinct 1 (by decide +kernel)
    (blocksNamed (afterCalls env .insertion genesis (calls spentTwice)) (range 13))
    ⟨by decide +kernel, by decide +kernel, by decide +kernel, by decide +kernel, by decide +kernel⟩
  revert nodup
  decide +kernel

end Core

end DeroGold
