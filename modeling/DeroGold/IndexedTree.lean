import DeroGold.GlobalIndexes

/-!
Trees of segments, from the genesis segment on.

`TreeCall` are the operations on a tree of segments with recorded indexes: pushing on a leaf,
opening a child segment, splitting. `IndexIsRank` says of a lineage that the index recorded
for an output is its rank on the chain, and that a lookup from the top leads back to it.

* `indexIsRank_of_orderly`: it holds everywhere as long as a database is only split while it
  has no children and blocks bring new transactions.
* `not_indexIsRank_secondSplit`: a second split of the database leaves the blocks of the
  first one above a hole, with indexes that count the outputs missing below.
-/

namespace DeroGold

open SegmentTree KeyIndex Grouped List TransitionSystem Sample Cache CachedTransaction

/-! ### Trees of segments -/

/-- The two ways to hold the genesis block. -/
inductive RootKind where
  | database
  | memory
  deriving DecidableEq

/-- What the constructor of an in-memory root pushes. -/
def genesisPush (genesis : CachedBlock) : PushedBlockInfo where
  rawBlock := ⟨genesis, []⟩
  spentKeyImages := []
  blockSize := genesis.baseTransaction.binarySize
  generatedCoins := genesis.baseTransaction.transaction.outputs.foldl
    (fun sum output => uint64 (sum + output.amount)) 0
  blockDifficulty := 1

def genesisSegment (genesis : CachedBlock) : RootKind → IndexedSegment
  | .database => ⟨.database (.addGenesisBlock genesis), []⟩
  | .memory => (IndexedSegment.create 0).pushBlock [] (genesisPush genesis)

/-- Segments of a lineage without their records. -/
def cachesOf (segments : List IndexedSegment) : Lineage := segments.map (·.cache)

/-- Operations on the segments of a tree. -/
inductive TreeCall where
  | pushBlock (segment : Nat) (pushed : PushedBlockInfo)
  | createChild (segment : Nat) (pushed : PushedBlockInfo)
  | split (segment splitBlockIndex : Nat)
  deriving DecidableEq

/-- A split in-memory segment hands its children to the upper half. The database keeps its
children and gets the upper half as one more. -/
def splitIn (tree : SegmentTree IndexedSegment) (segment : Nat) (cut : Cache)
    (halves : IndexedSegment × IndexedSegment) : SegmentTree IndexedSegment :=
  match cut with
  | .memory _ => tree.split segment halves.1 halves.2
  | .database _ => (tree.setValue segment halves.1).addChild segment halves.2

def treeStep (tree : SegmentTree IndexedSegment) : TreeCall → SegmentTree IndexedSegment
  | .pushBlock segment pushed =>
    match tree.lineage segment with
    | [] => tree
    | own :: parents => tree.setValue segment (own.pushBlock (cachesOf parents) pushed)
  | .createChild segment pushed =>
    match tree.lineage segment with
    | [] => tree
    | own :: parents =>
      tree.addChild segment ((IndexedSegment.create (own.cache.getTopBlockIndex + 1)).pushBlock
        (cachesOf (own :: parents)) pushed)
  | .split segment splitBlockIndex =>
    match tree.value? segment with
    | none => tree
    | some own =>
      match own.split splitBlockIndex with
      | none => tree
      | some halves => splitIn tree segment own.cache halves

/-- The block goes on top of the segment. -/
def IndexedSegment.ContinuedBy (segment : IndexedSegment) (raw : RawBlock) : Prop :=
  raw.block.getBlockIndex = segment.cache.getTopBlockIndex + 1 ∧
    segment.cache.blockInfos.getLast?.map (·.blockHash) = some raw.block.previousBlockHash

instance (segment : IndexedSegment) (raw : RawBlock) : Decidable (segment.ContinuedBy raw) :=
  inferInstanceAs (Decidable (_ ∧ _))

/-- The numbers of transactions and outputs that the source asserts: their positions are
16-bit numbers. -/
def RawBlock.FitsPositions (raw : RawBlock) : Prop :=
  raw.transactions.length ≤ 65535 ∧
    ∀ tx ∈ raw.allTransactions, tx.transaction.outputs.length ≤ 65535

instance (raw : RawBlock) : Decidable raw.FitsPositions := inferInstanceAs (Decidable (_ ∧ _))

/-- What the operations take for granted: blocks are pushed on segments without children and
continue them, positions in them fit, and both halves of a split get a block. -/
def Proper (tree : SegmentTree IndexedSegment) : TreeCall → Prop
  | .pushBlock segment pushed =>
    pushed.rawBlock.FitsPositions ∧ tree.childrenOf segment = [] ∧
      ∃ own ∈ tree.value? segment, own.ContinuedBy pushed.rawBlock
  | .createChild segment pushed =>
    pushed.rawBlock.FitsPositions ∧ ∃ own ∈ tree.value? segment, own.ContinuedBy pushed.rawBlock
  | .split segment splitBlockIndex =>
    ∃ own ∈ tree.value? segment, own.cache.getStartBlockIndex < splitBlockIndex ∧
      splitBlockIndex ≤ own.cache.getTopBlockIndex

instance (tree : SegmentTree IndexedSegment) : DecidablePred (Proper tree)
  | .pushBlock _ _ => inferInstanceAs (Decidable (_ ∧ _ ∧ ∃ own ∈ tree.value? _, _))
  | .createChild _ _ => inferInstanceAs (Decidable (_ ∧ ∃ own ∈ tree.value? _, _))
  | .split _ _ => inferInstanceAs (Decidable (∃ own ∈ tree.value? _, _))

/-- A database is split only while it has no children, and blocks carry the transactions
they claim, all new to the chain they continue. -/
def Orderly (tree : SegmentTree IndexedSegment) : TreeCall → Prop
  | .pushBlock segment pushed | .createChild segment pushed =>
    Core.FreshOn (tree.chain IndexedSegment.entries segment) pushed.rawBlock
  | .split segment _ =>
    (∃ own ∈ tree.value? segment, own.cache.isDatabase = true) → tree.childrenOf segment = []

instance (tree : SegmentTree IndexedSegment) : DecidablePred (Orderly tree)
  | .pushBlock _ _ | .createChild _ _ => inferInstanceAs (Decidable (Core.FreshOn _ _))
  | .split _ _ => inferInstanceAs (Decidable ((∃ own ∈ tree.value? _, _) → _ = []))

/-! ### Ranks -/

/-- An output of a chain, with what comes before and after it in its transaction, its block
and the chain. -/
structure OutputOn (chain : List RawBlock) where
  before : List RawBlock
  raw : RawBlock
  after : List RawBlock
  earlier : List CachedTransaction
  tx : CachedTransaction
  later : List CachedTransaction
  outputsBefore : List TransactionOutput
  output : TransactionOutput
  outputsAfter : List TransactionOutput
  chain_eq : chain = before ++ raw :: after
  block_eq : raw.allTransactions = earlier ++ tx :: later
  tx_eq : tx.transaction.outputs = outputsBefore ++ output :: outputsAfter

namespace OutputOn

variable {chain : List RawBlock} (place : OutputOn chain)

/-- Amounts of the outputs before it. -/
def preceding : List Amount :=
  (place.before.flatMap RawBlock.allTransactions ++ place.earlier).flatMap
    amounts ++ place.outputsBefore.map (·.amount)

/-- Number of outputs of the same amount before it. -/
def rank : Nat := place.preceding.count place.output.amount

/-- The same output on a longer chain. -/
def extend (rest : List RawBlock) : OutputOn (chain ++ rest) :=
  { place with
    after := place.after ++ rest
    chain_eq := by
      have extended := congrArg (· ++ rest) place.chain_eq
      simpa using extended }

end OutputOn

/-- On a lineage: the index recorded for every output is its rank on the chain up to it, and
a lookup of that index leads to it, unless it is still locked. -/
def IndexIsRank (segments : List IndexedSegment) : Prop :=
  ∀ above own below, segments = above ++ own :: below →
    ∀ place : OutputOn ((chainOf IndexedSegment.entries (own :: below)).map Prod.fst),
      (chainOf IndexedSegment.entries below).length ≤ place.before.length →
      (own.getTransactionGlobalIndexes place.tx.transactionHash).bind
          (fun indexes => indexes[place.outputsBefore.length]?) = some place.rank ∧
        ∀ now blockIndex, (cachesOf segments).getTopBlockIndex ≤ blockIndex →
          (cachesOf segments).extractKeyOutputKeys now place.output.amount blockIndex [place.rank] =
            if (cachesOf segments).isTransactionSpendTimeUnlocked now
              place.tx.transaction.unlockTime blockIndex
            then .ok [place.output.key] else .error .outputLocked

namespace IndexedSegment

/-- A segment in order above the given chain. -/
structure Ok (below : List Entry) (segment : IndexedSegment) : Prop where
  fits : Fits below segment.cache
  outputs : OutputsOk below segment.cache
  infos : segment.cache.InfosOk below
  records : segment.RecordsOk below

variable {own : IndexedSegment} {parents : List IndexedSegment} {pushed : PushedBlockInfo}

theorem chainOf_cachesOf (segments : List IndexedSegment) :
    chainOf Cache.entries (cachesOf segments) = chainOf entries segments :=
  chainOf_map Cache.entries IndexedSegment.cache segments

/-- The three facts about the caches of a lineage. -/
theorem lineageOk_caches {segments : List IndexedSegment} (ok : LineageOk entries Ok segments) :
    LineageOk Cache.entries Fits (cachesOf segments) ∧
      LineageOk Cache.entries OutputsOk (cachesOf segments) ∧
      LineageOk Cache.entries Cache.InfosOk (cachesOf segments) :=
  ⟨.map (ok.mono fun _ _ h => h.fits), .map (ok.mono fun _ _ h => h.outputs),
    .map (ok.mono fun _ _ h => h.infos)⟩

/-- Top entry of a segment, as the block on top of it names it. -/
theorem ContinuedBy.exists_last (continued : own.ContinuedBy pushed.rawBlock)
    (sound : own.cache.Sound) : ∃ last, own.cache.entries.getLast? = some last ∧
      pushed.rawBlock.block.previousBlockHash = last.2.blockHash := by
  obtain ⟨last, top, info⟩ := sound.exists_last
  refine ⟨last, top, ?_⟩
  have named := continued.2
  rw [info] at named
  exact (Option.some.inj named).symm

/-- A new segment with one block above a lineage. -/
theorem ok_create {lineage : Lineage} (lineageFits : LineageOk Cache.entries Fits lineage)
    (lineageOutputs : LineageOk Cache.entries OutputsOk lineage)
    (fits : Fits (chainOf Cache.entries lineage)
      ((create (chainOf Cache.entries lineage).length).pushBlock lineage pushed).cache)
    (index : pushed.rawBlock.block.getBlockIndex = (chainOf Cache.entries lineage).length)
    (distinct : (keysOf Entry.allHashes (chainOf Cache.entries lineage) ++
      pushed.rawBlock.allHashes).Nodup) :
    Ok (chainOf Cache.entries lineage)
      ((create (chainOf Cache.entries lineage).length).pushBlock lineage pushed) := by
  have empty : (Cache.memory (.create (chainOf Cache.entries lineage).length)).InfosOk
    (chainOf Cache.entries lineage) := InfosOk.nil _ _
  refine ⟨fits, outputsOk_create lineageFits lineageOutputs index distinct _,
    infosOk_pushBlock empty _ index, ?_⟩
  intro grown same
  cases same
  refine (RecordsOk.create _ _).pushBlock (positionsOk_create _ _) ?_ (fun amount _ => ?_) ?_
  · rw [length_map]
    exact index
  · exact getKeyOutputsCountForAmount_eq amount _ lineageFits lineageOutputs (Nat.le_add_right _ _)
  · rw [keysOf_append, keysOf_singleton]
    exact (nodup_append.1 distinct).2.1

section

variable (ok : LineageOk entries Ok (own :: parents)) (continued : own.ContinuedBy pushed.rawBlock)
  (fresh : Core.FreshOn (chainOf entries (own :: parents)) pushed.rawBlock)
include ok continued fresh

theorem Ok.pushBlock : Ok (chainOf entries parents) (own.pushBlock (cachesOf parents) pushed) := by
  have here := ok.1
  obtain ⟨last, top, previous⟩ := continued.exists_last here.fits.sound
  obtain ⟨fits, entries_eq⟩ := here.fits.pushBlock top previous (cachesOf parents) continued.1
  have distinct := fresh.nodup here.outputs.distinct
  obtain ⟨lineageFits, lineageOutputs, -⟩ := lineageOk_caches ok
  have top_eq := here.fits.sound.getTopBlockIndex_rawBlocks
  refine ⟨?_, ?_, ?_, ?_⟩
  · rw [cache_pushBlock]
    exact fits
  · rw [cache_pushBlock, ← chainOf_cachesOf]
    refine outputsOk_pushBlock lineageFits lineageOutputs continued.1 fresh.claims ?_
    have chain_eq : chainOf Cache.entries (own.cache :: cachesOf parents) =
        chainOf entries (own :: parents) := chainOf_cachesOf (own :: parents)
    rw [chain_eq]
    exact distinct
  · rw [cache_pushBlock]
    exact infosOk_pushBlock here.infos _ (continued.1.trans top_eq)
  · intro grown same
    obtain ⟨⟨cache⟩ | ⟨cache⟩, recorded⟩ := own
    · cases same
      have height : pushed.rawBlock.block.getBlockIndex =
          ((chainOf entries parents).map Prod.fst).length + cache.storage.length := by
        rw [length_map, ← here.fits.start]
        exact continued.1.trans top_eq
      have raws : (keysOf RawBlock.allHashes (cache.storage ++ [pushed.rawBlock])).Nodup := by
        have storage : cache.storage = (memory cache).entries.map Prod.fst :=
          (map_fst_entries here.fits.sound.aligned).symm
        rw [chainOf, keysOf_append, append_assoc] at distinct
        rw [keysOf_append, keysOf_singleton, storage, keysOf_map_fst]
        exact (nodup_append.1 distinct).2.1
      refine (here.records cache rfl).pushBlock here.outputs.tables height (fun amount _ => ?_) raws
      -- all outputs below the block are counted by the segments below it
      obtain ⟨fits, outputs, -⟩ := lineageOk_caches ok.2
      rw [← chainOf_cachesOf]
      exact getKeyOutputsCountForAmount_eq amount _ fits outputs (Nat.le_add_right _ _)
    · cases same

theorem Ok.create : Ok (chainOf entries (own :: parents))
      ((IndexedSegment.create (own.cache.getTopBlockIndex + 1)).pushBlock
        (cachesOf (own :: parents)) pushed) := by
  have here := ok.1
  obtain ⟨last, top, previous⟩ := continued.exists_last here.fits.sound
  obtain ⟨fits, -⟩ := here.fits.create top previous (cachesOf parents) continued.1
  obtain ⟨lineageFits, lineageOutputs, -⟩ := lineageOk_caches ok
  have chain_eq : chainOf entries parents ++ own.cache.entries =
    chainOf Cache.entries (cachesOf (own :: parents)) := (chainOf_cachesOf (own :: parents)).symm
  have chain_length : own.cache.getTopBlockIndex + 1 =
      (chainOf entries parents ++ own.cache.entries).length := by
    rw [here.fits.sound.getTopBlockIndex_eq, length_append, ← here.fits.start]
  have distinct := fresh.nodup here.outputs.distinct
  have index := continued.1
  rw [← chainOf_cachesOf] at distinct ⊢
  rw [chain_length, chain_eq] at fits index ⊢
  exact ok_create lineageFits lineageOutputs fits index distinct

end

section Split

variable {below : List Entry} {segment : IndexedSegment} {cut : Nat}

theorem Ok.exists_split (ok : Ok below segment) (cut : Nat) :
    ∃ lower upper, segment.split cut = some (lower, upper) ∧
      segment.cache.split cut = some (lower.cache, upper.cache) := by
  obtain ⟨cache | cache, recorded⟩ := segment
  · exact ⟨_, _, rfl, rfl⟩
  · have rows : RowsOk cache := ok.outputs.tables
    have distinct := ok.outputs.distinct_raw ok.fits.sound
    obtain ⟨lower, halves, -⟩ := rows.exists_split (nodup_parts distinct).2 cut
    refine ⟨⟨.database lower, recorded⟩, upperSegment cache cut, ?_, ?_⟩
    · change Option.map _ (cache.split cut) = _
      rw [halves]
      rfl
    · rw [cache_upperSegment, Cache.split, halves]
      rfl

section

variable (ok : Ok below segment) (above : segment.cache.getStartBlockIndex < cut)
  (inside : cut ≤ segment.cache.getTopBlockIndex)
include ok above inside

/-- The records of both halves. -/
theorem Ok.records_split {lower upper : IndexedSegment}
    (halves : segment.split cut = some (lower, upper)) (lower_raw : lower.entries.map Prod.fst =
      segment.cache.rawBlocks.take (cut - segment.cache.getStartBlockIndex)) :
    lower.RecordsOk below ∧ upper.RecordsOk (below ++ lower.entries) := by
  have top_eq := ok.fits.sound.getTopBlockIndex_rawBlocks
  have start := ok.fits.start
  obtain ⟨cache | cache, recorded⟩ := segment
  · simp only [getStartBlockIndex, rawBlocks] at above inside top_eq start lower_raw
    have start' : cache.startIndex = (below.map Prod.fst).length := by
      rw [start, length_map]
    obtain ⟨n, rfl⟩ : ∃ n, cut = (below.map Prod.fst).length + n :=
      ⟨cut - (below.map Prod.fst).length, by omega⟩
    obtain ⟨lowerOk, upperOk⟩ := (ok.records cache rfl).halves start' (n := n) (by omega)
    rw [start', Nat.add_sub_cancel_left] at lower_raw
    cases halves
    constructor
    · intro half same
      cases same
      exact lowerOk
    · intro half same
      cases same
      rw [map_append, lower_raw]
      exact upperOk
  · simp only [getStartBlockIndex, rawBlocks, Nat.sub_zero, length_map,
      ← map_take] at above inside top_eq start lower_raw
    have root : below = [] := length_eq_zero_iff.1 start.symm
    have distinct := ok.outputs.distinct_raw ok.fits.sound
    rw [root, map_nil, nil_append] at distinct
    have upperOk := recordsOk_upperSegment ok.outputs.tables ok.fits.sound distinct above (by omega)
    obtain ⟨parts, -, same⟩ := Option.map_eq_some_iff.1 halves
    cases same
    constructor
    · intro half same
      cases same
    · intro half same
      rw [cache_upperSegment] at same
      cases same
      rw [map_append, lower_raw, root]
      exact upperOk

/-- Splitting a segment in order does not throw, and both halves are in order. -/
theorem Ok.split : ∃ lower upper, segment.split cut = some (lower, upper) ∧
      segment.entries = lower.entries ++ upper.entries ∧ Ok below lower ∧
      Ok (below ++ lower.entries) upper := by
  obtain ⟨lower, upper, halves, parts⟩ := ok.exists_split cut
  obtain ⟨lower_raw, -⟩ := split_rawBlocks ok.fits.sound above inside parts
  obtain ⟨whole, lowerFits, upperFits⟩ := ok.fits.split above inside parts
  obtain ⟨lowerOutputs, upperOutputs⟩ := outputsOk_split ok.fits ok.outputs above inside parts
  obtain ⟨lowerInfos, upperInfos⟩ := infosOk_split ok.fits.sound ok.infos above inside parts
  obtain ⟨lowerRecords, upperRecords⟩ := ok.records_split above inside halves lower_raw
  exact ⟨lower, upper, halves, whole, ⟨lowerFits, lowerOutputs, lowerInfos, lowerRecords⟩,
    ⟨upperFits, upperOutputs, upperInfos, upperRecords⟩⟩

end

end Split

end IndexedSegment

/-! ### Trees of segments in order -/

/-- Every segment of the tree is in order above the chain below it. -/
structure IndexedTreeOk (tree : SegmentTree IndexedSegment) : Prop where
  wellFormed : WellFormed tree
  segments : Consistent IndexedSegment.entries IndexedSegment.Ok tree

theorem ok_genesisSegment {genesis : CachedBlock} {kind : RootKind}
    (index : kind = .memory → genesis.getBlockIndex = 0) : (genesisSegment genesis kind).Ok [] := by
  cases kind with
  | database =>
    refine ⟨⟨sound_addGenesisBlock genesis, rfl, isChain_singleton _⟩,
      Core.outputsOk_genesis genesis, trivial, ?_⟩
    intro cache same
    cases same
  | memory =>
    have height : (genesisPush genesis).rawBlock.block.getBlockIndex = 0 := index rfl
    exact IndexedSegment.ok_create (show LineageOk entries Fits [] from trivial) trivial
      ⟨sound_create_pushBlock height, rfl, isChain_singleton _⟩ height (nodup_singleton _)

namespace IndexedTreeOk

variable {tree : SegmentTree IndexedSegment} {segment : Nat} {own : IndexedSegment}

section

variable (ok : IndexedTreeOk tree)
include ok

/-- A segment of the tree, with its node and its parents. -/
theorem exists_node (found : tree.value? segment = some own) :
    ∃ nd parents, tree.node? segment = some nd ∧ nd.value = own ∧
      tree.lineage segment = own :: parents ∧
      tree.chainBelow IndexedSegment.entries nd.parent = chainOf IndexedSegment.entries parents ∧
      LineageOk IndexedSegment.entries IndexedSegment.Ok (own :: parents) := by
  obtain ⟨nd, node, rfl⟩ := Option.map_eq_some_iff.1 found
  obtain ⟨parents, lineage⟩ : ∃ parents, tree.lineage segment = nd.value :: parents :=
    ⟨_, ok.wellFormed.lineage_eq node⟩
  refine ⟨nd, parents, node, rfl, lineage, (ok.wellFormed.chainBelow_eq node lineage).2, ?_⟩
  rw [← lineage]
  exact ok.segments.lineageOk ok.wellFormed segment

theorem pushBlock {pushed : PushedBlockInfo} (proper : Proper tree (.pushBlock segment pushed))
    (orderly : Orderly tree (.pushBlock segment pushed)) :
    IndexedTreeOk (treeStep tree (.pushBlock segment pushed)) := by
  obtain ⟨-, childless, own, found, continued⟩ := proper
  obtain ⟨nd, parents, node, rfl, lineage, below_eq, lineageOk⟩ := ok.exists_node found
  rw [Orderly, chain, lineage] at orderly
  have pushedOk := IndexedSegment.Ok.pushBlock lineageOk continued orderly
  rw [← below_eq] at pushedOk
  rw [treeStep, lineage]
  exact ⟨ok.wellFormed.setValue _ _, ok.segments.setValue ok.wellFormed childless node pushedOk⟩

theorem createChild {pushed : PushedBlockInfo} (proper : Proper tree (.createChild segment pushed))
    (orderly : Orderly tree (.createChild segment pushed)) :
    IndexedTreeOk (treeStep tree (.createChild segment pushed)) := by
  obtain ⟨-, own, found, continued⟩ := proper
  obtain ⟨nd, parents, node, rfl, lineage, -, lineageOk⟩ := ok.exists_node found
  rw [Orderly, chain, lineage] at orderly
  have createdOk := IndexedSegment.Ok.create lineageOk continued orderly
  have old := lt_size_of_node? node
  rw [treeStep, lineage]
  refine ⟨ok.wellFormed.addChild old _, ok.segments.addChild ok.wellFormed old ?_⟩
  rw [chain, lineage]
  exact createdOk

theorem split {splitBlockIndex : Nat} (proper : Proper tree (.split segment splitBlockIndex))
    (orderly : Orderly tree (.split segment splitBlockIndex)) :
    IndexedTreeOk (treeStep tree (.split segment splitBlockIndex)) := by
  obtain ⟨own, found, above, inside⟩ := proper
  obtain ⟨nd, parents, node, rfl, -, -, -⟩ := ok.exists_node found
  obtain ⟨lower, upper, halves, whole, lowerOk, upperOk⟩ := (ok.segments node).split above inside
  have cut : treeStep tree (.split segment splitBlockIndex) = tree.split segment lower upper := by
    rw [Option.mem_def] at found
    simp only [treeStep, found, halves, splitIn]
    cases kind : nd.value.cache with
    | memory cache => rfl
    | database cache =>
      have childless := orderly ⟨nd.value, found, by rw [kind]; rfl⟩
      exact (split_eq_addChild lower upper childless).symm
  rw [cut]
  exact ⟨ok.wellFormed.split (lt_size_of_node? node) lower upper,
    ok.segments.split ok.wellFormed node whole lowerOk upperOk⟩

theorem step (call : TreeCall) (proper : Proper tree call) (orderly : Orderly tree call) :
    IndexedTreeOk (treeStep tree call) := by
  cases call with
  | pushBlock segment pushed => exact ok.pushBlock proper orderly
  | createChild segment pushed => exact ok.createChild proper orderly
  | split segment cut => exact ok.split proper orderly

end

end IndexedTreeOk

/-- The tree after calls on the genesis segment. -/
def treeAfter (genesis : CachedBlock) (kind : RootKind) (calls : List TreeCall) :
    SegmentTree IndexedSegment :=
  run treeStep (.single (genesisSegment genesis kind)) calls

/-! ### Recorded indexes are ranks -/

/-- What was recorded for a transaction is found again. -/
theorem IndexedSegment.Ok.getTransactionGlobalIndexes {below : List Entry}
    {segment : IndexedSegment} (ok : Ok below segment) {hash : Hash}
    {info : ExtendedTransactionInfo}
    (mem : (hash, info) ∈ recordsFrom (fun amount => (outputsOf amount (below.map Prod.fst)).length)
      (segment.cache.rawBlocks.flatMap RawBlock.allTransactions)) :
    segment.getTransactionGlobalIndexes hash = some (info.amountToKeyIndexes.map Prod.snd) := by
  have distinct := ok.outputs.distinct_raw ok.fits.sound
  have start := ok.fits.start
  obtain ⟨cache | cache, recorded⟩ := segment
  · have records := ok.records cache rfl
    rw [keysOf_append] at distinct
    have hashes : (recorded.map fun record => record.1.transactionHash) =
        keysOf RawBlock.allHashes cache.storage := by
      rw [← map_hash_infosFrom (below.map Prod.fst).length, ← records.infos, map_map]
      rfl
    have pairs : (recorded.map fun record => (record.1.transactionHash, record.2)) =
        (recordsFrom (fun amount => (outputsOf amount (below.map Prod.fst)).length)
          (cache.storage.flatMap RawBlock.allTransactions)).map fun record =>
            (record.1, record.2.amountToKeyIndexes.map Prod.snd) := by
      rw [← zip_map', ← zip_map', hashes, ← map_hash_flatMap, map_fst_recordsFrom]
      congr 1
      exact records.indexes
    have noted : (hash, info.amountToKeyIndexes.map Prod.snd) ∈
        recorded.map fun record => (record.1.transactionHash, record.2) := by
      rw [pairs]
      exact mem_map_of_mem mem
    obtain ⟨record, held, same⟩ := mem_map.1 noted
    rw [Prod.mk.injEq] at same
    have keys : (recorded.map fun record => record.1.transactionHash).Nodup := by
      rw [hashes]
      exact (nodup_append.1 distinct).2.1
    have found : (recorded.find? fun other => other.1.transactionHash == hash) = some record := by
      cases found : recorded.find? fun other => other.1.transactionHash == hash with
      | none => exact absurd (beq_iff_eq.2 same.1) (find?_eq_none.1 found record held)
      | some other =>
        have alike : other.1.transactionHash = hash := by
          simpa using find?_some found
        rw [inj_on_of_nodup_map keys (mem_of_find?_eq_some found) held (alike.trans same.1.symm)]
    change (recorded.find? _).map _ = _
    rw [found, Option.map_some, same.2]
  · have rows : RowsOk cache := ok.outputs.tables
    have root : below = [] := length_eq_zero_iff.1 start.symm
    rw [root] at mem
    change (cache.transactions hash).map _ = _
    rw [(rows.records hash info).2 mem]
    rfl

namespace OutputOn

variable {chain : List RawBlock} (place : OutputOn chain)

/-- Row of the output. -/
def row : KeyOutputRow :=
  ⟨⟨place.before.length, place.earlier.length, place.outputsBefore.length⟩, place.output.key,
    place.tx.transaction.unlockTime⟩

/-- The rank is the place among the outputs of the amount. -/
theorem getElem?_outputsOf :
    (outputsOf place.output.amount chain)[place.rank]? = some place.row := by
  obtain ⟨before, raw, after, earlier, tx, later, outputsBefore, output, outputsAfter, rfl,
    block_eq, tx_eq⟩ := place
  -- the rows before the output, block by block, transaction by transaction
  have split : ∃ earlierRows laterRows, outputsFrom 0 (before ++ raw :: after) =
      earlierRows ++ (output.amount, ⟨⟨before.length, earlier.length, outputsBefore.length⟩,
        output.key, tx.transaction.unlockTime⟩) :: laterRows ∧
      earlierRows.map Prod.fst = (before.flatMap RawBlock.allTransactions ++ earlier).flatMap
        amounts ++ outputsBefore.map (·.amount) := by
    refine ⟨outputsFrom 0 before ++
      (earlier.zipIdx.flatMap (fun tx => tx.1.outputRows before.length tx.2) ++
        outputsBefore.zipIdx.map fun output => (output.1.amount,
          (⟨⟨before.length, earlier.length, output.2⟩, output.1.key,
            tx.transaction.unlockTime⟩ : KeyOutputRow))), ?laterRows, ?rows, ?amounts⟩
    case rows =>
      rw [outputsFrom_append, ← singleton_append, outputsFrom_append, outputsFrom_singleton,
        RawBlock.outputRows, block_eq, zipIdx_append, zipIdx_cons, flatMap_append,
        flatMap_cons, outputRows, tx_eq, zipIdx_append,
        zipIdx_cons, map_append, map_cons]
      simp only [zero_add, append_assoc, cons_append]
      rfl
    case amounts =>
      rw [map_append, map_append, map_fst_outputsFrom, map_fst_outputRows,
        flatMap_append, append_assoc, map_map]
      congr 2
      exact Slice.map_zipIdx_fst TransactionOutput.amount _ 0
  obtain ⟨earlierRows, laterRows, rows_eq, amounts_eq⟩ := split
  rw [outputsOf, rows_eq, rank, preceding, ← amounts_eq]
  exact getElem?_group _ _ _ _

end OutputOn

namespace IndexedSegment

/-- An output of the topmost segment of a lineage, with the blocks of the segment before its
block. -/
theorem exists_own_blocks {chain below own : List RawBlock} (place : OutputOn chain)
    (chain_eq : chain = below ++ own) (inOwn : below.length ≤ place.before.length) :
    ∃ ownBefore, place.before = below ++ ownBefore ∧ own = ownBefore ++ place.raw :: place.after := by
  rcases append_eq_append_iff.1 (chain_eq.symm.trans place.chain_eq) with
    ⟨ownBefore, before, rest⟩ | ⟨more, all, rest⟩
  · exact ⟨ownBefore, before, rest⟩
  · have empty : more = [] := by
      rw [all, length_append] at inOwn
      exact length_eq_zero_iff.1 (by omega)
    rw [empty, append_nil] at all
    rw [empty, nil_append] at rest
    exact ⟨[], by rw [all, append_nil], rest.symm⟩

/-- The index recorded for an output of the segment. -/
theorem Ok.recorded_eq_rank {below : List Entry} {segment : IndexedSegment} (ok : Ok below segment)
    {chain : List RawBlock} (place : OutputOn chain)
    (chain_eq : chain = below.map Prod.fst ++ segment.cache.rawBlocks)
    (inOwn : (below.map Prod.fst).length ≤ place.before.length) :
    (segment.getTransactionGlobalIndexes place.tx.transactionHash).bind
      (fun indexes => indexes[place.outputsBefore.length]?) = some place.rank := by
  obtain ⟨ownBefore, before_eq, own_eq⟩ := exists_own_blocks place chain_eq inOwn
  have txs_eq : segment.cache.rawBlocks.flatMap RawBlock.allTransactions =
      (ownBefore.flatMap RawBlock.allTransactions ++ place.earlier) ++ place.tx ::
        (place.later ++ place.after.flatMap RawBlock.allTransactions) := by
    rw [own_eq, flatMap_append, flatMap_cons, place.block_eq]
    simp only [append_assoc, cons_append]
  -- the record counts the outputs of the transactions before it
  rw [ok.getTransactionGlobalIndexes (by
    rw [txs_eq, recordsFrom_append]
    exact mem_append_right _ mem_cons_self), Option.bind_some, getElem?_map]
  have amounts_eq : place.tx.amounts = place.outputsBefore.map (·.amount) ++
      place.output.amount :: place.outputsAfter.map (·.amount) := by
    rw [amounts, place.tx_eq, map_append, map_cons]
  have numbered := getElem?_number (fun amount => (outputsOf amount (below.map Prod.fst)).length +
      ((ownBefore.flatMap RawBlock.allTransactions ++ place.earlier).flatMap amounts).count amount)
    (place.outputsBefore.map (·.amount)) place.output.amount (place.outputsAfter.map (·.amount))
  rw [← amounts_eq, length_map] at numbered
  rw [numbered, Option.map_some, outputsOf, length_group, map_fst_outputsFrom, OutputOn.rank,
    OutputOn.preceding, before_eq]
  simp only [flatMap_append, count_append, add_assoc]

/-- A lookup of a rank on a whole lineage. -/
theorem extract_rank {segments : List IndexedSegment} (ok : LineageOk entries Ok segments)
    {chain : List RawBlock} (place : OutputOn chain)
    (raws_eq : (chainOf entries segments).map Prod.fst = chain) (now : Nat) {index : Nat}
    (high : (cachesOf segments).getTopBlockIndex ≤ index) :
    (cachesOf segments).extractKeyOutputKeys now place.output.amount index [place.rank] =
      if (cachesOf segments).isTransactionSpendTimeUnlocked now place.tx.transaction.unlockTime
        index
      then .ok [place.output.key] else .error .outputLocked := by
  obtain ⟨fits, outputs, infos⟩ := lineageOk_caches ok
  have found := place.getElem?_outputsOf
  have chain_eq : (chainOf Cache.entries (cachesOf segments)).map Prod.fst = chain := by
    rw [chainOf_cachesOf, raws_eq]
  have reached : ∀ cache ∈ cachesOf segments, cache.getStartBlockIndex ≤ index := by
    cases segments with
    | nil => intro cache mem; cases mem
    | cons own parents =>
      refine starts_le fits (le_trans ?_ high)
      exact Nat.le_sub_one_of_lt (Nat.lt_add_of_pos_right (by
        rw [fits.1.sound.aligned]
        exact length_pos_iff.2 fits.1.sound.nonempty))
  have inside : ∀ globalIndex ∈ [place.rank], globalIndex < (outputsOf place.output.amount
      ((chainOf Cache.entries (cachesOf segments)).map Prod.fst)).length := by
    rw [chain_eq]
    exact forall_mem_singleton.2 (List.getElem?_eq_some_iff.1 found).1
  rw [Lineage.extractKeyOutputKeys, extractKeyOutputs_eq _ _ _ fits outputs infos reached
    (cons_ne_nil _ _) (pairwise_singleton _ _) inside, chain_eq, mapM_cons,
    mapM_nil, spendableKey, found]
  by_cases unlocked : (cachesOf segments).isTransactionSpendTimeUnlocked now
      place.tx.transaction.unlockTime index = true
  · simp only [OutputOn.row, unlocked, if_true]
    rfl
  · simp only [OutputOn.row, unlocked]
    rfl

theorem indexIsRank_of_lineageOk {segments : List IndexedSegment}
    (ok : LineageOk entries Ok segments) : IndexIsRank segments := by
  intro above own below segments_eq place inOwn
  subst segments_eq
  have here := ok.of_append.1
  have raws : (chainOf entries (own :: below)).map Prod.fst =
      (chainOf entries below).map Prod.fst ++ own.cache.rawBlocks := by
    rw [chainOf, map_append]
    congr 1
    exact map_fst_entries here.fits.sound.aligned
  constructor
  · rw [← length_map (f := Prod.fst)] at inOwn
    exact here.recorded_eq_rank place raws inOwn
  · intro now index high
    have whole : (chainOf entries (above ++ own :: below)).map Prod.fst =
        (chainOf entries (own :: below)).map Prod.fst ++ (chainOf entries above).map Prod.fst := by
      rw [chainOf_append, map_append]
    exact extract_rank ok (place.extend _) whole now high

end IndexedSegment

/-! ### Runs -/

/-- In every tree reached by proper and orderly operations, from a database or an in-memory
root, recorded indexes are ranks and lookups lead back, on the lineage of every segment. -/
theorem indexIsRank_of_orderly (genesis : CachedBlock) (kind : RootKind)
    (index : kind = .memory → genesis.getBlockIndex = 0) (calls : List TreeCall)
    (ok : Along treeStep (fun tree call => Proper tree call ∧ Orderly tree call)
      (.single (genesisSegment genesis kind)) calls) (segment : Nat) :
    IndexIsRank ((treeAfter genesis kind calls).lineage segment) := by
  have inOrder : IndexedTreeOk (treeAfter genesis kind calls) :=
    invariant_run (fun _ call kept steps => kept.step call steps.1 steps.2)
      ⟨.single _, .single (ok_genesisSegment index)⟩ ok
  exact IndexedSegment.indexIsRank_of_lineageOk
    (inOrder.segments.lineageOk inOrder.wellFormed segment)

namespace Sample

/-- A transaction with one output of amount 100. -/
def hundred (hash : Nat) : RawTransaction := ⟨200, hash, some ⟨0, [], [⟨100, hash⟩], 0, []⟩⟩

/-- Three blocks above the genesis block, the last two with an output of amount 100. -/
def hundreds : List RawBlock :=
  [next 1 0 1 [] 0, next 2 1 2 [hundred 5002] 0, next 3 2 3 [hundred 5003] 0]

/-- The blocks are pushed on the root, which is then split above height 2. -/
def splitOnce : List TreeCall := hundreds.map (fun raw => .pushBlock 0 (pushed raw)) ++ [.split 0 3]

/-- The root is split once more, at height 2. -/
def splitTwice : List TreeCall := splitOnce ++ [.split 0 2]

end Sample

/-- One split of a database and both halves of an in-memory root, in order. -/
theorem indexIsRank_of_orderly_split :
    IndexIsRank ((treeAfter genesis .database splitOnce).lineage 1) ∧
      IndexIsRank ((treeAfter genesis .memory splitTwice).lineage 1) :=
  ⟨indexIsRank_of_orderly genesis .database (fun same => nomatch same) splitOnce
      (by decide +kernel) 1,
    indexIsRank_of_orderly genesis .memory (fun _ => rfl) splitTwice
      (by decide +kernel) 1⟩

/-- After the second split of the database, block 3 stands directly on block 1: its output is
the first of its amount there and is recorded as the second. -/
theorem not_indexIsRank_secondSplit :
    Along treeStep Proper (.single (genesisSegment genesis .database))
        splitTwice ∧
      ¬ IndexIsRank ((treeAfter genesis .database splitTwice).lineage 1) := by
  refine ⟨by decide +kernel, fun ranks => ?_⟩
  obtain ⟨own, below, lineage_eq, recorded, short, chain_eq⟩ : ∃ own below,
      (treeAfter genesis .database splitTwice).lineage 1 = own :: below ∧
      own.getTransactionGlobalIndexes 5003 = some [1] ∧
      (chainOf IndexedSegment.entries below).length ≤ 2 ∧
      (chainOf IndexedSegment.entries (own :: below)).map Prod.fst =
        [⟨genesis, []⟩, next 1 0 1 [] 0] ++ next 3 2 3 [hundred 5003] 0 :: [] :=
    ⟨_, _, rfl, by decide +kernel, by decide +kernel, by decide +kernel⟩
  have ranked := (ranks [] own below lineage_eq
    { before := [⟨genesis, []⟩, next 1 0 1 [] 0]
      raw := next 3 2 3 [hundred 5003] 0
      after := []
      earlier := [(next 3 2 3 [hundred 5003] 0).block.baseTransaction]
      tx := ⟨⟨0, [], [⟨100, 5003⟩], 0, []⟩, 5003, 200⟩
      later := []
      outputsBefore := []
      output := ⟨100, 5003⟩
      outputsAfter := []
      chain_eq := chain_eq
      block_eq := by decide +kernel
      tx_eq := rfl } short).1
  have first : (((([⟨genesis, []⟩, next 1 0 1 [] 0] : List RawBlock).flatMap
      RawBlock.allTransactions ++
        [(next 3 2 3 [hundred 5003] 0).block.baseTransaction]).flatMap
          amounts ++ []).count 100) = 0 := by decide +kernel
  rw [recorded] at ranked
  have same : some 1 = some 0 := ranked.trans (congrArg some first)
  exact absurd same (by decide)

end DeroGold
