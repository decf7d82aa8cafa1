import DeroGold.Queries
import DeroGold.Paths

/-!
How two nodes find out where their main chains part.

`buildSparseChain` samples the main chain at distances that double, and
`findBlockchainSupplement` looks for the first of such hashes that is on one's own main
chain. Together they find a common block less than twice as far below the requester's top
as the fork (`findsFork_iff`), up to a height of `2 ^ 31`. The argument is about indexes of
the chain only: `findBlock_eq` says that the search of a branch, segment by segment, is a
search of its chain.
-/

namespace DeroGold

open SegmentTree Slice List Option Sample Lineage DeroGold.Core

/-! ### Looking for a block on a branch -/

/-- Index of a block on a branch, asked segment by segment. -/
def Lineage.findBlock : Lineage → Hash → Option Nat
  | [], _ => none
  | cache :: parents, hash =>
    if cache.hasBlock hash then some (cache.getBlockIndex hash) else findBlock parents hash

namespace Core

variable (core : Core)

def findMainChainSegmentContainingBlock (hash : Hash) : Option Nat :=
  core.findIndexInChain hash core.mainLeaf

/-- `none` is the exception thrown when none of the hashes is on the main chain. -/
def findBlockchainSupplement (remoteBlockIds : List Hash) : Option Nat :=
  if remoteBlockIds = [] then some 0
  else remoteBlockIds.findSome? fun hash =>
    (core.findMainChainSegmentContainingBlock hash).map fun segment => core.indexIn segment hash

/-- The answer to a node that asks where its chain continues: the length of the main
chain, the index of the common block, and hashes from there on. -/
def findBlockchainSupplementHashes (remoteBlockIds : List Hash) (maxCount : Nat) :
    Option (Nat × Nat × List Hash) :=
  (core.findBlockchainSupplement remoteBlockIds).map fun startBlockIndex =>
    (core.getTopBlockIndex + 1, startBlockIndex,
      core.mainLineage.getBlockHashes startBlockIndex (maxCount % 2 ^ 32))

def getTopBlockHash : Option Hash :=
  (core.chainsStorage.value? core.mainLeaf).bind fun cache =>
    cache.blockInfos.getLast?.map (·.blockHash)

/-- The distances of the sampled blocks, doubling while they are below the height. They
are 32-bit numbers. `none` if the loop has not ended after that many rounds. -/
def sparseOffsets (blockIndex : Nat) : Nat → Nat → Option (List Nat)
  | 0, _ => none
  | rounds + 1, i =>
    if i < blockIndex then (sparseOffsets blockIndex rounds (i * 2 % 2 ^ 32)).map (i :: ·)
    else some []

/-- `none` if the source throws, or if the loop needs more rounds. -/
def doBuildSparseChain (rounds : Nat) (blockHash : Hash) : Option (List Hash) := do
  let segment ← core.findSegmentContainingBlock blockHash
  let chain := core.lineage segment
  let blockIndex := core.indexIn segment blockHash
  let offsets ← sparseOffsets blockIndex rounds 1
  let sampled ← offsets.mapM fun i => chain.getBlockHash (blockIndex - i)
  let genesisBlockHash ← chain.getBlockHash 0
  some (blockHash :: sampled ++ if blockHash ≠ genesisBlockHash then [genesisBlockHash] else [])

def buildSparseChain (rounds : Nat) : Option (List Hash) :=
  core.getTopBlockHash.bind (core.doBuildSparseChain rounds)

end Core

/-! ### The search on the main chain -/

namespace Lineage

variable {lineage : Lineage}

theorem hashesOf_chain (lineage : Lineage) :
    hashesOf lineage.chain = lineage.infos.map (·.blockHash) := by
  rw [hashesOf, infos, List.map_map]
  rfl

section

variable (whole : lineage.Whole) (distinct : (hashesOf lineage.chain).Nodup)
include whole distinct

/-- Where the hashes differ from each other it does not matter in which order the
segments are asked. -/
theorem findBlock_eq (hash : Hash) :
    lineage.findBlock hash = (hashesOf lineage.chain).idxOf? hash := by
  induction lineage with
  | nil => rfl
  | cons cache parents ih =>
    have start := whole.1.start
    rw [← length_infos] at start
    rw [hashesOf_chain, infos_cons whole.1.sound, map_append] at distinct ⊢
    obtain ⟨below, -, apart⟩ := nodup_append.1 distinct
    rw [← hashesOf_chain] at below apart ⊢
    rw [findBlock, List.idxOf?, findIdx?_append]
    by_cases held : cache.hasBlock hash = true
    · obtain ⟨info, mem, hash_eq⟩ := List.any_eq_true.1 held
      have mem_hashes : hash ∈ cache.blockInfos.map (·.blockHash) :=
        List.mem_map.2 ⟨info, mem, eq_of_beq hash_eq⟩
      have absent : (hashesOf (chain parents)).findIdx? (· == hash) = none := by
        refine findIdx?_eq_none_iff.2 fun other other_mem => beq_eq_false_iff_ne.2 ?_
        exact fun same => apart other other_mem hash mem_hashes same
      rw [if_pos held, absent, none_or, findIdx?_map,
        findIdx?_eq_some_of_exists ⟨info, mem, hash_eq⟩, map_some, hashesOf_chain,
        length_map, ← start, Cache.getBlockIndex, add_comm]
      rfl
    · have absent : (cache.blockInfos.map (·.blockHash)).findIdx? (· == hash) = none := by
        rw [Cache.hasBlock, List.any_eq_true] at held
        refine findIdx?_eq_none_iff.2 fun other other_mem => ?_
        obtain ⟨info, mem, rfl⟩ := List.mem_map.1 other_mem
        by_contra matching
        exact held ⟨info, mem, Bool.eq_true_of_not_eq_false matching⟩
      rw [if_neg held, absent, map_none, or_none, ih whole.2 below]
      rfl

theorem findBlock_of_getElem? {index : Nat} {hash : Hash}
    (found : (hashesOf lineage.chain)[index]? = some hash) :
    lineage.findBlock hash = some index := by
  obtain ⟨inside, rfl⟩ := List.getElem?_eq_some_iff.1 found
  rw [findBlock_eq whole distinct]
  refine idxOf?_eq_some_iff.2 ⟨inside, rfl, fun j earlier same => ?_⟩
  exact absurd (distinct.getElem_inj_iff.1 same) (ne_of_lt earlier)

theorem findBlock_of_not_mem {hash : Hash} (absent : hash ∉ hashesOf lineage.chain) :
    lineage.findBlock hash = none := by
  rw [findBlock_eq whole distinct, List.idxOf?, findIdx?_eq_none_iff]
  intro other mem
  exact beq_eq_false_iff_ne.2 fun same => absent (same ▸ mem)

end

end Lineage

namespace Core

variable {core : Core}

theorem map_find?_segmentHasBlock (core : Core) (hash : Hash) (segments : List Nat) :
    (segments.find? (core.segmentHasBlock hash)).map (fun seg => core.indexIn seg hash) =
      findBlock (segments.filterMap core.chainsStorage.value?) hash := by
  induction segments with
  | nil => rfl
  | cons seg rest ih =>
    cases value : core.chainsStorage.value? seg with
    | none =>
      rw [find?_cons_of_neg (by simp [segmentHasBlock, value]), filterMap_cons_none value, ih]
    | some cache =>
      rw [filterMap_cons_some value, findBlock]
      by_cases held : cache.hasBlock hash = true
      · rw [find?_cons_of_pos (by simpa [segmentHasBlock, value] using held), if_pos held,
          map_some, indexIn_eq value]
      · rw [find?_cons_of_neg (by simpa [segmentHasBlock, value] using held), if_neg held, ih]

/-- The supplement is the index of the first hash that is on the main chain. -/
theorem findBlockchainSupplement_eq (core : Core) {remoteBlockIds : List Hash}
    (nonempty : remoteBlockIds ≠ []) : core.findBlockchainSupplement remoteBlockIds =
      remoteBlockIds.findSome? core.mainLineage.findBlock := by
  rw [findBlockchainSupplement, if_neg nonempty]
  congr 1
  funext hash
  exact core.map_find?_segmentHasBlock hash _

/-- What the answers of a node about its main chain rest on: the chain has no gaps and no
block twice. How it is cut into segments is left open. -/
structure MainWhole (core : Core) : Prop where
  shape : core.Shape
  whole : core.mainLineage.Whole
  distinct : (hashesOf core.mainChain).Nodup

theorem mainWhole_afterCalls {env : Env} {order : HashOrder} {genesis : CachedBlock}
    {calls : List Call}
    (keeps : TransitionSystem.Along (step env order) (KeepsRoot env) (load genesis) calls) :
    (afterCalls env order genesis calls).MainWhole := by
  have linear := linear_afterCalls keeps
  have wf := linear.shape.tree.wellFormed
  obtain ⟨nd, found⟩ := lt_size_iff.1 linear.shape.mainLeaf_lt
  refine ⟨linear.shape, linear.fits.lineageOk wf _, ?_⟩
  rw [mainChain, chain, wf.chain_eq found]
  exact ((anchored_afterCalls keeps).2 found).hashes

namespace MainWhole

section

variable (ok : core.MainWhole)
include ok

theorem exists_leaf : ∃ cache parents, core.chainsStorage.value? core.mainLeaf = some cache ∧
      core.mainLineage = cache :: parents := by
  obtain ⟨nd, found⟩ := lt_size_iff.1 ok.shape.mainLeaf_lt
  refine ⟨nd.value, _, ?_, ok.shape.tree.wellFormed.lineage_eq found⟩
  rw [value?, found]
  rfl

theorem getTopBlockIndex_eq : core.getTopBlockIndex + 1 = core.mainChain.length := by
  obtain ⟨cache, parents, -, lineage_eq⟩ := ok.exists_leaf
  have whole := ok.whole
  change core.mainLineage.getTopBlockIndex + 1 = core.mainLineage.chain.length
  rw [lineage_eq] at whole ⊢
  exact whole.getTopBlockIndex_eq

/-- The hash of the top block is the last of the main chain. -/
theorem getTopBlockHash_eq : ∃ hash, core.getTopBlockHash = some hash ∧
      (hashesOf core.mainChain)[core.getTopBlockIndex]? = some hash := by
  obtain ⟨cache, parents, value, lineage_eq⟩ := ok.exists_leaf
  have whole := ok.whole
  have length_eq := ok.getTopBlockIndex_eq
  rw [lineage_eq] at whole
  obtain ⟨info, last⟩ := isSome_iff_exists.1
    (getLast?_isSome.2 whole.1.sound.nonempty)
  refine ⟨info.blockHash, ?_, ?_⟩
  · rw [getTopBlockHash, value, bind_some, last, map_some]
  · have chain_eq : hashesOf core.mainChain =
        hashesOf (Lineage.chain parents) ++ cache.blockInfos.map (·.blockHash) := by
      change hashesOf core.mainLineage.chain = _
      rw [lineage_eq, hashesOf_chain, infos_cons whole.1.sound, map_append, hashesOf_chain]
    have top_eq : core.getTopBlockIndex = (hashesOf core.mainChain).length - 1 := by
      rw [hashesOf, length_map]
      omega
    rw [top_eq, ← getLast?_eq_getElem?, chain_eq, getLast?_append, getLast?_map,
      last, map_some, some_or]

variable {hash : Hash}

/-- The search for the top block ends in the leaf of the main chain. -/
theorem findIndexInChain_top (top : core.getTopBlockHash = some hash) :
    core.findIndexInChain hash core.mainLeaf = some core.mainLeaf := by
  obtain ⟨cache, parents, value, -⟩ := ok.exists_leaf
  obtain ⟨rest, path_eq⟩ := ok.shape.walk.head_eq
  have held : core.segmentHasBlock hash core.mainLeaf = true := by
    rw [getTopBlockHash, value, bind_some, map_eq_some_iff] at top
    obtain ⟨info, last, rfl⟩ := top
    rw [segmentHasBlock, value, any_some, Cache.hasBlock, List.any_eq_true]
    exact ⟨info, mem_of_getLast? last, beq_self_eq_true _⟩
  rw [findIndexInChain, path_eq]
  exact find?_cons_of_pos held

theorem findSegmentContainingBlock_top (top : core.getTopBlockHash = some hash) :
    core.findSegmentContainingBlock hash = some core.mainLeaf := by
  obtain ⟨leaf, leaves, leaves_eq⟩ := exists_cons_of_ne_nil ok.shape.leaves.nonempty
  have leaf_eq : core.mainLeaf = leaf := by
    rw [mainLeaf, leaves_eq]
    rfl
  rw [findSegmentContainingBlock, leaves_eq, ← leaf_eq, findSome?_cons, ok.findIndexInChain_top top]

theorem indexIn_top (top : core.getTopBlockHash = some hash) :
    core.indexIn core.mainLeaf hash = core.getTopBlockIndex := by
  obtain ⟨last, last_eq, at_top⟩ := ok.getTopBlockHash_eq
  obtain rfl : hash = last := Option.some.inj (top.symm.trans last_eq)
  have found := core.map_find?_segmentHasBlock hash (core.chainsStorage.path core.mainLeaf)
  change (core.findIndexInChain hash core.mainLeaf).map _ = core.mainLineage.findBlock hash at found
  rw [ok.findIndexInChain_top top, findBlock_of_getElem? ok.whole ok.distinct at_top] at found
  exact Option.some.inj found

end

end MainWhole

/-! ### The sparse chain -/

/-- Positions sampled by the loop, with the top and the genesis block around them. -/
def sparsePositions (blockIndex : Nat) (offsets : List Nat) : List Nat :=
  blockIndex :: offsets.map (blockIndex - ·) ++ if blockIndex = 0 then [] else [0]

variable {α : Type} {xs : List α} {index : Nat}

theorem mapM_eq_map {β : Type} {f : α → Option β} {g : α → β}
    (agree : ∀ x ∈ xs, f x = some (g x)) : xs.mapM f = some (xs.map g) := by
  induction xs with
  | nil => rfl
  | cons x xs ih =>
    rw [mapM_cons, agree x mem_cons_self, ih (forall_mem_cons.1 agree).2]
    rfl

theorem findSome?_eq_find? {f : α → Option α} {p : α → Bool}
    (answers : ∀ x ∈ xs, f x = if p x then some x else none) : xs.findSome? f = xs.find? p := by
  induction xs with
  | nil => rfl
  | cons x xs ih =>
    rw [findSome?_cons, answers x mem_cons_self]
    by_cases holds : p x = true
    · rw [if_pos holds, find?_cons_of_pos holds]
    · rw [if_neg holds, find?_cons_of_neg holds]
      exact ih (forall_mem_cons.1 answers).2

/-- The sparse chain holds the hashes of the sampled positions. -/
theorem MainWhole.buildSparseChain_eq (ok : core.MainWhole) {rounds : Nat} {offsets : List Nat}
    (ended : sparseOffsets core.getTopBlockIndex rounds 1 = some offsets) : ∃ hashAt : Nat → Hash,
      (∀ i ≤ core.getTopBlockIndex, (hashesOf core.mainChain)[i]? = some (hashAt i)) ∧
      core.buildSparseChain rounds =
        some ((sparsePositions core.getTopBlockIndex offsets).map hashAt) := by
  have length_eq : _ = (hashesOf core.mainChain).length :=
    ok.getTopBlockIndex_eq.trans (length_map ..).symm
  obtain ⟨top, top_hash, at_top⟩ := ok.getTopBlockHash_eq
  let hashAt : Nat → Hash := fun i => ((hashesOf core.mainChain)[i]?).getD 0
  have hash_at : ∀ i ≤ core.getTopBlockIndex, (hashesOf core.mainChain)[i]? = some (hashAt i) := by
    intro i le_top
    have inside : i < (hashesOf core.mainChain).length := by omega
    simp only [hashAt, getElem?_eq_getElem inside, getD_some]
  have top_eq : top = hashAt core.getTopBlockIndex := by
    have same := hash_at _ (le_refl _)
    rw [at_top] at same
    exact Option.some.inj same
  have asked : ∀ i, core.mainLineage.getBlockHash i = (hashesOf core.mainChain)[i]? := by
    intro i
    change _ = (hashesOf core.mainLineage.chain)[i]?
    rw [getBlockHash_eq ok.whole, hashesOf_chain, getElem?_map]
  refine ⟨hashAt, hash_at, ?_⟩
  rw [buildSparseChain, top_hash, bind_some, doBuildSparseChain,
    ok.findSegmentContainingBlock_top top_hash]
  change (do
    let offsets ← sparseOffsets (core.indexIn core.mainLeaf top) rounds 1
    let sampled ← offsets.mapM fun i =>
      core.mainLineage.getBlockHash (core.indexIn core.mainLeaf top - i)
    let genesisBlockHash ← core.mainLineage.getBlockHash 0
    some (top :: sampled ++ if top ≠ genesisBlockHash then [genesisBlockHash] else [])) = _
  have sampled : offsets.mapM (fun i => core.mainLineage.getBlockHash (core.getTopBlockIndex - i)) =
      some (offsets.map fun i => hashAt (core.getTopBlockIndex - i)) :=
    mapM_eq_map fun i _ => by rw [asked, hash_at _ (Nat.sub_le _ _)]
  rw [ok.indexIn_top top_hash, ended, bind_eq_bind, bind_some, sampled, asked,
    hash_at 0 (Nat.zero_le _), bind_eq_bind, bind_some, bind_some, Option.some.injEq,
    sparsePositions, cons_append, cons_append, map_cons, map_append, List.map_map, ← top_eq]
  congr 2
  by_cases genesis : core.getTopBlockIndex = 0
  · rw [if_pos genesis, top_eq, genesis, if_neg (fun ne => ne rfl)]
    rfl
  · have ne : top ≠ hashAt 0 := by
      intro same
      rw [← Option.some.injEq, ← at_top, ← hash_at 0 (Nat.zero_le _)] at same
      exact genesis ((getElem?_inj (by omega) ok.distinct).1 same)
    rw [if_neg genesis, if_pos ne]
    rfl

/-- The loop ends while the doubled distance fits into 32 bits. -/
theorem sparseOffsets_ends (low : index ≤ 2 ^ 31) (rounds i : Nat) (positive : 0 < i)
    (enough : index ≤ rounds + i) : ∃ offsets, sparseOffsets index (rounds + 1) i = some offsets := by
  induction rounds generalizing i with
  | zero =>
    rw [sparseOffsets, if_neg (by omega)]
    exact ⟨[], rfl⟩
  | succ rounds ih =>
    rw [sparseOffsets]
    split
    · obtain ⟨offsets, ended⟩ := ih (i * 2 % 2 ^ 32) (by omega) (by omega)
      exact ⟨i :: offsets, by rw [ended, map_some]⟩
    · exact ⟨[], rfl⟩

/-- Beyond, the distance becomes zero and stays so. -/
theorem sparseOffsets_zero (high : 0 < index) (rounds : Nat) :
    sparseOffsets index rounds 0 = none := by
  induction rounds with
  | zero => rfl
  | succ rounds ih =>
    rw [sparseOffsets, if_pos high, zero_mul, Nat.zero_mod, ih]
    rfl

theorem sparseOffsets_endless (high : 2 ^ 31 < index) (rounds k : Nat) (le : k ≤ 31) :
    sparseOffsets index rounds (2 ^ k) = none := by
  induction rounds generalizing k with
  | zero => rfl
  | succ rounds ih =>
    have small : 2 ^ k ≤ 2 ^ 31 := Nat.pow_le_pow_right (by decide) le
    rw [sparseOffsets, if_pos (by omega), ← pow_succ]
    rcases Nat.lt_or_eq_of_le le with lt | rfl
    · have smaller : 2 ^ (k + 1) ≤ 2 ^ 31 := Nat.pow_le_pow_right (by decide) lt
      rw [Nat.mod_eq_of_lt (by omega), ih (k + 1) lt]
      rfl
    · rw [Nat.mod_self, sparseOffsets_zero (by omega)]
      rfl

/-- The first sampled position that is not above the fork is less than twice as far from
the top as the fork. The loop invariant is that the distance is. -/
theorem find?_sparse {fork rounds i : Nat} {offsets : List Nat} (low : index ≤ 2 ^ 31)
    (ended : sparseOffsets index rounds i = some offsets) (positive : 0 < i)
    (near : i < 2 * (index - fork)) :
    ∃ s, (offsets.map (index - ·) ++ [0]).find? (· ≤ fork) = some s ∧ s ≤ fork ∧
      (s = 0 ∨ index - s < 2 * (index - fork)) := by
  induction rounds generalizing i offsets with
  | zero => cases ended
  | succ rounds ih =>
    rw [sparseOffsets] at ended
    split at ended
    · rename_i below
      obtain ⟨rest, ended', rfl⟩ := map_eq_some_iff.1 ended
      rw [map_cons, cons_append]
      by_cases reached : index - i ≤ fork
      · rw [find?_cons_of_pos (by simpa using reached)]
        exact ⟨_, rfl, reached, .inr (by omega)⟩
      · rw [find?_cons_of_neg (by simpa using reached)]
        exact ih ended' (by omega) (by omega)
    · rw [← Option.some.inj ended]
      exact ⟨0, by simp, Nat.zero_le _, .inl rfl⟩

/-! ### Two nodes -/

/-- The hash of a block fixes its predecessor: no two of these blocks collide. -/
def HashesCommit (xs ys : List Entry) : Prop :=
  ∀ x ∈ xs, ∀ y ∈ ys, x.1.block.blockHash = y.1.block.blockHash →
    x.1.block.previousBlockHash = y.1.block.previousBlockHash

/-- The chains have the same blocks up to an index, and not at the next. -/
structure AgreeUpTo (fork : Nat) (xs ys : List Entry) : Prop where
  agree : ∀ i ≤ fork, ∃ hash, (hashesOf xs)[i]? = some hash ∧ (hashesOf ys)[i]? = some hash
  differ : ∀ hash, (hashesOf xs)[fork + 1]? = some hash → (hashesOf ys)[fork + 1]? ≠ some hash

namespace MainWhole

variable {core : Core} {i j : Nat}

theorem index_inj (ok : core.MainWhole) {hash : Hash}
    (at_i : (hashesOf core.mainChain)[i]? = some hash)
    (at_j : (hashesOf core.mainChain)[j]? = some hash) : i = j := by
  obtain ⟨inside, -⟩ := List.getElem?_eq_some_iff.1 at_i
  exact (getElem?_inj inside ok.distinct).1 (at_i.trans at_j.symm)

theorem entry_at (ok : core.MainWhole) {hash : Hash}
    (at_i : (hashesOf core.mainChain)[i]? = some hash) :
    ∃ entry, core.mainChain[i]? = some entry ∧ entry.1.block.blockHash = hash := by
  rw [hashesOf, getElem?_map, map_eq_some_iff] at at_i
  obtain ⟨entry, found, rfl⟩ := at_i
  exact ⟨entry, found, (ok.whole.stored entry (mem_of_getElem? found)).hash.symm⟩

theorem predecessor (ok : core.MainWhole) {entry : Entry}
    (found : core.mainChain[i + 1]? = some entry) :
    (hashesOf core.mainChain)[i]? = some entry.1.block.previousBlockHash := by
  obtain ⟨inside, entry_eq⟩ := List.getElem?_eq_some_iff.1 found
  have link := isChain_iff_getElem.1 ok.whole.linked i inside
  rw [hashesOf, getElem?_map, getElem?_eq_getElem (Nat.lt_of_succ_lt inside), map_some, ← entry_eq]
  exact congrArg some link.previous.symm

end MainWhole

section TwoNodes

variable {requester responder : Core} {fork : Nat}

section

variable (mine : requester.MainWhole) (theirs : responder.MainWhole)
  (commit : HashesCommit requester.mainChain responder.mainChain)
include mine theirs commit

/-- A block that both main chains hold has the same index and the same ancestors in both:
going down from it, the predecessors are the same until one chain ends, and only the
common genesis block has no predecessor. -/
theorem common_below {genesis : Hash}
    (genesis_mine : (hashesOf requester.mainChain)[0]? = some genesis)
    (genesis_theirs : (hashesOf responder.mainChain)[0]? = some genesis) (i j : Nat) (hash : Hash)
    (at_mine : (hashesOf requester.mainChain)[i]? = some hash)
    (at_theirs : (hashesOf responder.mainChain)[j]? = some hash) :
    i = j ∧ ∀ k ≤ i, (hashesOf requester.mainChain)[k]? = (hashesOf responder.mainChain)[k]? := by
  induction i generalizing j hash with
  | zero =>
    obtain rfl : genesis = hash := Option.some.inj (genesis_mine.symm.trans at_mine)
    refine ⟨theirs.index_inj genesis_theirs at_theirs, fun k le => ?_⟩
    rw [Nat.le_zero.1 le, genesis_mine, genesis_theirs]
  | succ i ih =>
    cases j with
    | zero =>
      obtain rfl : genesis = hash := Option.some.inj (genesis_theirs.symm.trans at_theirs)
      exact absurd (mine.index_inj at_mine genesis_mine) (Nat.succ_ne_zero i)
    | succ j =>
      obtain ⟨x, found_x, hash_x⟩ := mine.entry_at at_mine
      obtain ⟨y, found_y, hash_y⟩ := theirs.entry_at at_theirs
      have same := commit x (mem_of_getElem? found_x) y (mem_of_getElem? found_y)
        (hash_x.trans hash_y.symm)
      have below_x := mine.predecessor found_x
      have below_y := theirs.predecessor found_y
      rw [← same] at below_y
      obtain ⟨rfl, agree⟩ := ih j _ below_x below_y
      refine ⟨rfl, fun k le => ?_⟩
      rcases Nat.lt_or_eq_of_le le with lt | rfl
      · exact agree k (Nat.le_of_lt_succ lt)
      · rw [at_mine, at_theirs]

/-- The responder finds exactly the requester's blocks up to the fork. -/
theorem findBlock_requested (forked : AgreeUpTo fork requester.mainChain responder.mainChain)
    {i : Nat} {hash : Hash} (asked : (hashesOf requester.mainChain)[i]? = some hash) :
    responder.mainLineage.findBlock hash = if i ≤ fork then some i else none := by
  split
  · rename_i le
    obtain ⟨common, at_mine, at_theirs⟩ := forked.agree i le
    obtain rfl : hash = common := Option.some.inj (asked.symm.trans at_mine)
    exact findBlock_of_getElem? theirs.whole theirs.distinct at_theirs
  · rename_i above
    refine findBlock_of_not_mem theirs.whole theirs.distinct fun mem => ?_
    obtain ⟨j, at_theirs⟩ := mem_iff_getElem?.1 mem
    obtain ⟨genesis, genesis_mine, genesis_theirs⟩ := forked.agree 0 (Nat.zero_le _)
    obtain ⟨rfl, agree⟩ :=
      common_below mine theirs commit genesis_mine genesis_theirs i j hash asked at_theirs
    obtain ⟨inside, -⟩ := List.getElem?_eq_some_iff.1 asked
    have next := getElem?_eq_getElem (show fork + 1 < (hashesOf requester.mainChain).length by omega)
    exact forked.differ _ next (by rw [← agree (fork + 1) (by omega), next])

end

/-- The requester's sparse chain leads the responder to a common block that is not much
farther below the requester's top than the fork, and to its own hashes from there on. -/
def FindsFork (requester responder : Core) (fork maxCount : Nat) : Prop :=
  ∃ rounds sparse s hashes, requester.buildSparseChain rounds = some sparse ∧
    responder.findBlockchainSupplement sparse = some s ∧
    responder.findBlockchainSupplementHashes sparse maxCount =
      some (responder.getTopBlockIndex + 1, s, hashes) ∧
    s ≤ fork ∧ (hashesOf requester.mainChain)[s]? = (hashesOf responder.mainChain)[s]? ∧
    (s = 0 ∨ requester.getTopBlockIndex - s < 2 * max 1 (requester.getTopBlockIndex - fork)) ∧
    hashes = slice (hashesOf responder.mainChain) s (s + maxCount % 2 ^ 32)

variable {index : Nat} {offsets : List Nat}

/-- The first sampled position up to the fork, whether or not the top is one. -/
theorem find?_sparsePositions {rounds : Nat} (low : index ≤ 2 ^ 31)
    (ended : sparseOffsets index rounds 1 = some offsets) (le_top : fork ≤ index) :
    ∃ s, (sparsePositions index offsets).find? (· ≤ fork) = some s ∧ s ≤ fork ∧
      (s = 0 ∨ index - s < 2 * max 1 (index - fork)) := by
  rw [sparsePositions, cons_append]
  by_cases top : index ≤ fork
  · rw [find?_cons_of_pos (by simpa using top)]
    exact ⟨_, rfl, top, .inr (by omega)⟩
  · rw [find?_cons_of_neg (by simpa using top), if_neg (by omega)]
    obtain ⟨s, found, le, near⟩ := find?_sparse low ended Nat.one_pos
      (show 1 < 2 * (index - fork) by omega)
    exact ⟨s, found, le, near.imp_right fun lt => by omega⟩

theorem le_of_mem_sparsePositions {i : Nat}
    (mem : i ∈ sparsePositions index offsets) : i ≤ index := by
  rw [sparsePositions, cons_append, mem_cons, mem_append, List.mem_map] at mem
  rcases mem with rfl | ⟨offset, -, rfl⟩ | mem
  · exact le_refl _
  · exact Nat.sub_le _ _
  · split at mem
    · cases mem
    · rw [mem_singleton.1 mem]
      exact Nat.zero_le _

theorem findsFork_of_low (mine : requester.MainWhole) (theirs : responder.MainWhole)
    (commit : HashesCommit requester.mainChain responder.mainChain)
    (forked : AgreeUpTo fork requester.mainChain responder.mainChain) (maxCount : Nat)
    (low : requester.getTopBlockIndex ≤ 2 ^ 31) : FindsFork requester responder fork maxCount := by
  have length_eq := mine.getTopBlockIndex_eq
  have le_top : fork ≤ requester.getTopBlockIndex := by
    obtain ⟨hash, at_fork, -⟩ := forked.agree fork (le_refl _)
    obtain ⟨inside, -⟩ := List.getElem?_eq_some_iff.1 at_fork
    rw [hashesOf, length_map] at inside
    omega
  obtain ⟨offsets, ended⟩ := sparseOffsets_ends low requester.getTopBlockIndex 1 Nat.one_pos
    (Nat.le_add_right _ _)
  obtain ⟨hashAt, hash_at, sparse_eq⟩ := mine.buildSparseChain_eq ended
  obtain ⟨s, found, le, near⟩ := find?_sparsePositions low ended le_top
  have supplement : responder.findBlockchainSupplement
      ((sparsePositions requester.getTopBlockIndex offsets).map hashAt) = some s := by
    rw [findBlockchainSupplement_eq _ (by simp [sparsePositions]), findSome?_map, ← found]
    refine findSome?_eq_find? fun i mem => ?_
    rw [Function.comp_apply, findBlock_requested mine theirs commit forked
      (hash_at i (le_of_mem_sparsePositions mem))]
    simp only [decide_eq_true_eq]
  refine ⟨_, _, s, _, sparse_eq, supplement, ?_, le, ?_, near, rfl⟩
  · rw [findBlockchainSupplementHashes, supplement, map_some,
      getBlockHashes_eq theirs.whole, Slice.map_slice, ← hashesOf_chain]
    rfl
  · obtain ⟨hash, at_mine, at_theirs⟩ := forked.agree s le
    rw [at_mine, at_theirs]

/-- Above that height there is no sparse chain. -/
theorem not_findsFork_of_high (mine : requester.MainWhole) (maxCount : Nat)
    (high : 2 ^ 31 < requester.getTopBlockIndex) :
    ¬ FindsFork requester responder fork maxCount := by
  rintro ⟨rounds, sparse, s, hashes, built, -⟩
  obtain ⟨top, top_hash, -⟩ := mine.getTopBlockHash_eq
  rw [buildSparseChain, top_hash, bind_some, doBuildSparseChain,
    mine.findSegmentContainingBlock_top top_hash, bind_eq_bind, bind_some,
    mine.indexIn_top top_hash] at built
  have endless := sparseOffsets_endless high rounds 0 (Nat.zero_le _)
  rw [Nat.pow_zero] at endless
  dsimp only at built
  rw [endless] at built
  cases built

/-- The distance between the sampled blocks is kept in 32 bits. As long as its doubling
fits, that is up to a height of `2 ^ 31`, a node finds the fork; above, the loop that
samples the chain does not end. -/
theorem findsFork_iff (requester responder : Core) (fork maxCount : Nat)
    (mine : requester.MainWhole) (theirs : responder.MainWhole)
    (commit : HashesCommit requester.mainChain responder.mainChain)
    (forked : AgreeUpTo fork requester.mainChain responder.mainChain) :
    FindsFork requester responder fork maxCount ↔ requester.getTopBlockIndex ≤ 2 ^ 31 := by
  constructor
  · intro finds
    by_contra high
    exact not_findsFork_of_high mine maxCount (Nat.lt_of_not_le high) finds
  · exact findsFork_of_low mine theirs commit forked maxCount

end TwoNodes

end Core

namespace Sample

/-- Two nodes that agree up to block 3. -/
def ours : Core := afterCalls env .insertion genesis (calls (trunk 6))

def theirs : Core := afterCalls env .insertion genesis
  (calls (trunk 3 ++ [next 104 3 4 [] 0, next 105 104 5 [] 0]))

/-- A node with a fork at height 3: its block 3 is in a segment of its own. -/
def forkedCore : Core := afterCalls env .insertion genesis (calls (trunk 3 ++ [next 103 2 3 [] 0]))

theorem mainWhole_forkedCore : forkedCore.MainWhole := mainWhole_afterCalls (by decide +kernel)

/-- The database after the blocks of the heights `1, …, n` have been pushed. -/
def grown : Nat → Cache
  | 0 => .database (.addGenesisBlock genesis)
  | n + 1 => (grown n).pushBlock [] ⟨next (n + 1) n (n + 1) [] 0, [], 0, 0, 1⟩

/-- A node with these blocks and no others. -/
def long (n : Nat) : Core where
  chainsStorage := .single (grown n)
  chainsLeaves := [0]
  mainChainSet := [0]
  transactionPool := .empty
  blockMedianSize := 0

/-- Each block of the long chain is named by its height. -/
theorem grown_ok (n : Nat) : (grown n).Sound ∧ (grown n).isDatabase = true ∧
    (grown n).getStartBlockIndex = 0 ∧ hashesOf (grown n).entries = List.range (n + 1) := by
  induction n with
  | zero => exact ⟨Cache.sound_addGenesisBlock genesis, rfl, rfl, rfl⟩
  | succ n ih =>
    obtain ⟨sound, db, start, hashes⟩ := ih
    obtain ⟨last, top, lastInfo⟩ := sound.exists_last
    have last_hash : last.2.blockHash = n := by
      have at_top := congrArg List.getLast? hashes
      rw [hashesOf, getLast?_map, top, map_some, range_succ, getLast?_concat] at at_top
      exact Option.some.inj at_top
    have length_eq := congrArg List.length hashes
    rw [hashesOf, length_map, length_range] at length_eq
    have top_eq := sound.getTopBlockIndex_eq
    refine ⟨sound.pushBlock top last_hash.symm ?_, ?_, ?_, ?_⟩
    · change n + 1 = _
      omega
    · rw [grown, Cache.isDatabase_pushBlock, db]
    · rw [grown, Cache.getStartBlockIndex_pushBlock, start]
    · rw [grown, Cache.entries_pushBlock [] _ sound.aligned, hashesOf, map_append,
        range_succ, ← hashes, Cache.nextInfo_eq_next lastInfo]
      rfl

theorem mainChain_long (n : Nat) : (long n).mainChain = (grown n).entries := nil_append _

theorem mainWhole_long (n : Nat) : (long n).MainWhole where
  shape := by
    exact ⟨.single (grown_ok n).1 (grown_ok n).2.1, ⟨cons_ne_nil _ _, nodup_singleton _,
      forall_mem_singleton.2 Nat.one_pos, forall_mem_singleton.2 rfl⟩, rfl⟩
  whole := ⟨⟨(grown_ok n).1, (grown_ok n).2.2.1, (grown_ok n).1.linked⟩, trivial⟩
  distinct := by
    rw [mainChain_long, (grown_ok n).2.2.2]
    exact nodup_range

theorem getTopBlockIndex_long (n : Nat) : (long n).getTopBlockIndex = n := by
  have lengths := congrArg List.length (grown_ok n).2.2.2
  rw [hashesOf, length_map, length_range, ← mainChain_long,
    ← (mainWhole_long n).getTopBlockIndex_eq] at lengths
  exact Nat.succ.inj lengths

end Sample

namespace Core

/-- The two nodes agree up to block 3, and the responder starts at block 2. -/
theorem findsFork_iff_sample : FindsFork ours theirs 3 10 ∧
      ours.buildSparseChain 7 = some [6, 5, 4, 2, 0] ∧
      theirs.findBlockchainSupplementHashes [6, 5, 4, 2, 0] 10 = some (6, 2, [2, 3, 104, 105]) :=
  ⟨(findsFork_iff ours theirs 3 10 (mainWhole_afterCalls (by decide +kernel))
    (mainWhole_afterCalls (by decide +kernel)) (by unfold HashesCommit; decide +kernel)
    ⟨by decide +kernel, by decide +kernel⟩).2 (by decide +kernel), by decide +kernel,
    by decide +kernel⟩

/-- Above a height of `2 ^ 31` a node cannot even ask a node with the same chain. -/
theorem not_findsFork_long : (long (2 ^ 31 + 1)).MainWhole ∧
      HashesCommit (long (2 ^ 31 + 1)).mainChain (long (2 ^ 31 + 1)).mainChain ∧
      AgreeUpTo (2 ^ 31 + 1) (long (2 ^ 31 + 1)).mainChain
        (long (2 ^ 31 + 1)).mainChain ∧
      ¬ FindsFork (long (2 ^ 31 + 1)) (long (2 ^ 31 + 1)) (2 ^ 31 + 1) 10 := by
  generalize height_eq : 2 ^ 31 + 1 = height
  have ok := mainWhole_long height
  have top := getTopBlockIndex_long height
  have hashes : hashesOf (long height).mainChain = List.range (height + 1) := by
    rw [mainChain_long]
    exact (grown_ok height).2.2.2
  refine ⟨ok, ?_, ⟨?_, ?_⟩, not_findsFork_of_high ok 10 (by omega)⟩
  · intro x x_mem y y_mem same
    have stored := ok.whole.stored
    rw [inj_on_of_nodup_map ok.distinct x_mem y_mem
      (by rw [(stored x x_mem).hash, (stored y y_mem).hash, same])]
  · intro i le
    refine ⟨i, ?_, ?_⟩ <;> rw [hashes, getElem?_range (by omega)]
  · intro hash beyond
    rw [hashes, getElem?_eq_none (by rw [length_range])] at beyond
    cases beyond

end Core

end DeroGold
