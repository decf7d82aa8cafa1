import DeroGold.DatabaseOutputs
import DeroGold.Split

/-!
`extractKeyOutputs` of the two kinds of segment with any callback.

`Lineage.extractKeyOutputs` of `Cache` looks outputs up for ring signatures. Here the callback is
left open, and what it is told of is recorded together with the result code. The root of a branch
answers from its store.

* `lookupOutputs_eq`: outputs that exist at the block index are handed to the callback one by one,
  wherever the branch is cut into segments.
* `lookupOutputs_agree_iff`: the database never reports an index that does not exist, and neither
  of the two looks at the block of an output; so they agree, and report what they should, exactly
  for indexes of outputs that exist at the block index.
-/

namespace DeroGold

open SegmentTree Grouped Search List Sample BlockchainCache CachedTransaction DatabaseSegment Function

inductive ExtractOutputKeysResult where
  | success
  | invalidGlobalIndex
  | outputLocked
  deriving DecidableEq

/-- What the callback is told of an output: hash and unlock time of its transaction, its place
among the outputs of the transaction, its key and the global index. -/
structure FoundOutput where
  transactionHash : Hash
  unlockTime : Nat
  outputIndex : Nat
  publicKey : PublicKey
  globalIndex : Nat
  deriving DecidableEq

/-- A callback answers for an output and may remember those it was told of before. -/
abbrev OutputCallback := List FoundOutput → FoundOutput → ExtractOutputKeysResult

/-- The outputs that the callback was told of, and the result. -/
abbrev Lookup := List FoundOutput × ExtractOutputKeysResult

/-- The callback is told of outputs until it refuses one. -/
def callEach (callback : OutputCallback) : List FoundOutput → List FoundOutput → Lookup
  | told, [] => (told, .success)
  | told, found :: rest =>
    match callback told found with
    | .success => callEach callback (told ++ [found]) rest
    | ret => (told ++ [found], ret)

/-- What the database hands to the callback for a stored info. -/
def KeyOutputInfo.found (info : KeyOutputInfo) (globalIndex : Nat) : FoundOutput :=
  ⟨info.transactionHash, info.unlockTime, info.outputIndex, info.publicKey, globalIndex⟩

/-- Infos that are found, by ascending global index; `none` is the failed read of no index. -/
def Database.lookupOutputs (database : Database) (callback : OutputCallback) (amount : Amount)
    (globalIndexes : List Nat) (told : List FoundOutput) : Option Lookup :=
  if globalIndexes = [] then none
  else some (callEach callback told
    ((globalIndexes.dedup.insertionSort (· ≤ ·)).filterMap fun globalIndex =>
      (database.outputInfos (amount, globalIndex)).map (·.found globalIndex)))

namespace BlockchainCache

/-- An output of this segment. A global index below the segment's first one wraps around to a
position past every output. -/
def findOwnOutput (cache : BlockchainCache) (own : OutputGlobalIndexesForAmount)
    (globalIndex : Nat) : Option FoundOutput :=
  if globalIndex < own.startIndex then none
  else
    match own.outputs[globalIndex - own.startIndex]? with
    | none => none
    | some position =>
      (cache.transactions.find? fun info => info.blockIndex == position.blockIndex &&
        info.transactionIndex == position.transactionIndex).map fun info =>
          ⟨info.transactionHash, info.unlockTime, position.outputIndex,
            info.outputs[position.outputIndex]?.getD 0, globalIndex⟩

/-- The loop over the indexes from the segment's first one on. -/
def callOwn (callback : OutputCallback) (find : Nat → Option FoundOutput) :
    List FoundOutput → List Nat → Lookup
  | told, [] => (told, .success)
  | told, globalIndex :: rest =>
    match find globalIndex with
    | none => (told, .invalidGlobalIndex)
    | some found =>
      match callback told found with
      | .success => callOwn callback find (told ++ [found]) rest
      | ret => (told ++ [found], ret)

/-- What follows once the parent has answered. -/
def afterParent (rest : List FoundOutput → Lookup) : Option Lookup → Option Lookup
  | some (told, .success) => some (rest told)
  | other => other

end BlockchainCache

open BlockchainCache in
/-- A branch whose root, if it is a database, has the given store. -/
def Lineage.lookupOutputs (store : Database) (callback : OutputCallback) :
    Lineage → Amount → Nat → List Nat → List FoundOutput → Option Lookup
  | [], _, _, _, told => some (told, .invalidGlobalIndex)
  | .database _ :: _, amount, _, globalIndexes, told =>
    store.lookupOutputs callback amount globalIndexes told
  | .memory cache :: parents, amount, blockIndex, globalIndexes, told =>
    match cache.keyOutputsGlobalIndexes amount with
    | none => lookupOutputs store callback parents amount blockIndex globalIndexes told
    | some own =>
      if blockIndex < cache.startIndex then
        lookupOutputs store callback parents amount blockIndex globalIndexes told
      else
        let offset := lowerBound (fun globalIndex => decide (globalIndex < own.startIndex))
          globalIndexes
        afterParent
          (fun told => callOwn callback (cache.findOwnOutput own) told (globalIndexes.drop offset))
          (if offset = 0 then some (told, .success)
          else lookupOutputs store callback parents amount blockIndex (globalIndexes.take offset) told)

/-! ### Outputs with the transactions they belong to -/

/-- Rows of outputs together with the hashes of their transactions. -/
def tracedFrom (start : Nat) (blocks : List RawBlock) : List (Amount × KeyOutputRow × Hash) :=
  (blocks.zipIdx start).flatMap fun block => block.1.allTransactions.zipIdx.flatMap fun tx =>
    (tx.1.outputRows block.2 tx.2).map fun row => (row.1, row.2, tx.1.transactionHash)

/-- The output that has a global index on a chain. -/
def foundOn (amount : Amount) (chain : List RawBlock) (globalIndex : Nat) : Option FoundOutput :=
  (outputInfosOf amount chain)[globalIndex]?.map (·.found globalIndex)

theorem map_tracedFrom (start : Nat) (blocks : List RawBlock) :
    (tracedFrom start blocks).map (fun row => (row.1, row.2.1)) = outputsFrom start blocks := by
  simp only [tracedFrom, outputsFrom, RawBlock.outputRows, map_flatMap, map_map,
    comp_def, Prod.mk.eta, map_id']

/-- What the database stores for a traced row. -/
def tracedInfo (row : KeyOutputRow × Hash) : KeyOutputInfo :=
  ⟨row.1.publicKey, row.2, row.1.unlockTime, row.1.position.outputIndex⟩

theorem map_tracedInfo_tracedFrom (start : Nat) (blocks : List RawBlock) :
    (tracedFrom start blocks).map (fun row => (row.1, tracedInfo row.2)) =
      outputInfosFrom blocks := by
  have own : ∀ (tx : CachedTransaction) index place, (tx.outputRows index place).map
      (fun row => (row.1, tracedInfo (row.2, tx.transactionHash))) = tx.outputInfos := by
    simp [outputRows, outputInfos, tracedInfo]
  simp only [tracedFrom, map_flatMap, map_map, comp_def, own, Slice.flatMap_zipIdx_fst outputInfos]
  rw [outputInfosFrom, flatMap_assoc, ← Slice.flatMap_zipIdx_fst _ blocks start]

variable {blocks below : List RawBlock} {amount : Amount} {index globalIndex : Nat}

/-- Every traced row names the transaction at its position, and describes its output. -/
theorem exists_of_mem_tracedFrom {start : Nat} {row : KeyOutputRow} {hash : Hash}
    (mem : (amount, row, hash) ∈ tracedFrom start blocks) :
    ∃ (p : Nat) (raw : RawBlock) (tx : CachedTransaction) (output : TransactionOutput),
      blocks[p]? = some raw ∧ row.position.blockIndex = start + p ∧
      raw.allTransactions[row.position.transactionIndex]? = some tx ∧ tx.transactionHash = hash ∧
      tx.transaction.outputs[row.position.outputIndex]? = some output ∧
      output.key = row.publicKey ∧ tx.transaction.unlockTime = row.unlockTime := by
  simp only [tracedFrom, outputRows, mem_flatMap, mem_map, Prod.exists, Prod.mk.injEq] at mem
  obtain ⟨raw, index, at_raw, tx, i, at_tx, _, _, ⟨output, j, at_j, rfl, rfl⟩, rfl, rfl, rfl⟩ := mem
  obtain ⟨le, at_raw⟩ := mem_zipIdx_iff_le_and_getElem?_sub.1 at_raw
  exact ⟨index - start, raw, tx, output, at_raw, by simp only; omega,
    mem_zipIdx_iff_getElem?.1 at_tx, rfl, mem_zipIdx_iff_getElem?.1 at_j, rfl, rfl⟩

theorem group_outputsFrom_eq_traced (amount : Amount) (start : Nat) (blocks : List RawBlock) :
    group amount (outputsFrom start blocks) =
      (group amount (tracedFrom start blocks)).map Prod.fst := by
  rw [← map_tracedFrom]
  exact group_map Prod.fst amount _

theorem outputInfosOf_eq_traced (amount : Amount) (start : Nat) (blocks : List RawBlock) :
    outputInfosOf amount blocks = (group amount (tracedFrom start blocks)).map tracedInfo := by
  rw [outputInfosOf, ← map_tracedInfo_tracedFrom start]
  exact group_map tracedInfo amount _

theorem length_outputInfosOf (amount : Amount) (chain : List RawBlock) :
    (outputInfosOf amount chain).length = (outputsOf amount chain).length := by
  rw [outputsOf, group_outputsFrom_eq_traced, outputInfosOf_eq_traced amount 0, length_map,
    length_map]

/-- The outputs below stay what they are when blocks are added. -/
theorem foundOn_append_left (inside : index < (outputsOf amount below).length)
    (blocks : List RawBlock) :
    foundOn amount (below ++ blocks) index = foundOn amount below index := by
  rw [← length_outputInfosOf] at inside
  rw [foundOn, foundOn, outputInfosOf_append, getElem?_append_left inside]

/-! ### Handing outputs to the callback -/

theorem callEach_append (callback : OutputCallback) (told xs ys : List FoundOutput) :
    some (callEach callback told (xs ++ ys)) = afterParent
      (fun told => callEach callback told ys) (some (callEach callback told xs)) := by
  induction xs generalizing told with
  | nil => rfl
  | cons found xs ih =>
    rw [cons_append, callEach, callEach]
    cases callback told found with
    | success => exact ih _
    | invalidGlobalIndex | outputLocked => rfl

theorem callEach_success (told found : List FoundOutput) :
    callEach (fun _ _ => .success) told found = (told ++ found, .success) := by
  induction found generalizing told with
  | nil => simp [callEach]
  | cons first rest ih => simp [callEach, ih]

variable {indexes : List Nat} {chain : List RawBlock}

/-- While every output is found, the loop of a segment is a loop over outputs. -/
theorem BlockchainCache.callOwn_eq (callback : OutputCallback) {find : Nat → Option FoundOutput}
    (all : ∀ index ∈ indexes, (find index).isSome = true)
    (told : List FoundOutput) : callOwn callback find told indexes =
      callEach callback told (indexes.filterMap find) := by
  induction indexes generalizing told with
  | nil => rfl
  | cons index rest ih =>
    obtain ⟨found, at_index⟩ := Option.isSome_iff_exists.1 (all index mem_cons_self)
    have later := fun told =>
      ih (forall_mem_cons.1 all).2 told
    rw [callOwn, at_index, filterMap_cons_some at_index, callEach]
    simp only [later]

/-! ### What the segments find -/

/-- A segment finds its own outputs by their numbers on the whole chain. -/
theorem findOwnOutput_eq {cache : BlockchainCache} (segment : cache.Above below)
    (amount : Amount) (above : (outputsOf amount below).length ≤ globalIndex) :
    cache.findOwnOutput (ownTable amount below cache.storage) globalIndex =
      foundOn amount (below ++ cache.storage) globalIndex := by
  have own : outputInfosOf amount (below ++ cache.storage) = outputInfosOf amount below ++
      (group amount (tracedFrom below.length cache.storage)).map tracedInfo := by
    rw [outputInfosOf_append, outputInfosOf_eq_traced amount below.length cache.storage]
  rw [findOwnOutput, if_neg (Nat.not_lt.2 above), foundOn, own,
    ownTable, group_outputsFrom_eq_traced, getElem?_append_right (by rwa [length_outputInfosOf]),
    length_outputInfosOf, map_map, getElem?_map, getElem?_map]
  cases found : (group amount (tracedFrom below.length cache.storage))[
      globalIndex - (outputsOf amount below).length]? with
  | none => rfl
  | some row =>
    obtain ⟨row, hash⟩ := row
    obtain ⟨p, raw, tx, output, at_raw, index, at_tx, rfl, at_output, key, unlock⟩ :=
      exists_of_mem_tracedFrom (mem_group.1 (mem_of_getElem? found))
    have at_info := segment.infos.find_at segment.distinct at_raw at_tx
    simp only [Option.map_some, comp_apply, index, at_info, CachedTransactionInfo.of, unlock,
      getElem?_map, at_output, key, Option.getD_some, tracedInfo, KeyOutputInfo.found]

/-- A store finds the outputs of its chain, whatever else is asked for. -/
theorem Database.StoresOutputs.lookupOutputs_eq {store : Database}
    (stores : store.StoresOutputs blocks) (callback : OutputCallback) (amount : Amount)
    (nonempty : indexes ≠ []) (ascending : indexes.Pairwise (· < ·))
    (told : List FoundOutput) : store.lookupOutputs callback amount indexes told =
      some (callEach callback told (indexes.filterMap (foundOn amount blocks))) := by
  rw [Database.lookupOutputs, if_neg nonempty, sorted_of_ascending ascending]
  simp only [stores amount]
  rfl

/-! ### Asking a branch -/

/-- The output exists on the chain, in a block up to the given one. -/
def ExistsUpTo (amount : Amount) (chain : List RawBlock) (blockIndex globalIndex : Nat) : Prop :=
  ∃ row, (outputsOf amount chain)[globalIndex]? = some row ∧ row.position.blockIndex ≤ blockIndex

instance (amount : Amount) (chain : List RawBlock) (blockIndex globalIndex : Nat) :
    Decidable (ExistsUpTo amount chain blockIndex globalIndex) :=
  decidable_of_iff (((outputsOf amount chain)[globalIndex]?.any fun row =>
    decide (row.position.blockIndex ≤ blockIndex)) = true) (by
      simp [ExistsUpTo, Option.any_eq_true])

theorem ExistsUpTo.lt_length (existing : ExistsUpTo amount chain index globalIndex) :
    globalIndex < (outputsOf amount chain).length := by
  obtain ⟨row, found, -⟩ := existing
  exact (List.getElem?_eq_some_iff.1 found).1

/-- An output that exists up to a block below a segment is one of the blocks below. -/
theorem ExistsUpTo.of_append (existing : ExistsUpTo amount (below ++ blocks) index globalIndex)
    (low : globalIndex < (outputsOf amount below).length ∨ index < below.length) :
    ExistsUpTo amount below index globalIndex := by
  obtain ⟨row, found, reached⟩ := existing
  rw [outputsOf_append] at found
  rcases Nat.lt_or_ge globalIndex (outputsOf amount below).length with inside | above
  · rw [getElem?_append_left inside] at found
    exact ⟨row, found, reached⟩
  · rw [getElem?_append_right above] at found
    have placed := blockIndex_of_mem_group (mem_of_getElem? found)
    omega

namespace Lineage

/-- If the root is a database, the store lists the outputs of its blocks. -/
def RootStored (store : Database) (lineage : Lineage) : Prop :=
  ∀ cache, Cache.database cache ∈ lineage → store.StoresOutputs (cache.blocks.map (·.rawBlock))

/-- Outputs that exist at the block index are handed to the callback one by one, wherever the
branch is cut into segments. -/
theorem lookupOutputs_eq (store : Database) (callback : OutputCallback) (amount : Amount)
    (index : Nat) {lineage : Lineage} {indexes : List Nat} (told : List FoundOutput)
    (ok : lineage.InOrder) (root : lineage.RootStored store) (nonempty : indexes ≠ [])
    (ascending : indexes.Pairwise (· < ·))
    (existing : ∀ globalIndex ∈ indexes, ExistsUpTo amount lineage.raws index globalIndex) :
    lineage.lookupOutputs store callback amount index indexes told =
      some (callEach callback told (indexes.filterMap (foundOn amount lineage.raws))) := by
  induction lineage generalizing indexes told with
  | nil =>
    obtain ⟨first, mem⟩ := exists_mem_of_ne_nil _ nonempty
    exact absurd (existing first mem).lt_length (Nat.not_lt_zero _)
  | cons cache parents ih =>
    have okBelow := ok.parents
    obtain ⟨⟨fits, whole⟩, ⟨outputs, -⟩, ⟨infos, -⟩, -⟩ := ok
    have rootBelow : RootStored store parents := fun other mem =>
      root other (mem_cons_of_mem _ mem)
    cases cache with
    | database cache =>
      rw [Whole.raws_database ⟨fits, whole⟩]
      exact (root cache mem_cons_self).lookupOutputs_eq callback amount nonempty ascending told
    | memory cache =>
      have own : cache.Above (raws parents) := above fits outputs infos
      have whole_eq : raws (.memory cache :: parents) = raws parents ++ cache.storage :=
        raws_cons fits.sound
      rw [whole_eq] at existing ⊢
      -- where the segment has no part in it, the parents are asked
      have passed : ∀ {part : List Nat}, part.Sublist indexes → part ≠ [] →
          (∀ globalIndex ∈ part,
            globalIndex < (outputsOf amount (raws parents)).length ∨ index < (raws parents).length) →
          lookupOutputs store callback parents amount index part told =
            some (callEach callback told
              (part.filterMap (foundOn amount (raws parents ++ cache.storage)))) := by
        intro part asked nonempty low
        have existingBelow := fun globalIndex mem =>
          (existing globalIndex (asked.subset mem)).of_append (low globalIndex mem)
        rw [ih told okBelow rootBelow nonempty (ascending.sublist asked) existingBelow]
        congr 2
        refine filterMap_congr fun globalIndex mem => ?_
        exact (foundOn_append_left (existingBelow globalIndex mem).lt_length _).symm
      rw [lookupOutputs]
      rcases own.positions.cases amount with ⟨held, same⟩ | held
      · rw [held]
        refine passed (.refl _) nonempty fun globalIndex mem => .inl ?_
        have inside := (existing globalIndex mem).lt_length
        rwa [same] at inside
      · rw [held]
        dsimp only
        by_cases low : index < cache.startIndex
        · rw [if_pos low]
          exact passed (.refl _) nonempty fun _ _ => .inr (own.start ▸ low)
        · rw [if_neg low]
          obtain ⟨lows, highs⟩ := lowerBound_ascending ascending (outputsOf amount (raws parents)).length
          generalize lowerBound (fun globalIndex =>
            decide (globalIndex < (outputsOf amount (raws parents)).length)) indexes = offset
            at lows highs ⊢
          have fromOwn : ∀ told, callOwn callback (cache.findOwnOutput
                (ownTable amount (raws parents) cache.storage)) told (indexes.drop offset) =
              callEach callback told ((indexes.drop offset).filterMap
                (foundOn amount (raws parents ++ cache.storage))) := by
            intro told
            have same : ∀ globalIndex ∈ indexes.drop offset, cache.findOwnOutput _ globalIndex =
                foundOn amount (raws parents ++ cache.storage) globalIndex := fun globalIndex mem =>
              findOwnOutput_eq own amount (highs globalIndex mem)
            rw [callOwn_eq, filterMap_congr same]
            intro globalIndex mem
            rw [same globalIndex mem]
            have inside := (existing globalIndex (mem_of_mem_drop mem)).lt_length
            rw [← length_outputInfosOf] at inside
            simp [foundOn, inside]
          have fromParents : (if offset = 0 then some (told, ExtractOutputKeysResult.success)
              else lookupOutputs store callback parents amount index
                (indexes.take offset) told) =
              some (callEach callback told ((indexes.take offset).filterMap
                (foundOn amount (raws parents ++ cache.storage)))) := by
            by_cases zero : offset = 0
            · rw [if_pos zero, zero]
              rfl
            · rw [if_neg zero]
              exact passed (take_sublist _ _) (by simp [zero, nonempty]) fun globalIndex mem =>
                .inl (lows globalIndex mem)
          simp only [fromOwn, fromParents]
          rw [← callEach_append, ← filterMap_append, take_append_drop]

end Lineage

/-- Both return, with the same result and the same outputs told of for every callback; and while
the callback accepts what it is told of, both report exactly the indexes that do not exist at the
block index. -/
def LookupsAgree (lineage : Lineage) (rootStore store : Database) (amount : Amount)
    (blockIndex : Nat) (globalIndexes : List Nat) : Prop :=
  (∀ callback, ∃ lookup,
    lineage.lookupOutputs rootStore callback amount blockIndex globalIndexes [] = some lookup ∧
    store.lookupOutputs callback amount globalIndexes [] = some lookup) ∧
  ∀ answer ∈
      [lineage.lookupOutputs rootStore (fun _ _ => .success) amount blockIndex globalIndexes [],
        store.lookupOutputs (fun _ _ => .success) amount globalIndexes []],
    answer.map Prod.snd = some .invalidGlobalIndex ↔
      ∃ globalIndex ∈ globalIndexes, ¬ ExistsUpTo amount lineage.raws blockIndex globalIndex

/-- The database accepts what it does not find. -/
theorem Database.lookupOutputs_success (store : Database) (amount : Amount) (indexes : List Nat) :
    (store.lookupOutputs (fun _ _ => .success) amount indexes []).map Prod.snd ≠
      some .invalidGlobalIndex := by
  rw [Database.lookupOutputs]
  split
  · exact nofun
  · rw [callEach_success]
    simp

/-- A chain is held by a database on its own, and by a branch of segments. They agree exactly on
outputs that exist at the block index, if they are asked for any. -/
theorem lookupOutputs_agree_iff {env : DatabaseEnv} {genesis : CachedBlock}
    {segment : DatabaseSegment} {lineage : Lineage} {rootStore : Database}
    (time : genesis.timestamp ≤ maxTime) (ok : lineage.InOrder)
    (root : lineage.RootStored rootStore)
    (built : DatabaseSegment.BuiltBy env genesis segment lineage.raws) (amount : Amount)
    (blockIndex : Nat) {globalIndexes : List Nat} (ascending : globalIndexes.Pairwise (· < ·)) :
    LookupsAgree lineage rootStore segment.database amount blockIndex globalIndexes ↔
      globalIndexes ≠ [] ∧
      ∀ globalIndex ∈ globalIndexes, ExistsUpTo amount lineage.raws blockIndex globalIndex := by
  have stores := built.storesOutputs time
  have silent := segment.database.lookupOutputs_success amount globalIndexes
  constructor
  · rintro ⟨same, reports⟩
    constructor
    · rintro rfl
      obtain ⟨lookup, -, fails⟩ := same fun _ _ => .success
      cases fails
    · intro globalIndex mem
      by_contra missing
      have reported := reports _ (mem_cons_of_mem _ mem_cons_self)
      exact silent (reported.2 ⟨globalIndex, mem, missing⟩)
  · rintro ⟨nonempty, existing⟩
    have same : ∀ callback,
        lineage.lookupOutputs rootStore callback amount blockIndex globalIndexes [] =
          segment.database.lookupOutputs callback amount globalIndexes [] := by
      intro callback
      rw [Lineage.lookupOutputs_eq rootStore callback amount blockIndex [] ok root nonempty ascending
        existing, stores.lookupOutputs_eq callback amount nonempty ascending]
    constructor
    · intro callback
      have found := stores.lookupOutputs_eq callback amount nonempty ascending []
      exact ⟨_, (same callback).trans found, found⟩
    · have all : ¬ ∃ globalIndex ∈ globalIndexes,
          ¬ ExistsUpTo amount lineage.raws blockIndex globalIndex := by
        simpa using existing
      intro answer mem
      have eq : answer =
          segment.database.lookupOutputs (fun _ _ => .success) amount globalIndexes [] := by
        simpa [same] using mem
      rw [eq]
      exact ⟨fun reported => absurd reported silent, fun missing => absurd missing all⟩

namespace Sample

/-- Spends the output of block 12 with a fee that makes the reward the one of block 1. -/
def spendAgain : RawTransaction :=
  ⟨200, 5001, some ⟨0, [.key ⟨2980222, [0], 78⟩], [⟨2978516, 4⟩], 0, [1]⟩⟩

def longerRun : Core := Core.afterCalls env .insertion genesis
  (segmentCalls ++ calls [next 13 12 13 [spendAgain] 1706])

/-- The blocks of the run, without the block beside the segment. -/
def segmentBlocks : List RawBlock :=
  trunk 10 ++ [next 11 10 11 [] 0, next 12 11 12 [spend] 10, next 13 12 13 [spendAgain] 1706]

/-- The store of the root, and one with all blocks. -/
def storeOf (blocks : List RawBlock) : DatabaseSegment :=
  afterCalls databaseEnv genesis (pushes blocks)

theorem builtBy_storeOf (completes : TransitionSystem.Along (step databaseEnv)
      (DatabaseSegment.Completes databaseEnv)
      (create databaseEnv genesis .empty).segment (pushes blocks)) :
    DatabaseSegment.BuiltBy databaseEnv genesis (storeOf blocks) (⟨genesis, []⟩ :: blocks) :=
  ⟨blocks.map pushed, by simpa [pushes, comp_def] using completes,
    by simp [storeOf, pushes, comp_def], by simp [pushed, comp_def]⟩

/-- The branch of the run: a segment of four blocks over a database of ten. -/
theorem longerRun_blocks : longerRun.mainLineage.raws = ⟨genesis, []⟩ :: segmentBlocks ∧
    longerRun.mainLineage.map (fun cache => (cache.getStartBlockIndex, cache.rawBlocks)) =
      [(10, segmentBlocks.drop 9), (0, ⟨genesis, []⟩ :: trunk 9)] := by
  decide +kernel

theorem rootStored_longerRun : longerRun.mainLineage.RootStored (storeOf (trunk 9)).database := by
  intro cache mem
  have listed : (0, cache.blocks.map (·.rawBlock)) ∈ longerRun.mainLineage.map
      fun cache => (cache.getStartBlockIndex, cache.rawBlocks) := mem_map.2 ⟨_, mem, rfl⟩
  have blocks : cache.blocks.map (·.rawBlock) = ⟨genesis, []⟩ :: trunk 9 := by
    simpa [longerRun_blocks.2] using listed
  rw [blocks]
  exact (builtBy_storeOf (by decide +kernel)).storesOutputs (by decide +kernel)

end Sample

/-- The rewards of block 1, in the database, and of block 13, in the segment. -/
theorem lookupOutputs_agree_segment :
    LookupsAgree longerRun.mainLineage (storeOf (trunk 9)).database
      (storeOf segmentBlocks).database 1192092895 13 [0, 1] := by
  obtain ⟨raws, -⟩ := longerRun_blocks
  refine (lookupOutputs_agree_iff (show genesis.timestamp ≤ maxTime by decide +kernel)
    (Core.inOrder_afterCalls (by decide +kernel) longerRun.mainLeaf)
    rootStored_longerRun (raws ▸ builtBy_storeOf (by decide +kernel)) 1192092895 13
    (by decide)).2 ⟨cons_ne_nil _ _, ?_⟩
  decide +kernel

/-- There is no second output of the amount: the segment reports it, the database does not. -/
theorem not_lookupOutputs_agree_missing :
    ¬ LookupsAgree longerRun.mainLineage (storeOf (trunk 9)).database
      (storeOf segmentBlocks).database 2980222 12 [1] ∧
    longerRun.mainLineage.lookupOutputs (storeOf (trunk 9)).database
      (fun _ _ => .success) 2980222 12 [1] [] = some ([], .invalidGlobalIndex) ∧
    (storeOf segmentBlocks).database.lookupOutputs
      (fun _ _ => .success) 2980222 [1] [] = some ([], .success) := by
  refine ⟨fun agree => ?_, by decide +kernel, by decide +kernel⟩
  obtain ⟨lookup, first, second⟩ := agree.1 fun _ _ => .success
  exact absurd (first.trans second.symm) (by decide +kernel)

end DeroGold
