import DeroGold.Stored

/-!
The chains of a core.

* `Linear`: the segments on a way to the root hold one chain without gaps, no leaf is
  missing from the list, and no hash is stored twice. Kept by calls that do not fork
  inside a database with children (`KeepsRoot`).
* `consistent_step`: the rule by which a fact about a segment and the chain below it
  is carried along such a call.
* `treeOk_of_keepsRoot`: the segment tree of such a run is in order;
  `not_treeOk_secondFork` shows what becomes of it otherwise.
-/

namespace DeroGold

open SegmentTree List TransitionSystem Option Cache

namespace Core

variable {env : Env} {order : HashOrder} {now : Nat} {core core' cut : Core} {raw : RawBlock}
  {seg previous : Nat} {pushed : PushedBlockInfo} {nd : Node Cache}
  {parents : Lineage} {parent : Entry} {result : AddBlockResult}

/-! ### Calls that keep the root whole -/

/-- A block above the given predecessor is to be put inside a database with children. -/
def ForksInsideRoot (core : Core) (segment previous : Nat) : Prop :=
  segment = 0 ∧ (core.lineage segment).getTopBlockIndex ≠ previous ∧
    core.chainsStorage.childrenOf segment ≠ []

instance (core : Core) (segment previous : Nat) :
    Decidable (core.ForksInsideRoot segment previous) :=
  inferInstanceAs (Decidable (_ ∧ _ ∧ _))

/-- The call does not bring a block that passes its checks and forks inside a database
with children. -/
def KeepsRoot (env : Env) (core : Core) : Call → Prop
  | .addBlock now raw => core.WhenChecked env now raw fun segment previous _ =>
    ¬ core.ForksInsideRoot segment previous
  | .addTransactionToPool _ _ => True
  | .cleanPool _ => True

instance (env : Env) (core : Core) : DecidablePred (core.KeepsRoot env)
  | .addBlock now raw => inferInstanceAs (Decidable (core.WhenChecked env now raw _))
  | .addTransactionToPool _ _ | .cleanPool _ => isTrue trivial

theorem Placed.not_sharedRoot (placed : Placed core raw seg previous nd parents parent)
    (shape : core.Shape) (passed : core.checkBlock env now raw = .ok (seg, previous, pushed))
    (below : (core.lineage seg).getTopBlockIndex ≠ previous)
    (keeps : core.KeepsRoot env (.addBlock now raw)) : ¬ core.SharedRoot seg nd := by
  rintro ⟨kind, children⟩
  exact keeps _ _ _ passed ⟨(shape.tree.database placed.node).1 kind, below, children⟩

/-! ### The rule for facts about a segment and the chain below it -/

/-- The chain from the genesis block up to the predecessor of a placed block. -/
def chainTo (nd : Node Cache) (parents : Lineage) (previous : Nat) : List Entry :=
  chainOf Cache.entries parents ++
    nd.value.entries.take (previous + 1 - nd.value.getStartBlockIndex)

theorem Placed.chainTo_of_top (placed : Placed core raw seg previous nd parents parent)
    (shape : core.Shape) (top : (core.lineage seg).getTopBlockIndex = previous) :
    chainTo nd parents previous = chainOf Cache.entries (nd.value :: parents) := by
  rw [placed.getTopBlockIndex_eq] at top
  have top_eq := (shape.tree.sound placed.node).getTopBlockIndex_eq
  rw [chainTo, take_of_length_le (by omega)]
  rfl

end Core

/-! ### Segments without gaps -/

/-- A segment that continues the chain below it. -/
structure Fits (below : List Entry) (cache : Cache) : Prop where
  sound : cache.Sound
  start : cache.getStartBlockIndex = below.length
  linked : (below ++ cache.entries).IsChain Entry.Linked

/-! ### Blocks on top of a segment -/

section OnTop

variable {below : List Entry} {cache : Cache} {pushed : PushedBlockInfo} {last : Entry}

section

variable (fits : Fits below cache) (top : cache.entries.getLast? = some last)
  (previous : pushed.rawBlock.block.previousBlockHash = last.2.blockHash)
include fits top previous

theorem Fits.linked_next :
    (below ++ cache.entries ++ [(pushed.rawBlock, last.2.next pushed)]).IsChain Entry.Linked := by
  refine isChain_append.2 ⟨fits.linked, isChain_singleton _, ?_⟩
  intro entry mem next mem'
  rw [getLast?_append, top, some_or, mem_def, some.injEq] at mem
  rw [head?_cons, mem_def, some.injEq] at mem'
  subst mem mem'
  exact ⟨previous, rfl⟩

theorem Fits.pushBlock (parents : Lineage)
    (index : pushed.rawBlock.block.getBlockIndex = cache.getTopBlockIndex + 1) :
    Fits below (cache.pushBlock parents pushed) ∧
      (cache.pushBlock parents pushed).entries =
        cache.entries ++ [(pushed.rawBlock, last.2.next pushed)] := by
  obtain ⟨last', top', info⟩ := fits.sound.exists_last
  obtain rfl := some.inj (top.symm.trans top')
  have entries_eq := entries_pushBlock parents pushed fits.sound.aligned
  rw [nextInfo_eq_next info] at entries_eq
  refine ⟨⟨fits.sound.pushBlock top previous index, ?_, ?_⟩, entries_eq⟩
  · rw [getStartBlockIndex_pushBlock]
    exact fits.start
  · rw [entries_eq, ← append_assoc]
    exact fits.linked_next top previous

/-- The first block of a segment opened above another. -/
theorem Fits.create (rest : Lineage)
    (index : pushed.rawBlock.block.getBlockIndex = cache.getTopBlockIndex + 1) :
    Fits (below ++ cache.entries)
        ((Cache.memory (.create (cache.getTopBlockIndex + 1))).pushBlock (cache :: rest) pushed) ∧
      ((Cache.memory (.create (cache.getTopBlockIndex + 1))).pushBlock
        (cache :: rest) pushed).entries = [(pushed.rawBlock, last.2.next pushed)] := by
  have top_eq := fits.sound.getTopBlockIndex_eq
  have nonempty : 0 < cache.entries.length := length_pos_of_mem (mem_of_getLast? top)
  have last_at : cache.entries[cache.getTopBlockIndex - cache.getStartBlockIndex]? = some last := by
    rw [← top, getLast?_eq_getElem?]
    congr 1
    omega
  have entries_eq : ((memory (.create (cache.getTopBlockIndex + 1))).pushBlock
      (cache :: rest) pushed).entries = [(pushed.rawBlock, last.2.next pushed)] :=
    entries_create_pushBlock fits.sound (by omega) last_at index _
  refine ⟨⟨sound_create_pushBlock index, ?_, ?_⟩, entries_eq⟩
  · rw [getStartBlockIndex_pushBlock, length_append, ← fits.start]
    exact top_eq
  · rw [entries_eq]
    exact fits.linked_next top previous

end

/-- Both halves of a split fit. -/
theorem Fits.split {lower upper : Cache} {cut : Nat} (fits : Fits below cache)
    (above : cache.getStartBlockIndex < cut) (inside : cut ≤ cache.getTopBlockIndex)
    (halves : cache.split cut = some (lower, upper)) :
    cache.entries = lower.entries ++ upper.entries ∧ Fits below lower ∧
      Fits (below ++ lower.entries) upper := by
  obtain ⟨lower_eq, upper_eq, lower_start, upper_start, -, -⟩ :=
    split_entries fits.sound above inside halves
  obtain ⟨lower_sound, upper_sound⟩ := fits.sound.split above inside halves
  have whole : cache.entries = lower.entries ++ upper.entries := by
    rw [lower_eq, upper_eq, take_append_drop]
  have linked := fits.linked
  rw [whole, ← append_assoc] at linked
  refine ⟨whole, ⟨lower_sound, lower_start.trans fits.start, linked.left_of_append⟩,
    ⟨upper_sound, ?_, linked⟩⟩
  have top_eq := fits.sound.getTopBlockIndex_eq
  have start := fits.start
  rw [upper_start, length_append, lower_eq, length_take]
  omega

end OnTop

namespace Core

variable {env : Env} {order : HashOrder} {now : Nat} {core core' : Core} {raw : RawBlock}
  {seg previous : Nat} {pushed : PushedBlockInfo} {nd : Node Cache}
  {parents : Lineage} {parent : Entry} {result : AddBlockResult}

namespace Placed

variable (placed : Placed core raw seg previous nd parents parent)
  (fits : Fits (chainOf Cache.entries parents) nd.value)

include placed fits

theorem length_chainTo : (chainTo nd parents previous).length = previous + 1 := by
  have start := fits.start
  have start_le := placed.start_le
  have le_top := placed.le_top
  have top_eq := fits.sound.getTopBlockIndex_eq
  rw [chainTo, length_append, length_take]
  omega

theorem chainTo_eq_take : chainTo nd parents previous =
      (chainOf entries (nd.value :: parents)).take (previous + 1) := by
  have start := fits.start
  have start_le := placed.start_le
  rw [chainOf, take_append, take_of_length_le (by omega), ← start]
  rfl

theorem getElem?_chainTo : (chainTo nd parents previous)[previous]? = some parent := by
  have start := fits.start
  have start_le := placed.start_le
  rw [chainTo, getElem?_append_right (by omega), getElem?_take, if_pos (by omega), ← start]
  exact placed.parent_at

theorem getLast?_chainTo : (chainTo nd parents previous).getLast? = some parent := by
  rw [getLast?_eq_getElem?, placed.length_chainTo fits]
  exact placed.getElem?_chainTo fits

/-- The new segment of a fork holds the new entry and fits. -/
theorem newSegment {lineage : Lineage} (ok : LineageOk entries Fits lineage)
    (chain_eq : chainOf entries lineage = chainTo nd parents previous)
    (same : pushed.rawBlock = raw) :
    Fits (chainTo nd parents previous)
        ((Cache.memory (.create (previous + 1))).pushBlock lineage pushed) ∧
      ((Cache.memory (.create (previous + 1))).pushBlock lineage pushed).entries =
        [(raw, parent.2.next pushed)] := by
  have length_eq := placed.length_chainTo fits
  have last := placed.getLast?_chainTo fits
  subst same
  rw [← chain_eq] at length_eq last ⊢
  cases lineage with
  | nil => cases length_eq
  | cons head rest =>
    obtain ⟨headFits, -⟩ := ok
    obtain ⟨own, own_last, -⟩ := headFits.sound.exists_last
    have top_eq := headFits.sound.getTopBlockIndex_eq
    have start := headFits.start
    rw [chainOf, length_append] at length_eq
    rw [chainOf, getLast?_append, own_last, some_or, some.injEq] at last
    subst last
    obtain rfl : head.getTopBlockIndex = previous := by omega
    exact headFits.create own_last placed.previous rest placed.index

theorem fits_pushBlock (shape : core.Shape) (same : pushed.rawBlock = raw)
    (top : (core.lineage seg).getTopBlockIndex = previous) :
    Fits (chainOf entries parents) (nd.value.pushBlock parents pushed) := by
  subst same
  refine (fits.pushBlock (placed.getLast?_entries shape top) placed.previous parents ?_).1
  rw [placed.index, ← top, placed.getTopBlockIndex_eq]

end Placed

/-- The rule for a fact about a segment and the chain below it, next to the segments' fitting:
what a push on the segment, a new segment and a cut have to show. -/
theorem consistent_step {Q : List Entry → Cache → Prop} (shape : core.Shape)
    (fitsOk : Consistent entries Fits core.chainsStorage)
    (ok : Consistent entries Q core.chainsStorage)
    (placed : Placed core raw seg previous nd parents parent) (same : pushed.rawBlock = raw)
    (committed : Committed env order now core seg previous pushed core' result)
    (regular : (core.lineage seg).getTopBlockIndex ≠ previous → ¬ core.SharedRoot seg nd)
    (push : LineageOk entries Fits (nd.value :: parents) →
      LineageOk entries Q (nd.value :: parents) → nd.value.getTopBlockIndex = previous →
      chainTo nd parents previous = chainOf entries (nd.value :: parents) →
      (nd.value.pushBlock parents pushed).entries =
        nd.value.entries ++ [(pushed.rawBlock, parent.2.next pushed)] →
      Q (chainOf entries parents) (nd.value.pushBlock parents pushed))
    (create : ∀ lineage, LineageOk entries Fits lineage → LineageOk entries Q lineage →
      chainOf entries lineage = chainTo nd parents previous →
      ((Cache.memory (.create (previous + 1))).pushBlock lineage pushed).entries =
        [(raw, parent.2.next pushed)] →
      Q (chainTo nd parents previous)
        ((Cache.memory (.create (previous + 1))).pushBlock lineage pushed))
    (halve : ∀ lower upper, nd.value.getStartBlockIndex < previous + 1 →
      previous + 1 ≤ nd.value.getTopBlockIndex →
      nd.value.split (previous + 1) = some (lower, upper) →
      nd.value.entries = lower.entries ++ upper.entries → Fits (chainOf entries parents) lower →
      Q (chainOf entries parents) lower ∧ Q (chainOf entries parents ++ lower.entries) upper) :
    Consistent entries Fits core'.chainsStorage ∧ Consistent entries Q core'.chainsStorage := by
  have wf := shape.tree.wellFormed
  have old := lt_size_of_node? placed.node
  have fits := placed.holds shape fitsOk
  suffices both : Consistent entries (fun below cache => Fits below cache ∧ Q below cache)
      core'.chainsStorage from
    ⟨fun _ _ found => (both found).1, fun _ _ found => (both found).2⟩
  have bothOk : Consistent entries (fun below cache => Fits below cache ∧ Q below cache)
      core.chainsStorage := fun _ _ found => ⟨fitsOk found, ok found⟩
  have extended : (core.lineage seg).getTopBlockIndex = previous →
      core.chainsStorage.childrenOf seg = [] → Consistent entries
        (fun below cache => Fits below cache ∧ Q below cache)
        (core.pushBlock seg pushed).chainsStorage := by
    intro top childless
    rw [chainsStorage_pushBlock placed.lineage]
    apply bothOk.setValue wf childless placed.node
    rw [placed.chainBelow_eq shape]
    refine ⟨placed.fits_pushBlock fits shape same top, push ?_ ?_
      (placed.getTopBlockIndex_eq ▸ top) (placed.chainTo_of_top shape top)
      (placed.entries_pushBlock shape top)⟩
    · exact placed.lineage ▸ fitsOk.lineageOk wf seg
    · exact placed.lineage ▸ ok.lineageOk wf seg
  have forked : ∀ lineage, LineageOk entries (fun below cache => Fits below cache ∧ Q below cache)
      lineage → chainOf entries lineage = chainTo nd parents previous →
      Fits (chainTo nd parents previous)
          ((memory (.create (previous + 1))).pushBlock lineage pushed) ∧
        Q (chainTo nd parents previous)
          ((memory (.create (previous + 1))).pushBlock lineage pushed) := by
    intro lineage lineageOk chain_eq
    have lineageFits := lineageOk.mono fun _ _ h => h.1
    obtain ⟨newFits, entries_eq⟩ := placed.newSegment fits lineageFits chain_eq same
    exact ⟨newFits, create lineage lineageFits (lineageOk.mono fun _ _ h => h.2) chain_eq
      entries_eq⟩
  cases committed with
  | extendMain top childless main | extendAlternative top childless other lighter =>
    exact extended top childless
  | switch top childless other heavier =>
    rw [chainsStorage_switchTo]
    exact extended top childless
  | forkOnTop top inner =>
    apply bothOk.addChild wf old
    have chain_eq : core.chainsStorage.chain entries seg = chainTo nd parents previous := by
      rw [placed.chainTo_of_top shape top, ← placed.lineage]
      rfl
    rw [chain_eq]
    exact forked _ (bothOk.lineageOk wf seg) chain_eq
  | forkInside below parts =>
    obtain ⟨lower, upper, halves, cases⟩ := splitSegment_some placed.node parts
    obtain ⟨-, -, -, lower_eq, -⟩ := placed.split_entries shape below halves
    rcases cases with ⟨-, rfl⟩ | ⟨shared, -⟩
    · have start_le := placed.start_le
      have le_top := placed.le_top
      rw [placed.getTopBlockIndex_eq] at below
      obtain ⟨whole, lowerFits, upperFits⟩ := fits.split (by omega) (by omega) halves
      obtain ⟨lowerOk, upperOk⟩ := halve lower upper (by omega) (by omega) halves whole lowerFits
      have wf' := wf.split old lower upper
      rw [← placed.chainBelow_eq shape] at lowerFits upperFits lowerOk upperOk
      have cutOk := bothOk.split wf placed.node whole ⟨lowerFits, lowerOk⟩ ⟨upperFits, upperOk⟩
      apply cutOk.addChild wf' (by rw [size_split]; omega)
      have chain_eq : (core.chainsStorage.split seg lower upper).chain entries seg =
          chainTo nd parents previous := by
        rw [wf.chain_split_self placed.node whole, placed.chainBelow_eq shape, lower_eq]
        rfl
      rw [chain_eq]
      exact forked _ (cutOk.lineageOk wf' seg) chain_eq
    · exact absurd shared (regular below)

end Core

/-! ### No leaf is missing -/

/-- Every childless segment is listed. -/
def LeavesComplete (tree : SegmentTree Cache) (leaves : List Nat) : Prop :=
  ∀ i, i < tree.size → tree.childrenOf i = [] → i ∈ leaves

namespace LeavesComplete

variable {tree : SegmentTree Cache} {leaves : List Nat}

section

variable (complete : LeavesComplete tree leaves)
include complete

theorem setValue (i : Nat) (cache : Cache) : LeavesComplete (tree.setValue i cache) leaves := by
  intro j old childless
  rw [size_setValue] at old
  rw [childrenOf_setValue] at childless
  exact complete j old childless

theorem addChild (p : Nat) (cache : Cache) :
    LeavesComplete (tree.addChild p cache) (leaves ++ [tree.size]) := by
  intro j old childless
  rw [size_addChild] at old
  rcases Nat.lt_succ_iff_lt_or_eq.1 old with lt | rfl
  · rw [childrenOf_addChild, append_eq_nil_iff] at childless
    exact mem_append_left _ (complete j lt childless.1)
  · exact mem_append_right _ mem_cons_self

theorem split_leaf (nodup : leaves.Nodup) {i : Nat} (lower upper : Cache) (mem : i ∈ leaves) :
    LeavesComplete (tree.split i lower upper) (Core.replaceLeaf leaves i tree.size) := by
  intro j old childless
  rw [size_split] at old
  rw [Core.mem_replaceLeaf nodup mem]
  rcases Nat.lt_succ_iff_lt_or_eq.1 old with lt | rfl
  · rw [childrenOf_split, if_neg (ne_of_lt lt)] at childless
    split at childless
    · cases childless
    · rename_i ne
      exact .inr ⟨fun same => ne ⟨same, lt⟩, complete j lt childless⟩
  · exact .inl rfl

theorem split_inner {i : Nat} (lower upper : Cache) (inner : tree.childrenOf i ≠ []) :
    LeavesComplete (tree.split i lower upper) leaves := by
  intro j old childless
  rw [size_split] at old
  rcases Nat.lt_succ_iff_lt_or_eq.1 old with lt | rfl
  · rw [childrenOf_split, if_neg (ne_of_lt lt)] at childless
    split at childless
    · cases childless
    · exact complete j lt childless
  · rw [childrenOf_split, if_pos rfl] at childless
    exact absurd childless inner

end

end LeavesComplete

namespace Core

variable {env : Env} {order : HashOrder} {now : Nat} {core core' : Core} {raw : RawBlock}
  {seg previous : Nat} {pushed : PushedBlockInfo} {nd : Node Cache}
  {parents : Lineage} {parent : Entry} {result : AddBlockResult}

theorem leavesComplete_step (shape : core.Shape)
    (complete : LeavesComplete core.chainsStorage core.chainsLeaves)
    (placed : Placed core raw seg previous nd parents parent)
    (committed : Committed env order now core seg previous pushed core' result)
    (regular : (core.lineage seg).getTopBlockIndex ≠ previous → ¬ core.SharedRoot seg nd) :
    LeavesComplete core'.chainsStorage core'.chainsLeaves := by
  have extended : LeavesComplete (core.pushBlock seg pushed).chainsStorage
      (core.pushBlock seg pushed).chainsLeaves := by
    rw [chainsStorage_pushBlock placed.lineage, chainsLeaves_pushBlock]
    exact complete.setValue seg _
  cases committed with
  | extendMain top childless main | extendAlternative top childless other lighter => exact extended
  | switch top childless other heavier =>
    rw [chainsStorage_switchTo, switchTo, (onlyPool_copyTransactionsToPool ..).chainsLeaves_eq]
    intro i old leaf
    have mem := placed.mem_leaves_pushBlock shape childless pushed
    exact (swapWithMain_perm mem).mem_iff.2 (extended i old leaf)
  | forkOnTop top inner => exact complete.addChild seg _
  | forkInside below parts =>
    obtain ⟨lower, upper, halves, cases⟩ := splitSegment_some placed.node parts
    rcases cases with ⟨-, rfl⟩ | ⟨shared, -⟩
    · refine LeavesComplete.addChild ?_ seg _
      by_cases childless : core.chainsStorage.childrenOf seg = []
      · simp only [if_pos childless]
        exact complete.split_leaf shape.leaves.nodup lower upper
          (placed.mem_leaves shape childless)
      · simp only [if_neg childless]
        exact complete.split_inner lower upper childless
    · exact absurd shared (regular below)

/-! ### The invariant -/

def hashesOf (entries : List Entry) : List Hash := entries.map fun entry => entry.2.blockHash

/-- A core whose branches are chains without gaps. -/
structure Linear (core : Core) : Prop where
  shape : core.Shape
  fits : Consistent Cache.entries Fits core.chainsStorage
  complete : LeavesComplete core.chainsStorage core.chainsLeaves
  hashes : (hashesOf core.allEntries).Nodup

/-- When no leaf is missing, a hash that is not found is not stored. -/
theorem not_mem_hashesOf (shape : core.Shape)
    (complete : LeavesComplete core.chainsStorage core.chainsLeaves) {hash : Hash}
    (absent : core.hasBlock hash = false) : hash ∉ hashesOf core.allEntries := by
  intro mem
  obtain ⟨entry, stored, rfl⟩ := mem_map.1 mem
  obtain ⟨i, nd, found, held⟩ := mem_allEntries.1 stored
  obtain ⟨leaf, leaf_lt, childless, above⟩ :=
    shape.tree.wellFormed.exists_leaf_above (lt_size_of_node? found)
  have value : core.chainsStorage.value? i = some nd.value := by
    rw [value?, found]
    rfl
  have unknown := not_hasBlock absent (complete leaf leaf_lt childless) above value
  rw [Cache.hasBlock, List.any_eq_false] at unknown
  refine unknown entry.2 ?_ (beq_self_eq_true _)
  rw [← map_snd_entries (shape.tree.sound found).aligned]
  exact mem_map_of_mem held

theorem Linear.of_onlyPool (linear : core.Linear) (h : OnlyPool core core') : core'.Linear := by
  have shape := linear.shape.of_onlyPool h
  obtain ⟨pool, rfl⟩ := h
  exact ⟨shape, linear.fits, linear.complete, linear.hashes⟩

theorem Linear.committed (linear : core.Linear)
    (passed : core.checkBlock env now raw = .ok (seg, previous, pushed))
    (keeps : core.KeepsRoot env (.addBlock now raw))
    (committed : Committed env order now core seg previous pushed core' result) : core'.Linear := by
  have shape := linear.shape
  obtain ⟨nd, parents, parent, placed, same⟩ := shape.placed passed
  have regular := fun below => placed.not_sharedRoot shape passed below keeps
  refine ⟨shape.committed placed same committed,
    (consistent_step (Q := fun _ _ => True) shape linear.fits (fun _ _ _ => trivial) placed
      same committed regular (fun _ _ _ _ _ => trivial) (fun _ _ _ _ _ => trivial)
      (fun _ _ _ _ _ _ _ => ⟨trivial, trivial⟩)).1,
    leavesComplete_step shape linear.complete placed committed regular, ?_⟩
  have grown := (committed.allEntries_perm shape placed same).map fun entry => entry.2.blockHash
  apply grown.nodup_iff.2
  rw [map_cons]
  refine nodup_cons.2 ⟨?_, linear.hashes⟩
  have hash_eq : (parent.2.next pushed).blockHash = raw.block.blockHash := by
    rw [← same]
    rfl
  rw [hash_eq]
  exact not_mem_hashesOf shape linear.complete (checkBlock_ok passed).1

theorem Linear.step (linear : core.Linear) (call : Call) (keeps : core.KeepsRoot env call) :
    (core.step env order call).Linear := by
  rcases step_cases env order core call with
    onlyPool | ⟨now, raw, seg, previous, pushed, result, rfl, passed, committed⟩
  · exact linear.of_onlyPool onlyPool
  · exact linear.committed passed keeps committed

theorem linear_load (genesis : CachedBlock) : (load genesis).Linear where
  shape := shape_load genesis
  fits := by
    refine Consistent.single ⟨sound_addGenesisBlock genesis, rfl, ?_⟩
    rw [nil_append, entries_addGenesisBlock]
    exact isChain_singleton _
  complete := by
    intro i old _
    obtain rfl : i = 0 := by
      have one : i < 1 := old
      omega
    exact mem_cons_self
  hashes := nodup_singleton _

variable {genesis : CachedBlock} {calls : List Call} {Q : List Entry → Cache → Prop}

theorem afterCalls_concat (env : Env) (order : HashOrder) (genesis : CachedBlock)
    (calls : List Call) (call : Call) : afterCalls env order genesis (calls ++ [call]) =
      (afterCalls env order genesis calls).step env order call := by
  rw [afterCalls, run_append]
  rfl

/-- Runs that keep the root whole stay linear. -/
theorem linear_afterCalls (keeps : Along (step env order) (KeepsRoot env) (load genesis) calls) :
    (afterCalls env order genesis calls).Linear :=
  invariant_run (fun _ call linear keeps => linear.step call keeps)
    (linear_load genesis) keeps

/-- One call, for a fact about segments: only a committed block has to be looked at. -/
theorem consistent_call (ok : Consistent Cache.entries Q core.chainsStorage) (call : Call)
    (step : ∀ {core' : Core} {now : Nat} {raw : RawBlock} {seg previous : Nat}
      {pushed : PushedBlockInfo} {result : AddBlockResult}, call = .addBlock now raw →
      core.checkBlock env now raw = .ok (seg, previous, pushed) →
      Committed env order now core seg previous pushed core' result →
      Consistent Cache.entries Q core'.chainsStorage) :
    Consistent Cache.entries Q (core.step env order call).chainsStorage := by
  rcases step_cases env order core call with
    onlyPool | ⟨now, raw, seg, previous, pushed, result, rfl, passed, committed⟩
  · rw [onlyPool.chainsStorage_eq]
    exact ok
  · exact step rfl passed committed

/-- The induction along a run that keeps the root whole, for a fact about segments. -/
theorem consistent_afterCalls {ok : Core → Call → Prop}
    (keeps : ∀ core call, ok core call → core.KeepsRoot env call)
    (base : Q [] (.database (.addGenesisBlock genesis)))
    (step : ∀ {core core' : Core} {now : Nat} {raw : RawBlock} {seg previous : Nat}
      {pushed : PushedBlockInfo} {result : AddBlockResult}, core.Linear →
      Consistent Cache.entries Q core.chainsStorage → ok core (.addBlock now raw) →
      core.checkBlock env now raw = .ok (seg, previous, pushed) →
      Committed env order now core seg previous pushed core' result →
      Consistent Cache.entries Q core'.chainsStorage)
    (along : Along (Core.step env order) ok (load genesis) calls) :
    Consistent entries Q (afterCalls env order genesis calls).chainsStorage := by
  refine (invariant_run
    (I := fun core => core.Linear ∧ Consistent entries Q core.chainsStorage) ?_
    ⟨linear_load genesis, Consistent.single base⟩ along).2
  rintro core call ⟨linear, consistent⟩ meets
  refine ⟨linear.step call (keeps core call meets), consistent_call consistent call ?_⟩
  rintro core' now raw seg previous pushed result rfl passed committed
  exact step linear consistent meets passed committed

/-- No call loses a stored entry. -/
theorem allEntries_subset_step (shape : core.Shape) (call : Call) :
    core.allEntries ⊆ (core.step env order call).allEntries := by
  intro entry mem
  rcases step_cases env order core call with
    onlyPool | ⟨now, raw, seg, previous, pushed, result, rfl, passed, committed⟩
  · rwa [allEntries, onlyPool.chainsStorage_eq]
  · obtain ⟨nd, parents, parent, placed, same⟩ := shape.placed passed
    have grown := committed.allEntries_perm shape placed same
    exact grown.mem_iff.2 (mem_cons_of_mem _ mem)

/-- Once a run that keeps the root whole has accepted a block, on whatever branch, it
refuses the block ever after as known. -/
theorem addBlock_again (before after : List Call) (result : AddBlockResult) (later : Nat)
    (keeps : Along (step env order) (KeepsRoot env) (load genesis)
      (before ++ .addBlock now raw :: after))
    (added : ((afterCalls env order genesis before).addBlock env order now raw).2 = .added result) :
    let core := afterCalls env order genesis (before ++ .addBlock now raw :: after)
    core.addBlock env order later raw = (core, .failed .alreadyExists) := by
  intro core
  have shape := shape_afterCalls env order genesis before
  rcases addBlock_cases env order now (afterCalls env order genesis before) raw with
    ⟨_, failed, -⟩ | ⟨_, _, pushed, _, passed, -, committed⟩
  · cases failed.symm.trans added
  obtain ⟨_, _, _, placed, rfl⟩ := shape.placed passed
  have here := (committed.allEntries_perm shape placed rfl).mem_iff.2 mem_cons_self
  have kept : core.Shape ∧ pushed.rawBlock.block.blockHash ∈ hashesOf core.allEntries := by
    unfold core afterCalls
    rw [run_append, run_cons]
    exact invariant_run_of_step (I := fun core : Core => core.Shape ∧ _ ∈ hashesOf core.allEntries)
      (fun _ _ held => ⟨held.1.step _, map_subset _ (allEntries_subset_step held.1 _) held.2⟩)
      ⟨shape.step _, mem_map_of_mem here⟩
  have known := mt (not_mem_hashesOf kept.1 (linear_afterCalls keeps).complete) (not_not.2 kept.2)
  rw [addBlock, checkBlock, Checked.require, if_neg known]
  rfl

/-! ### The segment tree of a run -/

/-- Children lists and parent links agree, segments follow their parents without a
gap, the list of leaves is exact, and the main chain set is the walk to the root. -/
structure TreeOk (core : Core) : Prop where
  linked : ∀ i p, core.chainsStorage.parent? i = some p ↔ i ∈ core.chainsStorage.childrenOf p
  distinct : ∀ p, (core.chainsStorage.childrenOf p).Nodup
  consecutive : ∀ i p cache parent, core.chainsStorage.parent? i = some p →
    core.chainsStorage.value? i = some cache → core.chainsStorage.value? p = some parent →
    cache.getStartBlockIndex = parent.getTopBlockIndex + 1
  leaves : ∀ i, i ∈ core.chainsLeaves ↔
    i < core.chainsStorage.size ∧ core.chainsStorage.childrenOf i = []
  leaves_nodup : core.chainsLeaves.Nodup
  main : IsPath core.chainsStorage core.mainLeaf core.mainChainSet

/-- Committing the block splits a segment whose upper half has no children, so that
the core looks for the segment among the leaves. -/
def LooksForLeaf (env : Env) (core : Core) (now : Nat) (raw : RawBlock) (segment : Nat) : Prop :=
  ∃ previous pushed cache,
    core.checkBlock env now raw = .ok (segment, previous, pushed) ∧
    core.chainsStorage.value? segment = some cache ∧
    cache.getTopBlockIndex ≠ previous ∧
    (cache.isDatabase = true ∨ core.chainsStorage.childrenOf segment = [])

theorem Linear.consecutive (linear : core.Linear) {i p : Nat} {cache parent : Cache}
    (link : core.chainsStorage.parent? i = some p)
    (value : core.chainsStorage.value? i = some cache)
    (parent_value : core.chainsStorage.value? p = some parent) :
    cache.getStartBlockIndex = parent.getTopBlockIndex + 1 := by
  rw [value?, map_eq_some_iff] at value parent_value
  obtain ⟨nd, found, rfl⟩ := value
  obtain ⟨pd, parent_found, rfl⟩ := parent_value
  have parent_eq : nd.parent = some p := by
    rwa [parent?, found] at link
  have own := linear.fits found
  have below := linear.fits parent_found
  rw [own.start, parent_eq]
  simp only [chainBelow]
  rw [linear.shape.tree.wellFormed.chain_eq parent_found, length_append, ← below.start,
    below.sound.getTopBlockIndex_eq]

theorem Linear.treeOk (linear : core.Linear) : core.TreeOk where
  linked _ _ := linear.shape.tree.wellFormed.mem_childrenOf_iff.symm
  distinct := linear.shape.tree.wellFormed.distinct
  consecutive := fun i p cache parent link value parent_value =>
    linear.consecutive link value parent_value
  leaves := by
    intro i
    constructor
    · intro mem
      exact ⟨linear.shape.leaves.old i mem, linear.shape.leaves.childless i mem⟩
    · rintro ⟨old, childless⟩
      exact linear.complete i old childless
  leaves_nodup := linear.shape.leaves.nodup
  main := by
    rw [linear.shape.main]
    exact linear.shape.tree.wellFormed.isPath_path linear.shape.mainLeaf_lt

/-- The leaf the split branch looks for is listed. -/
theorem Linear.leaf_found (linear : core.Linear) (keeps : core.KeepsRoot env (.addBlock now raw))
    (looks : core.LooksForLeaf env now raw seg) : seg ∈ core.chainsLeaves := by
  obtain ⟨previous, pushed, cache, passed, value, below, childless⟩ := looks
  obtain ⟨nd, parents, parent, placed, -⟩ := linear.shape.placed passed
  have same : nd.value = cache := by
    rw [value?, placed.node] at value
    exact some.inj value
  subst same
  rw [← placed.getTopBlockIndex_eq] at below
  have regular := placed.not_sharedRoot linear.shape passed below keeps
  apply placed.mem_leaves linear.shape
  rcases childless with kind | childless
  · by_contra children
    exact regular ⟨kind, children⟩
  · exact childless

/-- In every run that never forks inside a database with children the segment tree is
in order, and the next block of such a run finds the leaf it looks for. -/
theorem treeOk_of_keepsRoot (env : Env) (order : HashOrder) (genesis : CachedBlock)
    (calls : List Call) (keeps : Along (step env order) (KeepsRoot env) (load genesis) calls) :
    (afterCalls env order genesis calls).TreeOk ∧
      ∀ now raw segment, (afterCalls env order genesis calls).KeepsRoot env (.addBlock now raw) →
        (afterCalls env order genesis calls).LooksForLeaf env now raw segment →
        segment ∈ (afterCalls env order genesis calls).chainsLeaves := by
  have linear := linear_afterCalls keeps
  exact ⟨linear.treeOk, fun _ _ _ keeps looks => linear.leaf_found keeps looks⟩

end Core

/-! ### Sample blocks

A genesis block and blocks of growing height for concrete runs. Signatures are right
when their number is the number of ring keys found. -/

namespace Sample

def crypto : Crypto where
  checkKey _ := true
  keyImageInDomain _ := true
  checkRingSignature tx inputIndex keys :=
    decide (keys.length = tx.transaction.signatures[inputIndex]?.getD 0) && !keys.isEmpty
  checkTransactionPow _ := true
  checkProofOfWork _ _ := true

def env : Env := ⟨crypto, .empty⟩

def genesis : CachedBlock where
  blockHash := 0
  majorVersion := 1
  previousBlockHash := 999999
  timestamp := 0
  parentBlockMajorVersion := 0
  parentBlockSize := 0
  baseTransaction := ⟨⟨10, [.base 0], [⟨2980232, 1⟩], 0, []⟩, 1000000, 100⟩
  transactionHashes := []

/-- Coins generated by a chain of small blocks. -/
def coins : Nat → Nat
  | 0 => 2980232
  | height + 1 => coins height + (Parameters.moneySupply - coins height) >>> 23

/-- A small block with the given transactions and their fees. -/
def block (hash previous height timestamp : Nat) (transactions : List RawTransaction) (fee : Nat) :
    RawBlock where
  block := {
    blockHash := hash
    majorVersion := getBlockMajorVersion height
    previousBlockHash := previous
    timestamp := timestamp
    parentBlockMajorVersion := 0
    parentBlockSize := 0
    baseTransaction := ⟨⟨height + 120, [.base height],
      [⟨(Parameters.moneySupply - coins (height - 1)) >>> 23 + fee, 2⟩], 0, []⟩,
      1000000 + hash, 100⟩
    transactionHashes := transactions.map (·.hash) }
  transactions := transactions

/-- Such a block, ten seconds after the previous height. -/
def next (hash previous height : Nat) (transactions : List RawTransaction) (fee : Nat) : RawBlock :=
  block hash previous height (1000 + 10 * height) transactions fee

/-- Blocks of the heights `1, …, n`, each named by its height. -/
def trunk (n : Nat) : List RawBlock := (List.range n).map fun i => next (i + 1) i (i + 1) [] 0

/-- Spends the genesis output with a fee of ten. -/
def spend : RawTransaction :=
  ⟨200, 5000, some ⟨0, [.key ⟨2980232, [0], 77⟩], [⟨2980222, 3⟩], 0, [1]⟩⟩

/-- A block as it is handed to the segment. -/
def pushed (raw : RawBlock) : PushedBlockInfo where
  rawBlock := raw
  spentKeyImages := raw.cachedTransactions.flatMap (·.transaction.keyImages)
  blockSize := 100
  generatedCoins := 1000
  blockDifficulty := 1

/-- The calls that bring blocks one after another. -/
def calls (blocks : List RawBlock) : List Call := blocks.map (Call.addBlock 100000)

/-- A fork at height 3 moves block 3 out of the database; the later fork at height 2
cuts the database below it. -/
def secondFork : List RawBlock := trunk 3 ++ [next 103 2 3 [] 0, next 102 1 2 [] 0]

end Sample

namespace Core

open Sample

/-- A run that forks once, in order. -/
theorem treeOk_of_keepsRoot_fork : (afterCalls env .insertion genesis
      (calls (trunk 3 ++ [next 103 2 3 [] 0]))).TreeOk :=
  (treeOk_of_keepsRoot env .insertion genesis _ (by decide +kernel)).1

/-- A block of a fork, after a block that the split database knows and one that makes the
fork the main chain. -/
theorem addBlock_again_switched :
    let core := afterCalls env .insertion genesis (calls (trunk 3) ++
      .addBlock 100000 (next 103 2 3 [] 0) :: calls [next 2 1 2 [] 0, next 104 103 4 [] 0])
    core.mainLeaf = 2 ∧ core.addBlock env .insertion 200000 (next 103 2 3 [] 0) =
      (core, .failed .alreadyExists) := by
  refine ⟨by decide +kernel, ?_⟩
  exact addBlock_again _ _ .addedToAlternative 200000 (by decide +kernel) (by decide +kernel)

/-- After a second fork below the first one a segment no longer starts above its
parent's top. -/
theorem not_treeOk_secondFork :
    ¬ (afterCalls env .insertion genesis (calls secondFork)).TreeOk := by
  intro treeOk
  generalize reached : afterCalls env .insertion genesis
    (calls secondFork) = core at treeOk
  have gap : ∃ cache parent, core.chainsStorage.parent? 1 = some 0 ∧
      core.chainsStorage.value? 1 = some cache ∧ core.chainsStorage.value? 0 = some parent ∧
      cache.getStartBlockIndex = 3 ∧ parent.getTopBlockIndex = 1 := by
    subst reached
    exact ⟨_, _, by decide +kernel, rfl, rfl, by decide +kernel, by decide +kernel⟩
  obtain ⟨cache, parent, link, value, parent_value, start, top⟩ := gap
  have consecutive := treeOk.consecutive 1 0 cache parent link value parent_value
  omega

end Core

end DeroGold
