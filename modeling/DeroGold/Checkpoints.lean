import DeroGold.Paths

/-!
What becomes of a checkpointed block on the main chain.

A block in the checkpoint zone needs no proof of work, and only its own height is looked
up among the checkpoints. A branch without the checkpointed block never reaches the height
of that block (`passed_afterCalls`), but below it the branch may outgrow the main chain,
and the core switches to it (`not_final_freeBranch`). Nothing else moves the block off the
main chain of a run that keeps the root whole (`checkpoint_final_iff`).
-/

namespace DeroGold

open SegmentTree List TransitionSystem Checked

theorem Checkpoints.checkBlock_unique {checkpoints : Checkpoints} {point : Nat × Hash}
    {first second : Hash} (mem : point ∈ checkpoints.points)
    (left : checkpoints.checkBlock point.1 first = true)
    (right : checkpoints.checkBlock point.1 second = true) : first = second := by
  unfold checkBlock at left right
  split at left
  · rename_i absent
    exact absurd (beq_self_eq_true _) (find?_eq_none.1 absent point mem)
  · rename_i found
    rw [found] at right
    exact (beq_iff_eq.1 left).symm.trans (beq_iff_eq.1 right)

namespace Core

variable {env : Env} {order : HashOrder} {now : Nat} {core : Core} {raw : RawBlock}
  {seg previous : Nat} {pushed : PushedBlockInfo} {genesis : CachedBlock} {calls : List Call}

/-! ### Chains that passed the checkpoints -/

/-- Every block above the genesis block passed the checkpoint of its height. -/
def Passed (env : Env) (chain : List Entry) : Prop :=
  ∀ i entry, chain[i + 1]? = some entry →
    env.checkpoints.checkBlock (i + 1) entry.2.blockHash = true

/-- Outside the zone there is no checkpoint to pass. -/
theorem checkBlock_of_passed
    (passed : core.checkBlock env now raw = .ok (seg, previous, pushed)) :
    env.checkpoints.checkBlock (previous + 1) raw.block.blockHash = true := by
  obtain ⟨-, -, -, -, -, checked⟩ := checkBlock_ok passed
  obtain ⟨difficulty, fee, state, reward, checks, -⟩ := checkOnBranch_ok checked
  have work := checks.work
  rw [checkCheckpointOrProofOfWork, validateBlock_index checks.block] at work
  split at work
  · exact require_eq_ok.1 work
  · rename_i outside
    rw [Bool.not_eq_true, Checkpoints.isInCheckpointZone, any_eq_false] at outside
    have absent : env.checkpoints.points.find? (fun point => point.1 == previous + 1) = none := by
      refine find?_eq_none.2 fun point mem here => outside point mem ?_
      exact decide_eq_true (beq_iff_eq.1 here).ge
    rw [Checkpoints.checkBlock, absent]

theorem Passed.concat {chain : List Entry} {entry : Entry} (below : Passed env chain)
    (length_eq : chain.length = previous + 1)
    (here : env.checkpoints.checkBlock (previous + 1) entry.2.blockHash = true) :
    Passed env (chain ++ [entry]) := by
  intro i other at_i
  rw [getElem?_append] at at_i
  split at at_i
  · exact below i other at_i
  · have inside := (List.getElem?_eq_some_iff.1 at_i).1
    rw [length_singleton] at inside
    obtain rfl : i = previous := by omega
    rw [length_eq, Nat.sub_self] at at_i
    cases at_i
    exact here

theorem passed_afterCalls (keeps : Along (step env order) (KeepsRoot env) (load genesis) calls) :
    Consistent Cache.entries (fun below cache => Passed env (below ++ cache.entries))
      (afterCalls env order genesis calls).chainsStorage := by
  refine consistent_afterCalls (fun _ _ keeps => keeps) ?_
    (fun linear chainwise meets passed committed => chainwise_step linear chainwise passed meets
      committed ?_ fun placed below => ?_) keeps
  · intro i entry at_i
    cases at_i
  · intro xs ys _ whole i entry at_i
    exact whole i entry (getElem?_append_left (List.getElem?_eq_some_iff.1 at_i).1 ▸ at_i)
  · refine below.concat (placed.length_chainTo (placed.holds linear.shape linear.fits)) ?_
    have here := checkBlock_of_passed passed
    rwa [← rawBlock_of_checkBlock passed] at here

/-- At the height of a checkpoint two chains that passed it hold the same block. -/
theorem Passed.blockHash_eq {point : Nat × Hash} {xs ys : List Entry} {x y : Entry}
    (left : Passed env xs) (right : Passed env ys) (heads : xs.head? = ys.head?)
    (mem : point ∈ env.checkpoints.points) (at_x : xs[point.1]? = some x)
    (at_y : ys[point.1]? = some y) : x.2.blockHash = y.2.blockHash := by
  obtain ⟨height, hash⟩ := point
  cases height with
  | zero =>
    rw [head?_eq_getElem?, head?_eq_getElem?, at_x, at_y] at heads
    cases heads
    rfl
  | succ i => exact Checkpoints.checkBlock_unique mem (left i x at_x) (right i y at_y)

/-! ### Checkpointed blocks -/

/-- The chain holds the block with the given hash at the given height. -/
def HoldsAt (entries : List Entry) (height : Nat) (hash : Hash) : Prop :=
  entries[height]?.map (fun entry => entry.2.blockHash) = some hash

instance (entries : List Entry) (height : Nat) (hash : Hash) :
    Decidable (HoldsAt entries height hash) :=
  inferInstanceAs (Decidable (_ = _))

/-- No block above a predecessor below the given height makes another leaf outgrow the
main chain. -/
def KeepsCheckpoint (env : Env) (height : Nat) (core : Core) : Call → Prop
  | .addBlock now raw => core.WhenChecked env now raw fun seg previous _ =>
    (core.lineage seg).getTopBlockIndex = previous → core.Outgrows seg →
      height ≤ previous
  | .addTransactionToPool _ _ => True
  | .cleanPool _ => True

instance (env : Env) (height : Nat) (core : Core) : DecidablePred (core.KeepsCheckpoint env height)
  | .addBlock now raw => inferInstanceAs (Decidable (core.WhenChecked env now raw _))
  | .addTransactionToPool _ _ | .cleanPool _ => isTrue trivial

/-- A block on top of a leaf that outgrows the main chain makes its branch the main chain. -/
theorem mainChain_outgrown (order : HashOrder) (shape : core.Shape)
    (passed : core.checkBlock env now raw = .ok (seg, previous, pushed))
    (top : (core.lineage seg).getTopBlockIndex = previous) (outgrows : core.Outgrows seg) :
    ∃ nd parents parent, Placed core raw seg previous nd parents parent ∧
      (core.step env order (.addBlock now raw)).mainChain =
        core.chain seg ++ [(raw, parent.2.next pushed)] := by
  obtain ⟨nd, parents, parent, placed, same⟩ := shape.placed passed
  have childless := shape.leaves.childless seg outgrows.1
  have other := outgrows.2.1
  have heavier := (outgrows_iff shape passed placed top childless other).1 outgrows
  refine ⟨nd, parents, parent, placed, ?_⟩
  rw [step, addBlock, passed]
  simp only [commit, if_pos top, if_pos childless, if_neg other, extendAlternative,
    mainLeaf_pushBlock, if_pos heavier]
  exact (Committed.switch top childless other heavier).mainChain_eq shape placed same
    fun below => absurd top below

/-- Any other call lets the main chain grow or stay. -/
theorem mainChain_prefix_step (order : HashOrder) (shape : core.Shape) {call : Call}
    (keeps : core.KeepsRoot env call) (kept : ∀ height, core.KeepsCheckpoint env height call) :
    core.mainChain <+: (core.step env order call).mainChain := by
  rcases step_cases env order core call with
    onlyPool | ⟨now, raw, seg, previous, pushed, result, rfl, passed, committed⟩
  · rw [onlyPool.mainChain_eq]
  · obtain ⟨nd, parents, parent, placed, same⟩ := shape.placed passed
    have grown := committed.mainChain_eq shape placed same
      fun below => placed.not_sharedRoot shape passed below keeps
    generalize core.step env order (.addBlock now raw) = core' at committed grown ⊢
    cases committed with
    | extendMain top childless main =>
      rw [grown]
      exact prefix_append _ _
    | switch top childless other heavier =>
      have outgrows := (outgrows_iff shape passed placed top childless other).2 heavier
      exact absurd (kept (previous + 1) _ _ _ passed top outgrows) (Nat.not_succ_le_self _)
    | extendAlternative top childless other lighter | forkOnTop top inner
    | forkInside below parts => rw [grown]

/-- One call keeps a checkpointed block on the main chain exactly when no branch below it
outgrows the main chain. -/
theorem holdsAt_step_iff {call : Call} {point : Nat × Hash}
    (keeps : Along (step env order) (KeepsRoot env) (load genesis) calls)
    (next : (afterCalls env order genesis calls).KeepsRoot env call)
    (mem : point ∈ env.checkpoints.points)
    (holds : HoldsAt (afterCalls env order genesis calls).mainChain point.1 point.2) :
    HoldsAt ((afterCalls env order genesis calls).step env order call).mainChain point.1 point.2 ↔
      (afterCalls env order genesis calls).KeepsCheckpoint env point.1 call := by
  obtain ⟨linear, anchored⟩ := anchored_afterCalls keeps
  have chains := passed_afterCalls keeps
  generalize afterCalls env order genesis calls = core at *
  have shape := linear.shape
  obtain ⟨held, at_height, hash⟩ := Option.map_eq_some_iff.1 holds
  by_cases kept : ∀ height, core.KeepsCheckpoint env height call
  · obtain ⟨more, grown⟩ := mainChain_prefix_step order shape next kept
    refine iff_of_true ?_ (kept _)
    rw [← grown, HoldsAt, getElem?_append_left (List.getElem?_eq_some_iff.1 at_height).1]
    exact holds
  · cases call with
    | addTransactionToPool now raw | cleanPool now => exact absurd (fun _ => trivial) kept
    | addBlock now raw =>
    simp only [KeepsCheckpoint, WhenChecked, not_forall] at kept
    obtain ⟨-, seg, previous, pushed, passed, top, outgrows, -⟩ := kept
    obtain ⟨nd, parents, parent, placed, main⟩ := mainChain_outgrown order shape passed top outgrows
    have keeps_iff : core.KeepsCheckpoint env point.1 (.addBlock now raw) ↔ point.1 ≤ previous := by
      refine ⟨fun keeps => keeps _ _ _ passed top outgrows, fun le _ _ _ passed' _ _ => ?_⟩
      cases passed.symm.trans passed'
      exact le
    have length_eq := placed.length_chainTo (placed.holds shape linear.fits)
    have chain_eq : chainTo nd parents previous = core.chain seg := by
      rw [placed.chainTo_of_top shape top, ← placed.lineage]
      rfl
    rw [chain_eq] at length_eq
    rw [main, keeps_iff, HoldsAt]
    constructor
    · intro after
      by_contra low
      -- only the new block could be at this height, but its hash was not known before
      obtain ⟨new, at_new, new_hash⟩ := Option.map_eq_some_iff.1 after
      rw [getElem?_append_right (by omega)] at at_new
      obtain rfl := mem_singleton.1 (mem_of_getElem? at_new)
      apply not_mem_hashesOf shape linear.complete (checkBlock_ok passed).1
      refine mem_map.2 ⟨held, mem_allEntries_of_mem_chain (mem_of_getElem? at_height), ?_⟩
      rw [hash, ← new_hash, ← rawBlock_of_checkBlock passed]
      rfl
    · intro le
      have inside : point.1 < (core.chain seg).length := by omega
      obtain ⟨md, found⟩ := lt_size_iff.1 shape.mainLeaf_lt
      have wf := shape.tree.wellFormed
      have main_eq : core.mainChain = _ := wf.chain_eq found
      have branch_eq : core.chain seg = _ := wf.chain_eq placed.node
      have at_branch := getElem?_eq_getElem inside
      rw [getElem?_append_left inside, at_branch, Option.map_some, ← hash]
      rw [main_eq] at at_height
      generalize (core.chain seg)[point.1] = entry at at_branch ⊢
      rw [branch_eq] at at_branch
      exact congrArg some ((chains placed.node).blockHash_eq (chains found)
        ((anchored placed.node).head.trans (anchored found).head.symm) mem at_branch at_height)

/-- In every run that keeps the root whole, a checkpointed block that is on the main chain
stays there after every later call exactly when no block above a predecessor below the
checkpoint makes another leaf outgrow the main chain. -/
theorem checkpoint_final_iff (env : Env) (order : HashOrder) (genesis : CachedBlock)
    (before after : List Call)
    (keeps : Along (step env order) (KeepsRoot env) (load genesis) (before ++ after))
    (point : Nat × Hash) (mem : point ∈ env.checkpoints.points)
    (holds : HoldsAt (afterCalls env order genesis before).mainChain point.1 point.2) :
    Always (step env order) (fun core => HoldsAt core.mainChain point.1 point.2)
        (afterCalls env order genesis before) after ↔
      Along (step env order) (KeepsCheckpoint env point.1) (afterCalls env order genesis before)
        after := by
  rw [along_append] at keeps
  -- the invariant is that a run that keeps the root whole leads to the state
  refine always_iff_along (I := fun core => HoldsAt core.mainChain point.1 point.2 ∧
      ∃ calls, core = afterCalls env order genesis calls ∧
        Along (step env order) (KeepsRoot env) (load genesis) calls)
    ?_ (fun _ inv => inv.1) ?_ ⟨holds, before, rfl, keeps.1⟩ keeps.2
  · rintro _ call ⟨held, calls, rfl, kept⟩ root meets
    exact ⟨(holdsAt_step_iff kept root mem held).2 meets, calls ++ [call],
      (afterCalls_concat ..).symm, (along_append _ _ _).2 ⟨kept, root, trivial⟩⟩
  · rintro _ call ⟨held, calls, rfl, kept⟩ root fails later
    exact fails ((holdsAt_step_iff kept root mem held).1 later)

end Core

/-! ### A free branch below a checkpoint -/

namespace Sample

/-- No proof of work is ever right; the trunk's block of one height is checkpointed. -/
def checkpointed (height : Nat) : Env :=
  ⟨{ crypto with checkProofOfWork := fun _ _ => false }, ⟨[(height, height)]⟩⟩

/-- Slow blocks up to the checkpoint. -/
def honest : List RawBlock := trunk 60 ++
  [block 61 60 61 1660 [] 0, block 62 61 62 1720 [] 0, block 63 62 63 1780 [] 0,
    block 64 63 64 1840 [] 0]

/-- Faster blocks that end below it. -/
def freeBranch : List RawBlock :=
  [block 161 60 61 1560 [] 0, block 162 161 62 1560 [] 0, block 163 162 63 1560 [] 0]

end Sample

namespace Core

open Sample

/-- A fork below the checkpoint stays lighter, one above it becomes the main chain. -/
theorem checkpoint_final_iff_forks :
    let env : Env := ⟨crypto, ⟨[(2, 2)]⟩⟩
    let later := calls [next 101 0 1 [] 0, next 103 2 3 [] 0, next 104 103 4 [] 0]
    hashesOf (afterCalls env .insertion genesis (calls (trunk 3) ++ later)).mainChain =
        [0, 1, 2, 103, 104] ∧
      Always (step env .insertion) (fun core => HoldsAt core.mainChain 2 2)
        (afterCalls env .insertion genesis (calls (trunk 3))) later := by
  refine ⟨by decide +kernel, ?_⟩
  exact (checkpoint_final_iff _ .insertion genesis (calls (trunk 3)) _ (by decide +kernel) (2, 2)
    (by decide) (by decide +kernel)).2 (by decide +kernel)

/-- Three blocks without proof of work move the checkpointed block off the main chain. -/
theorem not_final_freeBranch : (∀ block difficulty,
        (checkpointed 64).crypto.checkProofOfWork block difficulty = false) ∧
      (64, 64) ∈ (checkpointed 64).checkpoints.points ∧
      HoldsAt (afterCalls (checkpointed 64) .insertion genesis (calls honest)).mainChain 64 64 ∧
      ¬ HoldsAt (afterCalls (checkpointed 64) .insertion genesis
        (calls honest ++ calls freeBranch)).mainChain 64 64 :=
  ⟨fun _ _ => rfl, by decide, by decide +kernel, by decide +kernel⟩

end Core

end DeroGold
