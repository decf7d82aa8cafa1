import DeroGold.ForkChoice

/-!
The blocks of the main chain and when they change.

A call that does not fork inside a database with children leaves the main chain as it is
or makes it end in a heavier leaf (`mainLeaf_heaviest`). Such a fork takes blocks out of
the main chain without any heavier leaf (`not_mainLeaf_heaviest_secondFork`).
-/

namespace DeroGold

open SegmentTree TransitionSystem

namespace Core

variable {env : Env} {order : HashOrder} {now : Nat} {core core' cut : Core} {raw : RawBlock}
  {seg previous : Nat} {pushed : PushedBlockInfo} {nd : Node Cache}
  {parents : Lineage} {parent : Entry} {result : AddBlockResult}

/-! ### The main chain -/

/-- Entries on the way from the genesis block to the top of a segment. -/
def chain (core : Core) (segment : Nat) : List Entry :=
  core.chainsStorage.chain Cache.entries segment

def mainChain (core : Core) : List Entry := core.chain core.mainLeaf

theorem OnlyPool.mainChain_eq (h : OnlyPool core core') : core'.mainChain = core.mainChain := by
  obtain ⟨pool, rfl⟩ := h
  rfl

section

variable (shape : core.Shape) (placed : Placed core raw seg previous nd parents parent)
include shape placed

theorem chain_pushBlock_self (same : pushed.rawBlock = raw)
    (top : (core.lineage seg).getTopBlockIndex = previous)
    (childless : core.chainsStorage.childrenOf seg = []) : (core.pushBlock seg pushed).chain seg =
      core.chain seg ++ [(raw, parent.2.next pushed)] := by
  have wf := shape.tree.wellFormed
  rw [chain, chainsStorage_pushBlock placed.lineage,
    wf.chain_setValue_self _ childless placed.node, placed.entries_pushBlock shape top, same,
    chain, wf.chain_eq placed.node, List.append_assoc]

/-- Cutting a segment keeps the main chain, unless its database is shared. -/
theorem mainChain_splitSegment (below : (core.lineage seg).getTopBlockIndex ≠ previous)
    (regular : ¬ core.SharedRoot seg nd) (parts : core.splitSegment seg (previous + 1) = some cut) :
    cut.mainChain = core.mainChain := by
  obtain ⟨lower, upper, halves, cases⟩ := splitSegment_some placed.node parts
  obtain ⟨whole, -⟩ := placed.split_entries shape below halves
  have wf := shape.tree.wellFormed
  rcases cases with ⟨-, rfl⟩ | ⟨shared, -⟩
  · rw [mainChain, mainLeaf]
    rcases placed.headD_split shape core.chainsStorage.size with ⟨main, leaf⟩ | ⟨other, leaf⟩
    · rw [leaf, chain, wf.chain_split_new placed.node whole, mainChain, main]
      rfl
    · rw [leaf]
      exact wf.chain_split_of_ne placed.node whole shape.mainLeaf_lt other
  · exact absurd shared regular

end

theorem mainChain_pushOnNewSegment (wf : core.chainsStorage.WellFormed)
    (leaves_ne : core.chainsLeaves ≠ []) (main_lt : core.mainLeaf < core.chainsStorage.size) :
    (core.pushOnNewSegment seg pushed previous).mainChain = core.mainChain := by
  simp only [mainChain, chain, mainLeaf, pushOnNewSegment, headD_append leaves_ne]
  exact wf.chain_addChild_of_lt _ main_lt

/-- The main chain after a committed block: it grows, is replaced by the branch the
block extends, or stays. -/
theorem Committed.mainChain_eq (shape : core.Shape)
    (placed : Placed core raw seg previous nd parents parent) (same : pushed.rawBlock = raw)
    (committed : Committed env order now core seg previous pushed core' result)
    (regular : (core.lineage seg).getTopBlockIndex ≠ previous → ¬ core.SharedRoot seg nd) :
    match result with
    | .addedToMain => core'.mainChain = core.mainChain ++ [(raw, parent.2.next pushed)]
    | .addedToAlternativeAndSwitched =>
      core'.mainChain = core.chain seg ++ [(raw, parent.2.next pushed)]
    | .addedToAlternative => core'.mainChain = core.mainChain := by
  cases committed with
  | extendMain top childless main =>
    change (core.pushBlock seg pushed).chain (core.pushBlock seg pushed).mainLeaf = _
    rw [mainLeaf_pushBlock, ← main, chain_pushBlock_self shape placed same top childless,
      mainChain, main]
  | extendAlternative top childless other lighter =>
    change (core.pushBlock seg pushed).chain (core.pushBlock seg pushed).mainLeaf = _
    rw [mainLeaf_pushBlock, chain, chainsStorage_pushBlock placed.lineage,
      shape.tree.wellFormed.chain_setValue_of_ne _ childless other.symm]
    rfl
  | switch top childless other heavier =>
    have mem := placed.mem_leaves_pushBlock shape childless pushed
    simp only
    rw [mainChain, mainLeaf_switchTo mem, chain, chainsStorage_switchTo]
    exact chain_pushBlock_self shape placed same top childless
  | forkOnTop top inner =>
    exact mainChain_pushOnNewSegment shape.tree.wellFormed shape.leaves.nonempty shape.mainLeaf_lt
  | forkInside below parts =>
    obtain ⟨tree, leaves, -, -⟩ := shape.splitSegment placed below parts
    simp only
    rw [← mainChain_splitSegment shape placed below (regular below) parts]
    exact mainChain_pushOnNewSegment tree.wellFormed leaves.nonempty
      (leaves.old _ leaves.headD_mem)

/-! ### Branches that outgrow the main chain -/

/-- A block on top of the segment makes it heavier than the main leaf. -/
def Outgrows (core : Core) (segment : Nat) : Prop :=
  segment ∈ core.chainsLeaves ∧ segment ≠ core.mainLeaf ∧
    core.cumulativeDifficulty core.mainLeaf <
      uint64 (core.cumulativeDifficulty segment +
        ((core.lineage segment).getDifficultyForNextBlock
          (core.lineage segment).getTopBlockIndex).getD 0)

instance (core : Core) (segment : Nat) : Decidable (core.Outgrows segment) :=
  inferInstanceAs (Decidable (_ ∧ _ ∧ _))

/-- The segment ends with the block of the given hash. -/
def EndsWith (core : Core) (segment : Nat) (hash : Hash) : Prop :=
  (core.chainsStorage.value? segment).any (fun cache =>
    decide (cache.getBlockIndex hash = cache.getTopBlockIndex)) = true

instance (core : Core) (segment : Nat) (hash : Hash) : Decidable (core.EndsWith segment hash) :=
  inferInstanceAs (Decidable (_ = true))

/-- On top of another leaf the core compares exactly this difficulty. -/
theorem outgrows_iff (shape : core.Shape)
    (passed : core.checkBlock env now raw = .ok (seg, previous, pushed))
    (placed : Placed core raw seg previous nd parents parent)
    (top : (core.lineage seg).getTopBlockIndex = previous)
    (childless : core.chainsStorage.childrenOf seg = []) (other : seg ≠ core.mainLeaf) :
    core.Outgrows seg ↔ (core.pushBlock seg pushed).cumulativeDifficulty core.mainLeaf <
      (core.pushBlock seg pushed).cumulativeDifficulty seg := by
  have same := rawBlock_of_checkBlock passed
  obtain ⟨new_weight, main_weight⟩ := cumulativeDifficulty_pushBlock shape placed same top other
  have parent_weight : core.cumulativeDifficulty seg = parent.2.cumulativeDifficulty :=
    shape.cumulativeDifficulty_eq (lt_size_of_node? placed.node)
      ((topEntry_eq placed.node).trans (placed.getLast?_entries shape top))
  have difficulty : ((core.lineage seg).getDifficultyForNextBlock
      (core.lineage seg).getTopBlockIndex).getD 0 = pushed.blockDifficulty := by
    obtain ⟨-, -, -, -, -, checked⟩ := checkBlock_ok passed
    obtain ⟨difficulty, fee, state, reward, checks, rfl⟩ := checkOnBranch_ok checked
    have next := checks.nextDifficulty
    unfold difficultyForNextBlock at next
    rw [top]
    split at next
    · rename_i found
      cases next
      rw [found]
      rfl
    · cases next
  rw [new_weight, main_weight, Outgrows, parent_weight, difficulty]
  exact ⟨fun outgrows => outgrows.2.2,
    fun heavier => ⟨placed.mem_leaves shape childless, other, heavier⟩⟩

theorem Placed.endsWith (placed : Placed core raw seg previous nd parents parent)
    (passed : core.checkBlock env now raw = .ok (seg, previous, pushed))
    (top : (core.lineage seg).getTopBlockIndex = previous) :
    core.EndsWith seg raw.block.previousBlockHash := by
  obtain ⟨-, -, cache, value, index, -⟩ := checkBlock_ok passed
  have same_cache : nd.value = cache := by
    rw [value?, placed.node] at value
    exact Option.some.inj value
  rw [placed.getTopBlockIndex_eq, same_cache, index] at top
  rw [EndsWith, value, Option.any_some, decide_eq_true_eq]
  exact top.symm

/-! ### The main leaf -/

variable {D : Hash → Nat}

/-- One call that keeps the root whole: the main chain stays, or the main leaf is heavier. -/
theorem Heaviest.mainChain_step (heaviest : core.Heaviest D) (shape : core.Shape) (call : Call)
    (fixed : core.FixedDifficulty env D call) (keeps : core.KeepsRoot env call) :
    (core.step env order call).mainChain = core.mainChain ∨
      core.cumulativeDifficulty core.mainLeaf <
        (core.step env order call).cumulativeDifficulty (core.step env order call).mainLeaf := by
  rcases step_cases env order core call with
    onlyPool | ⟨now, raw, seg, previous, pushed, result, rfl, passed, committed⟩
  · exact .inl onlyPool.mainChain_eq
  · obtain ⟨nd, parents, parent, placed, same⟩ := shape.placed passed
    obtain ⟨follows, positive⟩ := FixedDifficulty.follows shape passed placed fixed
    have grown := committed.mainChain_eq shape placed same
      fun below => placed.not_sharedRoot shape passed below keeps
    obtain ⟨-, ⟨rfl, -⟩ | heavier⟩ :=
      heaviest.weights shape placed same committed follows positive
    · exact .inl grown
    · exact .inr heavier

/-- In every run whose accepted blocks have the difficulty that belongs to their
predecessor, the first leaf is a leaf and at least as heavy as every other one after each
call. A further call that does not fork inside a database with children changes the main
chain only together with a strictly heavier main leaf. -/
theorem mainLeaf_heaviest (env : Env) (order : HashOrder) (genesis : CachedBlock) (D : Hash → Nat)
    (calls : List Call) (fixed : Along (step env order) (fun core => core.FixedDifficulty env D)
      (load genesis) calls) :
    let core := afterCalls env order genesis calls
    core.mainLeaf ∈ core.chainsLeaves ∧ core.chainsStorage.childrenOf core.mainLeaf = [] ∧
      (∀ leaf ∈ core.chainsLeaves,
        core.cumulativeDifficulty leaf ≤ core.cumulativeDifficulty core.mainLeaf) ∧
      ∀ call, core.FixedDifficulty env D call → core.KeepsRoot env call →
        let core' := afterCalls env order genesis (calls ++ [call])
        core'.mainChain = core.mainChain ∨ core.cumulativeDifficulty core.mainLeaf <
          core'.cumulativeDifficulty core'.mainLeaf := by
  intro core
  obtain ⟨shape, heaviest⟩ : core.Shape ∧ core.Heaviest D :=
    invariant_run (I := fun core => core.Shape ∧ core.Heaviest D)
      (fun _ call inv fixed => ⟨inv.1.step call, inv.2.step inv.1 call fixed⟩)
      ⟨shape_load genesis, .load D genesis⟩ fixed
  refine ⟨shape.mainLeaf_mem, shape.leaves.childless _ shape.mainLeaf_mem,
    fun leaf mem => heaviest.leaf_le shape mem, fun call fixed keeps => ?_⟩
  rw [afterCalls_concat]
  exact heaviest.mainChain_step shape call fixed keeps

end Core

namespace Core

open Sample

/-- A fork, and the block after which the core switches to it. -/
theorem mainLeaf_heaviest_switch :
    let core := afterCalls env .insertion genesis (calls (trunk 3 ++ [next 103 2 3 [] 0]))
    let core' := afterCalls env .insertion genesis
      (calls (trunk 3 ++ [next 103 2 3 [] 0]) ++ [.addBlock 100000 (next 104 103 4 [] 0)])
    core'.mainChain ≠ core.mainChain ∧
      core.cumulativeDifficulty core.mainLeaf < core'.cumulativeDifficulty core'.mainLeaf := by
  intro core core'
  have other : core'.mainChain ≠ core.mainChain := by
    intro same
    have lengths : core'.mainChain.length ≠ core.mainChain.length := by decide +kernel
    exact lengths (congrArg List.length same)
  refine ⟨other, Or.resolve_left ?_ other⟩
  exact (mainLeaf_heaviest env .insertion genesis (fun _ => 10000) _ (by decide +kernel)).2.2.2 _
    (by decide +kernel) (by decide +kernel)

/-- The second fork takes block 2 out of the main chain, which ends where it ended. -/
theorem not_mainLeaf_heaviest_secondFork :
    let core := afterCalls env .insertion genesis (calls (trunk 3 ++ [next 103 2 3 [] 0]))
    let core' := afterCalls env .insertion genesis (calls secondFork)
    Along (step env .insertion) (fun core => core.FixedDifficulty env fun _ => 10000)
        (load genesis) (calls secondFork) ∧
      hashesOf core.mainChain = [0, 1, 2, 3] ∧ hashesOf core'.mainChain = [0, 1, 3] ∧
      core'.cumulativeDifficulty core'.mainLeaf = core.cumulativeDifficulty core.mainLeaf := by
  decide +kernel

end Core

end DeroGold
