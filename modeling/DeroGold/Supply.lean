import DeroGold.Paths
import DeroGold.Checks
import DeroGold.WideRules
import DeroGold.Window

/-!
Coins along the blocks a core accepts.

Every accepted block adds to the stored total what its coinbase pays out minus the
fees of its transactions; the penalties for large blocks lower both sides alike. The
totals therefore telescope to the sum of the coinbases minus the sum of the fees, and
they never pass the money supply. The chains meant are those of `AcceptedChain`: a
block above the stored block the core found as its predecessor, in any run.
-/

namespace DeroGold

open SegmentTree Checked List Parameters

/-! ### The block reward in exact numbers -/

/-- A difference of small words read as a signed number. -/
theorem int64_subUInt64 {a b : Nat} (ha : a < 2 ^ 62) (hb : b < 2 ^ 62) :
    int64 (subUInt64 a b) = (a : Int) - b := by
  unfold int64 subUInt64 uint64
  rw [Int.bmod_def]
  omega

theorem zone_bounds (version : Nat) : 0 < blockGrantedFullRewardZoneByBlockVersion version ∧
      blockGrantedFullRewardZoneByBlockVersion version < 2 ^ 32 := by
  unfold blockGrantedFullRewardZoneByBlockVersion
  split
  · decide
  · split <;> decide

variable {fee : Nat} {context : ValidationContext}

/-- The reward is a part of the remaining supply plus a part of the fees, and the
emission is what of it does not come from fees. -/
theorem getBlockReward_spec {version medianSize size coins height : Nat} {reward : BlockReward}
    (median : medianSize < 2 ^ 32) (coins_le : coins ≤ moneySupply) (fee_le : fee ≤ moneySupply)
    (rewarded : getBlockReward version medianSize size coins fee height = some reward) :
    ∃ base feePart, base ≤ moneySupply - coins ∧ feePart ≤ fee ∧ reward.reward = base + feePart ∧
      reward.emissionChange = (base : Int) - (fee - feePart : Nat) := by
  have supply : moneySupply = 10000000000000000 := rfl
  obtain ⟨zone_pos, zone_lt⟩ := zone_bounds version
  simp only [getBlockReward] at rewarded
  split at rewarded
  · cases rewarded
  · rename_i size_le
    cases rewarded
    have wide : max medianSize (blockGrantedFullRewardZoneByBlockVersion version) < 2 ^ 32 :=
      Nat.max_lt.2 ⟨median, zone_lt⟩
    rw [uint64_of_lt (by omega)] at size_le
    have penalized_le : ∀ {amount : Nat}, amount < 2 ^ 64 → getPenalizedAmount amount
        (max medianSize (blockGrantedFullRewardZoneByBlockVersion version)) size ≤ amount :=
      fun word => getPenalizedAmount_le word wide (Nat.le_of_not_lt size_le)
    rw [subUInt64_of_le (by omega) coins_le]
    generalize (if emissionSpeedFactorV2Height ≤ height then
      emissionSpeedFactorV2 else emissionSpeedFactor) = emission
    have shifted : (moneySupply - coins) >>> emission ≤ moneySupply - coins := Nat.shiftRight_le _ _
    have base_le := (penalized_le (lt_of_le_of_lt shifted (by omega))).trans shifted
    have fee_part : (if 2 ≤ version then getPenalizedAmount fee
        (max medianSize (blockGrantedFullRewardZoneByBlockVersion version)) size else fee) ≤ fee := by
      split
      · exact penalized_le (by omega)
      · exact le_refl _
    generalize getPenalizedAmount ((moneySupply - coins) >>> emission) _ size = base
      at base_le ⊢
    generalize (if 2 ≤ version then _ else fee : Nat) = feePart at fee_part ⊢
    refine ⟨base, feePart, base_le, fee_part, uint64_of_lt (by omega), ?_⟩
    have base_lt : base < 2 ^ 62 := by omega
    have rest_lt : fee - feePart < 2 ^ 62 := by omega
    rw [subUInt64_of_le (by omega) fee_part, ← int64_subUInt64 base_lt rest_lt]

/-! ### Fees and coinbase of a block -/

/-- Fees of all transactions of a block. -/
def RawBlock.fees (raw : RawBlock) : Nat := (raw.cachedTransactions.map (·.fee)).sum

/-- What the coinbase of a block pays out. -/
def RawBlock.coinbase (raw : RawBlock) : Nat := raw.block.baseTransaction.transaction.sumOfOutputs

theorem fee_validateBlockTransactions {raw : RawBlock} {state : TransactionValidatorState}
    (passed : validateBlockTransactions context raw.cachedTransactions = .ok (state, fee)) :
    fee = uint64 raw.fees := by
  have loop := (foldlM_validateBlockTransaction passed nodup_nil).2.2.1 (by decide)
  rwa [zero_add] at loop

/-- The miner's reward is what the coinbase pays out. -/
theorem validateBlock_reward {env : Env} {now : Nat} {lineage : Lineage} {previous reward : Nat}
    {raw : RawBlock} (passed : validateBlock env now lineage previous raw.block = .ok reward) :
    reward = raw.coinbase := by
  unfold validateBlock at passed
  iterate 10 obtain ⟨-, passed⟩ := of_require_bind.1 passed
  unfold minerReward at passed
  split at passed
  · rename_i sum outputs
    cases passed
    exact validateTransactionOutputs_ok outputs
  · cases passed
  · cases passed

/-! ### One accepted block -/

namespace Core

variable {env : Env} {order : HashOrder} {now : Nat} {core : Core} {raw : RawBlock}
  {seg previous : Nat} {pushed : PushedBlockInfo} {nd : Node Cache}
  {parents : Lineage} {parent : Entry}

/-- The window of sizes a reward is computed from holds 32-bit sizes only. -/
theorem medianSize_lt (shape : core.Shape) (units : core.UnitsOk) (seg count index : Nat)
    (useGenesis : Bool) :
    medianValue ((core.lineage seg).getLastBlocksSizes count index useGenesis) < 2 ^ 32 := by
  refine medianValue_lt ?_ (by decide)
  intro size mem
  obtain ⟨info, collected, rfl⟩ := mem_map.1 mem
  obtain ⟨cache, above, info_mem⟩ := Lineage.mem_getLastUnits (units.lineage seg) collected
  obtain ⟨i, nd, found, rfl⟩ := exists_node_of_mem_lineage above
  have sound := shape.tree.sound found
  rw [← Cache.map_snd_entries sound.aligned] at info_mem
  obtain ⟨entry, entry_mem, rfl⟩ := mem_map.1 info_mem
  exact (sound.stored entry entry_mem).size_lt

theorem Placed.getAlreadyGeneratedCoins_eq
    (placed : Placed core raw seg previous nd parents parent) (shape : core.Shape) :
    (core.lineage seg).getAlreadyGeneratedCoins previous = parent.2.alreadyGeneratedCoins := by
  have info_at : nd.value.blockInfos[previous - nd.value.getStartBlockIndex]? = some parent.2 := by
    rw [← Cache.map_snd_entries (shape.tree.sound placed.node).aligned, getElem?_map,
      placed.parent_at]
    rfl
  rw [placed.lineage, Lineage.getAlreadyGeneratedCoins, Lineage.getBlockInfo,
    if_neg (not_lt.2 placed.start_le), info_at]
  rfl

/-- A block that passes its checks adds to the total what its coinbase pays out, less
its fees, and the total stays within the money supply. -/
theorem coins_next (shape : core.Shape) (units : core.UnitsOk)
    (placed : Placed core raw seg previous nd parents parent)
    (passed : core.checkBlock env now raw = .ok (seg, previous, pushed))
    (coins_le : parent.2.alreadyGeneratedCoins ≤ moneySupply)
    (fees_le : raw.fees ≤ parent.2.alreadyGeneratedCoins) :
    (parent.2.next pushed).alreadyGeneratedCoins + raw.fees =
        parent.2.alreadyGeneratedCoins + raw.coinbase ∧
      (parent.2.next pushed).alreadyGeneratedCoins ≤ moneySupply := by
  obtain ⟨-, -, -, -, -, checked⟩ := checkBlock_ok passed
  obtain ⟨difficulty, fee, state, reward, checks, rfl⟩ := checkOnBranch_ok checked
  have supply : moneySupply = 10000000000000000 := rfl
  have fee_eq := fee_validateBlockTransactions checks.transactions
  rw [uint64_of_lt (by omega)] at fee_eq
  subst fee_eq
  have rewarded := checks.rewarded
  unfold blockReward at rewarded
  rw [placed.getAlreadyGeneratedCoins_eq shape] at rewarded
  simp only at rewarded
  split at rewarded
  · rename_i reward' computed
    cases rewarded
    obtain ⟨base, feePart, base_le, feePart_le, reward_eq, change_eq⟩ :=
      getBlockReward_spec (medianSize_lt shape units ..) coins_le (fees_le.trans coins_le) computed
    have coinbase_eq := validateBlock_reward checks.block
    have total : ((parent.2.next (BranchChecks.pushed raw difficulty state reward)).alreadyGeneratedCoins
        : Int) = parent.2.alreadyGeneratedCoins + reward.emissionChange := by
      -- the change is stored as an unsigned word
      simp only [CachedBlockInfo.next, nextBlockInfo, BranchChecks.pushed, uint64, uint64OfInt]
      omega
    omega
  · cases rewarded

/-! ### Chains of accepted blocks -/

/-- The chains of blocks a run has accepted: the genesis block, and every accepted block
above the stored block found as its predecessor. The entry of an accepted block is the
one the call adds to the stored ones. -/
inductive AcceptedChain (env : Env) (order : HashOrder) (genesis : CachedBlock) :
    List Call → List Entry → Prop
  | genesis : AcceptedChain env order genesis [] [genesisEntry genesis]
  | later {calls : List Call} {chain : List Entry} (call : Call)
      (accepted : AcceptedChain env order genesis calls chain) :
      AcceptedChain env order genesis (calls ++ [call]) chain
  | accepted {calls : List Call} {chain : List Entry} {parent entry : Entry} {now segment : Nat}
      {cache : Cache} {result : AddBlockResult}
      (below : AcceptedChain env order genesis calls chain)
      (last : chain.getLast? = some parent)
      (found : (afterCalls env order genesis calls).findSegmentContainingBlock
        entry.1.block.previousBlockHash = some segment)
      (value : (afterCalls env order genesis calls).chainsStorage.value? segment = some cache)
      (parent_at : cache.entries[cache.getBlockIndex entry.1.block.previousBlockHash -
        cache.getStartBlockIndex]? = some parent)
      (added : ((afterCalls env order genesis calls).addBlock env order now entry.1).2 =
        .added result)
      (stored : (afterCalls env order genesis (calls ++ [.addBlock now entry.1])).allEntries.Perm
        (entry :: (afterCalls env order genesis calls).allEntries)) :
      AcceptedChain env order genesis (calls ++ [.addBlock now entry.1]) (chain ++ [entry])

/-- An accepted block and its predecessor, with what was checked. -/
theorem exists_placed_of_accepted (shape : core.Shape) {result : AddBlockResult} {entry : Entry}
    {cache : Cache}
    (found : core.findSegmentContainingBlock entry.1.block.previousBlockHash = some seg)
    (value : core.chainsStorage.value? seg = some cache)
    (parent_at : cache.entries[cache.getBlockIndex entry.1.block.previousBlockHash -
      cache.getStartBlockIndex]? = some parent)
    (added : (core.addBlock env order now entry.1).2 = .added result)
    (stored : (core.step env order (.addBlock now entry.1)).allEntries.Perm
      (entry :: core.allEntries)) :
    ∃ previous pushed nd parents,
      core.checkBlock env now entry.1 = .ok (seg, previous, pushed) ∧
      Placed core entry.1 seg previous nd parents parent ∧
      entry.2 = parent.2.next pushed := by
  rcases addBlock_cases env order now core entry.1 with
    ⟨reason, failed, -⟩ |
    ⟨segment', previous, pushed, result', passed, -, committed⟩
  · cases failed.symm.trans added
  obtain ⟨-, found', cache', value', index, -⟩ := checkBlock_ok passed
  obtain rfl := Option.some.inj (found.symm.trans found')
  obtain ⟨nd, parents, parent', placed, same⟩ := shape.placed passed
  have node_value : nd.value = cache := by
    rw [value?, placed.node] at value
    exact Option.some.inj value
  have cache_eq : cache' = cache := Option.some.inj (value'.symm.trans value)
  obtain rfl : parent' = parent := by
    have at_index := placed.parent_at
    rw [index, cache_eq, node_value, parent_at] at at_index
    exact (Option.some.inj at_index).symm
  refine ⟨previous, pushed, nd, parents, passed, placed, ?_⟩
  have grown := committed.allEntries_perm shape placed same
  have same : entry ::ₘ (core.allEntries : Multiset Entry) =
      (entry.1, parent'.2.next pushed) ::ₘ (core.allEntries : Multiset Entry) :=
    Multiset.coe_eq_coe.2 (stored.symm.trans grown)
  exact congrArg Prod.snd ((Multiset.cons_inj_left _).1 same)

/-! ### Conservation -/

/-- Coinbases minus fees of a list of blocks, as an integer. -/
def netCoins (chain : List Entry) : Int :=
  (chain.map fun entry => (entry.1.coinbase : Int)).sum -
    (chain.map fun entry => (entry.1.fees : Int)).sum

theorem netCoins_concat (chain : List Entry) (entry : Entry) :
    netCoins (chain ++ [entry]) = netCoins chain + entry.1.coinbase - entry.1.fees := by
  simp only [netCoins, map_append, sum_append, map_singleton, sum_singleton]
  omega

/-- The total stored with the last block is the net sum of the chain, within the supply. -/
def Conserved (chain : List Entry) (last : Entry) : Prop :=
  (last.2.alreadyGeneratedCoins : Int) = netCoins chain ∧ last.2.alreadyGeneratedCoins ≤ moneySupply

/-- The sum of a small coinbase does not wrap. -/
theorem conserved_genesis {genesis : CachedBlock}
    (small : genesis.baseTransaction.transaction.sumOfOutputs ≤ moneySupply) :
    Conserved [genesisEntry genesis] (genesisEntry genesis) := by
  have supply : moneySupply = 10000000000000000 := rfl
  have total : (genesisEntry genesis).2.alreadyGeneratedCoins =
      genesis.baseTransaction.transaction.sumOfOutputs := by
    apply (foldl_uint64_add _ _ 0).trans
    rw [zero_add]
    exact uint64_of_lt (lt_of_le_of_lt small (by decide))
  refine ⟨?_, total ▸ small⟩
  rw [total]
  simp [netCoins, genesisEntry, RawBlock.coinbase, RawBlock.fees, RawBlock.cachedTransactions]

/-- Along every chain of accepted blocks whose fees do not exceed the coins generated
before them, every stored total is exactly the coinbases so far minus the fees so far,
and no total exceeds the money supply. The genesis block is given with the core; the
one of the currency pays out 2980232. -/
theorem supply_conserved (env : Env) (order : HashOrder) (genesis : CachedBlock)
    (small : genesis.baseTransaction.transaction.sumOfOutputs ≤ moneySupply)
    {calls : List Call} {chain : List Entry}
    (accepted : AcceptedChain env order genesis calls chain)
    (fees_le : chain.IsChain fun below entry => entry.1.fees ≤ below.2.alreadyGeneratedCoins) :
    (∀ entry ∈ chain, entry ∈ (afterCalls env order genesis calls).allEntries) ∧
      ∀ start entry, start ++ [entry] <+: chain → Conserved (start ++ [entry]) entry := by
  induction accepted with
  | genesis =>
    constructor
    · exact forall_mem_singleton.2 mem_cons_self
    · intro start entry ahead
      have single := append_eq_singleton_iff.1
        (ahead.eq_of_length_le (by simp))
      rcases single with ⟨rfl, same⟩ | ⟨-, absurd⟩
      · cases same
        exact conserved_genesis small
      · cases absurd
  | @later calls chain call accepted ih =>
    obtain ⟨held, conserved⟩ := ih fees_le
    refine ⟨fun entry mem => ?_, conserved⟩
    rw [afterCalls_concat]
    exact allEntries_subset_step (shape_afterCalls env order genesis calls) call (held entry mem)
  | @accepted calls chain parent entry now segment cache result below last found value parent_at
      added stored ih =>
      obtain ⟨fees_below, -, fees_here⟩ := isChain_append.1 fees_le
      obtain ⟨held, conserved⟩ := ih fees_below
      have shape := shape_afterCalls env order genesis calls
      have entry_fees : entry.1.fees ≤ parent.2.alreadyGeneratedCoins :=
        fees_here parent last entry rfl
      constructor
      · exact forall_mem_append.2
          ⟨fun other mem => stored.mem_iff.2 (mem_cons_of_mem _ (held other mem)),
            forall_mem_singleton.2 (stored.mem_iff.2 mem_cons_self)⟩
      · intro start other ahead
        rcases prefix_concat_iff.1 ahead with whole | ahead
        · obtain ⟨rfl, same⟩ := append_inj' whole rfl
          cases same
          rw [afterCalls_concat] at stored
          obtain ⟨previous, pushed, nd, parents, passed, placed, info⟩ :=
            exists_placed_of_accepted shape found value parent_at added stored
          obtain ⟨init, chain_eq⟩ := getLast?_eq_some_iff.1 last
          obtain ⟨parent_total, parent_le⟩ := conserved init parent (by rw [chain_eq])
          rw [← chain_eq] at parent_total
          obtain ⟨total, total_le⟩ := coins_next shape (unitsOk_afterCalls env order genesis calls)
            placed passed parent_le entry_fees
          rw [← info] at total total_le
          refine ⟨?_, total_le⟩
          rw [netCoins_concat, ← parent_total]
          omega
        · exact conserved start other ahead

/-- A genesis block whose output can be spent at once. -/
def unlockedGenesis : CachedBlock :=
  { Sample.genesis with
    baseTransaction := ⟨⟨0, [.base 0], [⟨2980232, 1⟩], 0, []⟩, 1000000, 100⟩ }

/-- The entry of a first block that spends the genesis output with a fee of ten. -/
def firstSpend : Entry :=
  (Sample.next 1 0 1 [Sample.spend] 10, {
    blockHash := 1
    timestamp := 1010
    cumulativeDifficulty := 10001
    alreadyGeneratedCoins := 1195073127
    alreadyGeneratedTransactions := 3
    blockSize := 300 })

theorem acceptedChain_firstSpend :
    AcceptedChain Sample.env .insertion unlockedGenesis [.addBlock 100000 firstSpend.1]
      [genesisEntry unlockedGenesis, firstSpend] := by
  have added : ((load unlockedGenesis).addBlock Sample.env .insertion 100000 firstSpend.1).2 =
      .added .addedToMain := by decide +kernel
  have stored : (afterCalls Sample.env .insertion unlockedGenesis
      [.addBlock 100000 firstSpend.1]).allEntries.Perm
        (firstSpend :: (load unlockedGenesis).allEntries) := by decide +kernel
  have found : (load unlockedGenesis).findSegmentContainingBlock
      firstSpend.1.block.previousBlockHash = some 0 := by decide +kernel
  have value : (load unlockedGenesis).chainsStorage.value? 0 =
      some (.database (.addGenesisBlock unlockedGenesis)) := rfl
  exact .accepted .genesis rfl found value rfl added stored

/-- The coins of the genesis block and of a block with a fee. -/
theorem supply_conserved_firstSpend :
    Conserved [genesisEntry unlockedGenesis, firstSpend] firstSpend :=
  (supply_conserved Sample.env .insertion unlockedGenesis (by decide) acceptedChain_firstSpend
    (by decide)).2 [genesisEntry unlockedGenesis] firstSpend (prefix_refl _)

end Core

end DeroGold
