import DeroGold.Queries
import DeroGold.Rings

/-!
What a split of an in-memory segment changes for those who ask.

The upper half answers with the help of the lower one, which stays between it and the
parents. Blocks, hashes and units are the same as before, because the chain of the branch
is. Two answers depend on the segment that holds the data and not on the chain alone: a
segment that knows a key image from a later block answers for itself instead of asking its
parents, and it hands out keys of outputs that lie above the block index it is asked for
(`split_invisible_iff`).
-/

namespace DeroGold

open SegmentTree Slice Search Checked List Option Lineage Cache

/-! ### The questions -/

/-- What a segment is asked. -/
inductive Query where
  | checkIfSpent (keyImage : KeyImage) (blockIndex : Nat)
  | getBlockHash (blockIndex : Nat)
  | getBlockHashes (startIndex maxCount : Nat)
  | getLastTimestamps (count blockIndex : Nat) (useGenesis : Bool)
  | getLastBlocksSizes (count blockIndex : Nat) (useGenesis : Bool)
  | getLastCumulativeDifficulties (count blockIndex : Nat) (useGenesis : Bool)
  | getBlocksByHeight (startHeight endHeight : Nat)
  | getNonEmptyBlocks (startHeight blockCount : Nat)
  | extractKeyOutputKeys (now : Nat) (amount : Amount) (blockIndex : Nat) (globalIndexes : List Nat)

inductive Answer where
  | spent (spent : Bool)
  | hash (hash : Option Hash)
  | hashes (hashes : List Hash)
  | units (values : List Nat)
  | blocks (blocks : Option (List RawBlock))
  | keys (keys : Except ExtractOutputKeysError (List PublicKey))

def Lineage.answer (lineage : Lineage) : Query → Answer
  | .checkIfSpent keyImage blockIndex => .spent (lineage.checkIfSpent keyImage blockIndex)
  | .getBlockHash blockIndex => .hash (lineage.getBlockHash blockIndex)
  | .getBlockHashes startIndex maxCount => .hashes (lineage.getBlockHashes startIndex maxCount)
  | .getLastTimestamps count blockIndex useGenesis =>
    .units (lineage.getLastTimestamps count blockIndex useGenesis)
  | .getLastBlocksSizes count blockIndex useGenesis =>
    .units (lineage.getLastBlocksSizes count blockIndex useGenesis)
  | .getLastCumulativeDifficulties count blockIndex useGenesis =>
    .units (lineage.getLastCumulativeDifficulties count blockIndex useGenesis)
  | .getBlocksByHeight startHeight endHeight =>
    .blocks (lineage.getBlocksByHeight startHeight endHeight)
  | .getNonEmptyBlocks startHeight blockCount =>
    .blocks (some (lineage.getNonEmptyBlocks startHeight blockCount))
  | .extractKeyOutputKeys now amount blockIndex globalIndexes =>
    .keys (lineage.extractKeyOutputKeys now amount blockIndex globalIndexes)

/-- Block indexes lie on the branch and counts are 32-bit numbers. Output indexes ascend and
name outputs of the branch that are unlocked. -/
def Query.Asks (lineage : Lineage) : Query → Prop
  | .checkIfSpent _ blockIndex => blockIndex ≤ lineage.getTopBlockIndex
  | .getLastTimestamps count blockIndex _ | .getLastBlocksSizes count blockIndex _
  | .getLastCumulativeDifficulties count blockIndex _ =>
    blockIndex ≤ lineage.getTopBlockIndex ∧ count < 2 ^ 32
  | .extractKeyOutputKeys now amount blockIndex globalIndexes =>
    blockIndex ≤ lineage.getTopBlockIndex ∧ globalIndexes ≠ [] ∧
      globalIndexes.Pairwise (· < ·) ∧
      ∀ globalIndex ∈ globalIndexes, ∃ row, (outputsOf amount lineage.raws)[globalIndex]? = some row ∧
        lineage.isTransactionSpendTimeUnlocked now row.unlockTime blockIndex = true
  | _ => True

/-- The answer does not depend on a later block of the segment: between the segment's first
block and the split, no key image is asked for that the parents know as spent and the
segment from above the split, and no output from above the split. -/
def Query.Clear (segment : BlockchainCache) (parents : Lineage) (splitBlockIndex : Nat) :
    Query → Prop
  | .checkIfSpent keyImage blockIndex =>
    ¬ (segment.startIndex ≤ blockIndex ∧ blockIndex < splitBlockIndex ∧
      (∃ spentAt, segment.spentKeyImages keyImage = some spentAt ∧ splitBlockIndex ≤ spentAt) ∧
      parents.checkIfSpent keyImage blockIndex = true)
  | .extractKeyOutputKeys _ amount blockIndex globalIndexes =>
    segment.startIndex ≤ blockIndex → blockIndex < splitBlockIndex →
      ∀ globalIndex ∈ globalIndexes, globalIndex < (outputsOf amount
        ((raws (.memory segment :: parents)).take splitBlockIndex)).length
  | _ => True

/-! ### Branches in order -/

/-- A branch whose segments describe their parts of the chain. -/
structure Lineage.InOrder (lineage : Lineage) : Prop where
  whole : lineage.Whole
  outputs : LineageOk entries OutputsOk lineage
  infos : LineageOk entries Cache.InfosOk lineage
  units : ∀ cache ∈ lineage, cache.UnitsOk

theorem Lineage.InOrder.parents {cache : Cache} {parents : Lineage}
    (ok : Lineage.InOrder (cache :: parents)) : parents.InOrder :=
  ⟨ok.whole.2, ok.outputs.2, ok.infos.2, (forall_mem_cons.1 ok.units).2⟩

namespace Core

theorem inOrder_afterCalls {env : Env} {order : HashOrder} {genesis : CachedBlock}
    {calls : List Call} (ok : TransitionSystem.Along (step env order)
      (fun core call => core.KeepsRoot env call ∧ core.FreshTransactions call) (load genesis) calls)
    (seg : Nat) : ((afterCalls env order genesis calls).lineage seg).InOrder := by
  have keeps := ok.mono fun _ _ both => both.1
  have linear := linear_afterCalls keeps
  have wf := linear.shape.tree.wellFormed
  refine ⟨linear.fits.lineageOk wf seg, (outputsOk_afterCalls ok).lineageOk wf seg,
    (infosOk_afterCalls keeps).lineageOk wf seg,
    (unitsOk_afterCalls env order genesis calls).lineage seg⟩

end Core

section

variable {seg : BlockchainCache} {parents : Lineage} {cut : Nat}

/-- The split branch: the upper half, the lower half, the parents. -/
def Lineage.split (segment : BlockchainCache) (parents : Lineage) (splitBlockIndex : Nat) : Lineage :=
  .memory (segment.split splitBlockIndex).2 :: .memory (segment.split splitBlockIndex).1 :: parents

/-- A split index strictly inside the segment. -/
structure SplitInside (segment : BlockchainCache) (splitBlockIndex : Nat) : Prop where
  above : segment.startIndex < splitBlockIndex
  inside : splitBlockIndex ≤ (memory segment).getTopBlockIndex

namespace Lineage

theorem chain_split (whole : Whole (.memory seg :: parents)) (at_split : SplitInside seg cut) :
    (split seg parents cut).chain = chain (.memory seg :: parents) := by
  obtain ⟨lower_eq, upper_eq, -⟩ :=
    Cache.split_entries whole.1.sound at_split.above at_split.inside (rfl : Cache.split _ _ = some (_, _))
  rw [split, chain, chainOf, chainOf, lower_eq, upper_eq, append_assoc, take_append_drop]
  rfl

variable {index : Nat} {amount : Amount} {indexes : List Nat}

section

variable (ok : InOrder (.memory seg :: parents)) (at_split : SplitInside seg cut)
include ok at_split

theorem InOrder.split : InOrder (split seg parents cut) := by
  obtain ⟨⟨fits, fitsBelow⟩, ⟨outputs, outputsBelow⟩, ⟨infos, infosBelow⟩, units⟩ := ok
  have halves : Cache.split (.memory seg) cut =
    some (.memory (seg.split cut).1, .memory (seg.split cut).2) := rfl
  obtain ⟨-, lower_fits, upper_fits⟩ := fits.split at_split.above at_split.inside halves
  obtain ⟨lower_outputs, upper_outputs⟩ :=
    Cache.outputsOk_split fits outputs at_split.above at_split.inside halves
  obtain ⟨lower_infos, upper_infos⟩ := Cache.infosOk_split fits.sound infos at_split.above
    at_split.inside halves
  refine ⟨⟨upper_fits, lower_fits, fitsBelow⟩, ⟨upper_outputs, lower_outputs, outputsBelow⟩,
    ⟨upper_infos, lower_infos, infosBelow⟩, ?_⟩
  exact forall_mem_cons.2 ⟨trivial, forall_mem_cons.2 ⟨trivial, (forall_mem_cons.1 units).2⟩⟩

theorem getTopBlockIndex_split : (split seg parents cut).getTopBlockIndex =
      getTopBlockIndex (.memory seg :: parents) := by
  have before := ok.whole.getTopBlockIndex_eq
  have after : getTopBlockIndex (split seg parents cut) + 1 = _ :=
    Whole.getTopBlockIndex_eq (ok.split at_split).whole
  have same : (split seg parents cut).chain.length = _ :=
    congrArg length (chain_split ok.whole at_split)
  rw [split] at after same ⊢
  omega

/-! ### Blocks and units -/

theorem infos_split : (split seg parents cut).infos = infos (.memory seg :: parents) := by
  rw [infos, chain_split ok.whole at_split]
  rfl

theorem raws_split : (split seg parents cut).raws = raws (.memory seg :: parents) := by
  rw [raws, chain_split ok.whole at_split]
  rfl

theorem raws_lower :
    raws (.memory (seg.split cut).1 :: parents) = (raws (.memory seg :: parents)).take cut := by
  have start : seg.startIndex = parents.chain.length := ok.whole.1.start
  have above := at_split.above
  obtain ⟨-, lower⟩ := (ok.split at_split).whole
  rw [raws_cons lower.1.sound, raws_cons ok.whole.1.sound, take_append,
    take_of_length_le (by rw [length_raws]; omega), length_raws, ← start]
  rfl

theorem getLastUnits_split {count : Nat}
    (asks : index ≤ getTopBlockIndex (.memory seg :: parents) ∧ count < 2 ^ 32)
    (useGenesis : Bool) : (split seg parents cut).getLastUnits count index useGenesis =
      getLastUnits (.memory seg :: parents) count index useGenesis := by
  have top := ok.whole.getTopBlockIndex_eq
  have chain_eq := congrArg length (chain_split ok.whole at_split)
  rw [getLastUnits_eq (ok.split at_split).whole (ok.split at_split).units (by omega) asks.2,
    getLastUnits_eq ok.whole ok.units (by omega) asks.2, infos_split ok at_split]

theorem isTransactionSpendTimeUnlocked_split (now unlockTime index : Nat) :
    (split seg parents cut).isTransactionSpendTimeUnlocked now unlockTime index =
      isTransactionSpendTimeUnlocked (.memory seg :: parents) now unlockTime index := by
  have newest : (split seg parents cut).getLastTimestampsFromTop 1 =
      getLastTimestampsFromTop (.memory seg :: parents) 1 := by
    rw [getLastTimestampsFromTop, getLastTimestampsFromTop, getTopBlockIndex_split ok at_split,
      getLastTimestamps, getLastTimestamps]
    exact congrArg (map (·.timestamp))
      (getLastUnits_split ok at_split ⟨le_refl _, Nat.one_lt_two_pow (by decide)⟩ false)
  rw [isTransactionSpendTimeUnlocked, isTransactionSpendTimeUnlocked, newest]

/-- An empty range of blocks, too, is read from the same place. -/
theorem getBlocksByHeight_split (start endHeight : Nat) :
    (split seg parents cut).getBlocksByHeight start endHeight =
      getBlocksByHeight (.memory seg :: parents) start endHeight := by
  rcases Nat.lt_or_ge start endHeight with lt | empty
  · rw [getBlocksByHeight_eq (ok.split at_split).whole (cons_ne_nil _ _) lt,
      getBlocksByHeight_eq ok.whole (cons_ne_nil _ _) lt, raws_split ok at_split]
  · have own : ∀ (cache : BlockchainCache) (below : Lineage), ¬ endHeight < cache.startIndex →
        getBlocksByHeight (.memory cache :: below) start endHeight = some [] := by
      intro cache below here
      rw [getBlocksByHeight, if_neg here, if_neg (by omega), bind_eq_bind, bind_some]
      dsimp only
      rw [slice_of_le (by omega)]
      rfl
    have passed : ∀ (cache : BlockchainCache) (below : Lineage), endHeight < cache.startIndex →
        getBlocksByHeight (.memory cache :: below) start endHeight =
          getBlocksByHeight below start endHeight := by
      intro cache below lower
      rw [getBlocksByHeight, if_pos lower]
    have above := at_split.above
    rw [split]
    rcases Nat.lt_or_ge endHeight seg.startIndex with low | high
    · rw [passed _ _ (show endHeight < cut by omega), passed seg _ low]
      exact passed _ _ low
    · rw [own seg _ (not_lt.2 high)]
      rcases Nat.lt_or_ge endHeight cut with lower | upper
      · rw [passed _ _ lower]
        exact own _ _ (not_lt.2 high)
      · exact own _ _ (not_lt.2 upper)

end

/-! ### Key images -/

/-- The answer of a segment that starts at an index, from its table and from its parents. -/
def answerSpent (startIndex : Nat) (known : Option Nat) (parentsAnswer : Bool) (blockIndex : Nat) :
    Bool :=
  if blockIndex < startIndex then parentsAnswer
  else match known with
    | none => parentsAnswer
    | some spentAt => decide (spentAt ≤ blockIndex)

theorem checkIfSpent_memory (cache : BlockchainCache) (below : Lineage) (keyImage : KeyImage)
    (index : Nat) : checkIfSpent (.memory cache :: below) keyImage index =
      answerSpent cache.startIndex (cache.spentKeyImages keyImage)
        (below.checkIfSpent keyImage index) index := by
  rw [checkIfSpent]
  exact (answerSpent.eq_def ..).symm

/-- Only the lower half passes on what the whole segment has an answer to. -/
theorem checkIfSpent_split (at_split : SplitInside seg cut) (keyImage : KeyImage) (index : Nat) :
    (split seg parents cut).checkIfSpent keyImage index =
        checkIfSpent (.memory seg :: parents) keyImage index ↔
      (Query.checkIfSpent keyImage index).Clear seg parents cut := by
  have above := at_split.above
  have lower_known : (seg.split cut).1.spentKeyImages keyImage =
    (seg.spentKeyImages keyImage).filter fun spentAt => decide (spentAt < cut) := rfl
  have upper_known : (seg.split cut).2.spentKeyImages keyImage =
    (seg.spentKeyImages keyImage).filter fun spentAt => decide (cut ≤ spentAt) := rfl
  have lower_start : (seg.split cut).1.startIndex = seg.startIndex := rfl
  have upper_start : (seg.split cut).2.startIndex = cut := rfl
  rw [Query.Clear, split, checkIfSpent_memory, checkIfSpent_memory, checkIfSpent_memory,
    lower_known, upper_known, lower_start, upper_start]
  generalize parents.checkIfSpent keyImage index = parentsAnswer
  cases known : seg.spentKeyImages keyImage with
  | none => simp [answerSpent]
  | some spentAt =>
    simp only [answerSpent, filter_some, decide_eq_true_eq, some.injEq, exists_eq_left']
    rcases Nat.lt_or_ge index seg.startIndex with low | high
    · simp [low, lt_trans low above, not_le.2 low]
    · rcases Nat.lt_or_ge spentAt cut with lower | upper
      · simp [not_lt.2 high, lower, not_le.2 lower]
      · by_cases below : index < cut
        · have later : ¬ spentAt ≤ index := not_le.2 (lt_of_lt_of_le below upper)
          simp [not_lt.2 high, high, below, upper, not_lt.2 upper, later]
        · simp [not_lt.2 high, below, upper]

/-! ### Keys of outputs -/

variable {cache : BlockchainCache} {unlocked : Nat → Bool}

theorem keyOn_of_extractOwnKey {below : List RawBlock} (own : cache.Above below) {key : PublicKey}
    (found : cache.extractOwnKey (ownTable amount below cache.storage) unlocked index = .ok key) :
    keyOn amount (below ++ cache.storage) index = some key := by
  have above : (outputsOf amount below).length ≤ index := by
    by_contra low
    rw [BlockchainCache.extractOwnKey, if_pos (not_le.1 low)] at found
    cases found
  rw [extractOwnKey_eq own unlocked amount above] at found
  exact keyOn_of_spendableKey found

/-- There are at most as many keys as indexes of outputs of the chain. -/
theorem length_keys_le {lineage : Lineage} {indexes : List Nat} {keys : List PublicKey}
    (ok : lineage.InOrder) (reached : ∀ cache ∈ lineage, cache.getStartBlockIndex ≤ index)
    (extracted : lineage.extractKeyOutputs unlocked amount index indexes = .ok keys) :
    keys.length ≤ indexes.countP fun index => (keyOn amount lineage.raws index).isSome := by
  induction lineage generalizing indexes keys with
  | nil =>
    cases extracted
  | cons cache parents ih =>
    cases cache with
    | database cache =>
      have rows : RowsOk cache := ok.outputs.1.tables
      rw [rows.keys_eq extracted, Whole.raws_database ok.whole, length_filterMap_eq_countP,
        (perm_insertionSort ..).countP_eq]
      exact (dedup_sublist _).countP_le
    | memory cache =>
      have onTop : cache.Above (raws parents) :=
        BlockchainCache.above ok.whole.1 ok.outputs.1 ok.infos.1
      have below : ∀ {part keys}, extractKeyOutputs unlocked parents amount index part = .ok keys →
          keys.length ≤ part.countP fun index =>
            (keyOn amount (raws parents ++ cache.storage) index).isSome := by
        intro part keys asked
        refine (ih ok.parents (forall_mem_cons.1 reached).2 asked).trans (countP_mono_left ?_)
        intro i _ found
        obtain ⟨key, at_i⟩ := isSome_iff_exists.1 found
        exact isSome_iff_exists.2 ⟨key, keyOn_append at_i _⟩
      rw [raws_cons ok.whole.1.sound]
      rw [extractKeyOutputs] at extracted
      rcases onTop.positions.cases amount with ⟨held, -⟩ | held
      · rw [held] at extracted
        exact below extracted
      · rw [held] at extracted
        dsimp only at extracted
        have high : ¬ index < cache.startIndex := not_lt.2 (reached _ mem_cons_self)
        rw [if_neg high] at extracted
        generalize lowerBound (fun globalIndex =>
          decide (globalIndex < (outputsOf amount (raws parents)).length)) indexes = offset
          at extracted
        obtain ⟨belowKeys, mine, few, own, rfl⟩ : ∃ belowKeys mine,
            belowKeys.length ≤ (indexes.take offset).countP (fun index =>
              (keyOn amount (raws parents ++ cache.storage) index).isSome) ∧
            (indexes.drop offset).mapM (cache.extractOwnKey
              (ownTable amount (raws parents) cache.storage) unlocked) = .ok mine ∧
            keys = belowKeys ++ mine := by
          split at extracted
          · obtain ⟨belowKeys, nothing, extracted⟩ := of_bind.1 extracted
            obtain ⟨mine, own, result⟩ := of_bind.1 extracted
            cases nothing
            exact ⟨[], mine, Nat.zero_le _, own, (Except.ok.inj result).symm⟩
          · obtain ⟨belowKeys, asked, extracted⟩ := of_bind.1 extracted
            obtain ⟨mine, own, result⟩ := of_bind.1 extracted
            exact ⟨belowKeys, mine, below asked, own, (Except.ok.inj result).symm⟩
        have ownCount := congrArg (countP isSome)
          (map_eq_of_forall₂ (mapM_ok.1 own) (keyOn_of_extractOwnKey onTop))
        rw [countP_map, countP_map] at ownCount
        nth_rewrite 1 [← take_append_drop offset indexes]
        rw [countP_append, length_append]
        refine Nat.add_le_add few (le_of_eq (Eq.trans ?_ ownCount.symm))
        simp [Function.comp_def]

/-- If no key is missing, every index is one of an output of the chain. -/
theorem lt_of_length_keys {lineage : Lineage} {keys : List PublicKey}
    (ok : lineage.InOrder) (reached : ∀ cache ∈ lineage, cache.getStartBlockIndex ≤ index)
    (extracted : lineage.extractKeyOutputs unlocked amount index indexes = .ok keys)
    (all : keys.length = indexes.length) {globalIndex : Nat} (mem : globalIndex ∈ indexes) :
    globalIndex < (outputsOf amount lineage.raws).length := by
  have every := length_keys_le ok reached extracted
  rw [all] at every
  have found := countP_eq_length.1 (le_antisymm countP_le_length every) globalIndex mem
  simpa [keyOn] using found

/-- Below its first block a segment passes the request on. -/
theorem extractKeyOutputs_of_lt (unlocked : Nat → Bool) (below : Lineage)
    (amount : Amount) (low : index < cache.startIndex) (indexes : List Nat) :
    extractKeyOutputs unlocked (.memory cache :: below) amount index indexes =
      extractKeyOutputs unlocked below amount index indexes := by
  rw [extractKeyOutputs]
  split
  · rfl
  · rw [if_pos low]

theorem exists_keys (unlocked : Nat → Bool) {rows : List KeyOutputRow}
    (named : ∀ index ∈ indexes, ∃ row, rows[index]? = some row ∧ unlocked row.unlockTime = true) :
    ∃ keys, indexes.mapM (spendableKey unlocked rows) = .ok keys := by
  refine exists_mapM_ok fun index mem => ?_
  obtain ⟨row, found, free⟩ := named index mem
  refine ⟨row.publicKey, ?_⟩
  rw [spendableKey, found]
  exact if_pos free

/-- Between the segment's first block and the split, the outputs above the split are no
longer in reach. -/
theorem extractKeyOutputKeys_split (ok : InOrder (.memory seg :: parents))
    (at_split : SplitInside seg cut) {now : Nat}
    (asks : (Query.extractKeyOutputKeys now amount index indexes).Asks (.memory seg :: parents)) :
    (split seg parents cut).extractKeyOutputKeys now amount index indexes =
        extractKeyOutputKeys (.memory seg :: parents) now amount index indexes ↔
      (Query.extractKeyOutputKeys now amount index indexes).Clear seg parents cut := by
  obtain ⟨-, nonempty, ascending, named⟩ := asks
  have above := at_split.above
  have after := ok.split at_split
  have start : seg.startIndex = _ := ok.whole.1.start
  rw [extractKeyOutputKeys, extractKeyOutputKeys]
  simp only [isTransactionSpendTimeUnlocked_split ok at_split]
  have answerable := exists_keys (fun unlockTime =>
    isTransactionSpendTimeUnlocked (.memory seg :: parents) now unlockTime index) named
  generalize (fun unlockTime => isTransactionSpendTimeUnlocked (.memory seg :: parents) now
    unlockTime index) = unlocked at answerable ⊢
  have inside : ∀ globalIndex ∈ indexes, globalIndex <
      (outputsOf amount (raws (.memory seg :: parents))).length := by
    intro globalIndex mem
    obtain ⟨row, found, -⟩ := named globalIndex mem
    exact (List.getElem?_eq_some_iff.1 found).1
  rw [Query.Clear]
  rcases Nat.lt_or_ge index seg.startIndex with low | high
  · refine iff_of_true ?_ (fun reached => absurd low (not_lt.2 reached))
    calc extractKeyOutputs unlocked (split seg parents cut) amount index
          indexes
        = extractKeyOutputs unlocked (.memory (seg.split cut).1 :: parents) amount
            index indexes :=
          extractKeyOutputs_of_lt unlocked _ amount (lt_trans low above) _
      _ = extractKeyOutputs unlocked parents amount index indexes :=
          extractKeyOutputs_of_lt unlocked parents amount
            (show index < (seg.split cut).1.startIndex from low) _
      _ = extractKeyOutputs unlocked (.memory seg :: parents) amount index indexes :=
          (extractKeyOutputs_of_lt unlocked _ amount low _).symm
  have unsplit : extractKeyOutputs unlocked (.memory seg :: parents) amount index
      indexes = indexes.mapM (spendableKey unlocked
        (outputsOf amount (raws (.memory seg :: parents)))) :=
    extractKeyOutputs_eq _ _ _ ok.whole ok.outputs ok.infos (starts_le ok.whole high) nonempty
      ascending inside
  rw [unsplit]
  rcases Nat.lt_or_ge index cut with lower | upper
  · rw [split, extractKeyOutputs_of_lt unlocked _ amount lower]
    have lowerInOrder := after.parents
    have lower_raws := raws_lower ok at_split
    constructor
    · intro same _ _ globalIndex mem
      obtain ⟨keys, answered⟩ := answerable
      rw [answered] at same
      rw [← lower_raws]
      exact lt_of_length_keys lowerInOrder (starts_le lowerInOrder.whole high) same
        (mapM_ok.1 answered).length_eq.symm mem
    · intro clear
      have insideLower := clear high lower
      rw [← lower_raws] at insideLower
      refine (extractKeyOutputs_eq _ _ _ lowerInOrder.whole lowerInOrder.outputs lowerInOrder.infos
        (starts_le lowerInOrder.whole high) nonempty ascending insideLower).trans ?_
      refine mapM_congr fun globalIndex mem => ?_
      have whole_eq : raws (.memory seg :: parents) =
          raws (.memory (seg.split cut).1 :: parents) ++
            (raws (.memory seg :: parents)).drop cut := by
        rw [lower_raws, take_append_drop]
      rw [whole_eq, outputsOf_append]
      exact (spendableKey_append_left (insideLower globalIndex mem)).symm
  · refine iff_of_true ?_ (fun _ below => absurd upper (not_le.2 below))
    rw [← raws_split ok at_split] at inside ⊢
    exact extractKeyOutputs_eq _ _ _ after.whole after.outputs after.infos
      (starts_le after.whole upper) nonempty ascending inside

end Lineage

/-- After a split every question is answered as before, unless the answer depended on a
later block of the segment. -/
theorem split_invisible_iff (segment : BlockchainCache) (parents : Lineage) (splitBlockIndex : Nat)
    (ok : Lineage.InOrder (.memory segment :: parents))
    (at_split : SplitInside segment splitBlockIndex) (query : Query)
    (asks : query.Asks (.memory segment :: parents)) :
    (split segment parents splitBlockIndex).answer query =
        answer (.memory segment :: parents) query ↔
      query.Clear segment parents splitBlockIndex := by
  have whole := ok.whole
  have after := (ok.split at_split).whole
  cases query with
  | checkIfSpent keyImage blockIndex =>
    rw [answer, answer, Answer.spent.injEq]
    exact checkIfSpent_split at_split keyImage blockIndex
  | getBlockHash blockIndex =>
    refine iff_of_true ?_ trivial
    rw [answer, answer, getBlockHash_eq after, infos_split ok at_split, getBlockHash_eq whole]
  | getBlockHashes startIndex maxCount =>
    refine iff_of_true ?_ trivial
    rw [answer, answer, getBlockHashes_eq after, infos_split ok at_split, getBlockHashes_eq whole]
  | getLastTimestamps count blockIndex useGenesis =>
    refine iff_of_true ?_ trivial
    exact congrArg (fun units => Answer.units (units.map (·.timestamp)))
      (getLastUnits_split ok at_split asks useGenesis)
  | getLastBlocksSizes count blockIndex useGenesis =>
    refine iff_of_true ?_ trivial
    exact congrArg (fun units => Answer.units (units.map (·.blockSize)))
      (getLastUnits_split ok at_split asks useGenesis)
  | getLastCumulativeDifficulties count blockIndex useGenesis =>
    refine iff_of_true ?_ trivial
    exact congrArg (fun units => Answer.units (units.map (·.cumulativeDifficulty)))
      (getLastUnits_split ok at_split asks useGenesis)
  | getBlocksByHeight startHeight endHeight =>
    refine iff_of_true ?_ trivial
    exact congrArg Answer.blocks (getBlocksByHeight_split ok at_split startHeight endHeight)
  | getNonEmptyBlocks startHeight blockCount =>
    refine iff_of_true ?_ trivial
    rw [answer, answer, getNonEmptyBlocks_eq after,
      raws_split ok at_split, getNonEmptyBlocks_eq whole]
  | extractKeyOutputKeys now amount blockIndex globalIndexes =>
    rw [answer, answer, Answer.keys.injEq]
    exact extractKeyOutputKeys_split ok at_split asks

end

namespace Sample

/-- A run with an in-memory segment of blocks 10, 11, 12 on the main chain; block 12 holds
a transaction whose output is unlocked. -/
def segmentCalls : List Call :=
  calls (trunk 10 ++ [next 110 9 10 [] 0, next 11 10 11 [] 0, next 12 11 12 [spend] 10])

def segmentRun : Core := Core.afterCalls env .insertion genesis segmentCalls

/-- What the run leads to: the output of the transaction is the first of its amount, and
there is none below block 12. -/
def segmentChecks : Lineage → Bool
  | .memory segment :: parents =>
    decide (segment.startIndex = 10 ∧ (memory segment).getTopBlockIndex = 12 ∧
      ((outputsOf 2980222 (raws (.memory segment :: parents)))[0]?.map (·.unlockTime)) = some 0 ∧
      (outputsOf 2980222 ((raws (.memory segment :: parents)).take 12)).length = 0)
  | _ => false

/-- The output can be asked for at every height of the branch. -/
theorem exists_segment : ∃ seg parents, segmentRun.mainLineage = .memory seg :: parents ∧
    Lineage.InOrder (.memory seg :: parents) ∧ SplitInside seg 12 ∧
    seg.startIndex = 10 ∧
    (outputsOf 2980222 ((raws (.memory seg :: parents)).take 12)).length = 0 ∧
    ∀ index ≤ 12, (Query.extractKeyOutputKeys 100000 2980222 index [0]).Asks
      (.memory seg :: parents) := by
  have ok : segmentRun.mainLineage.InOrder :=
    Core.inOrder_afterCalls (by decide +kernel) segmentRun.mainLeaf
  have checks : segmentChecks segmentRun.mainLineage = true := by decide +kernel
  generalize segmentRun.mainLineage = lineage at ok checks
  match lineage with
  | [] | .database _ :: _ => cases checks
  | .memory seg :: parents =>
    obtain ⟨start, top, first, none⟩ := of_decide_eq_true checks
    obtain ⟨row, found, free⟩ := map_eq_some_iff.1 first
    refine ⟨seg, parents, rfl, ok, ⟨by omega, by omega⟩, start, none, ?_⟩
    intro index le
    refine ⟨?_, cons_ne_nil _ _, pairwise_singleton _ _, ?_⟩
    · change index ≤ (memory seg).getTopBlockIndex
      omega
    · refine forall_mem_singleton.2 ⟨row, found, ?_⟩
      rw [free, isTransactionSpendTimeUnlocked,
        if_pos (show 0 < Parameters.maxBlockNumber by decide)]
      exact decide_eq_true (Nat.zero_le _)

end Sample

/-- Asked for the top, the halves hand out the output as before. -/
theorem split_invisible_iff_top : ∃ segment parents,
    Sample.segmentRun.mainLineage = .memory segment :: parents ∧
    (split segment parents 12).answer (.extractKeyOutputKeys 100000 2980222 12 [0]) =
      answer (.memory segment :: parents) (.extractKeyOutputKeys 100000 2980222 12 [0]) := by
  obtain ⟨segment, parents, reached, ok, at_split, -, -, asks⟩ := Sample.exists_segment
  refine ⟨segment, parents, reached, ?_⟩
  exact (split_invisible_iff segment parents 12 ok at_split _ (asks 12 (le_refl _))).2
    fun _ below => absurd below (lt_irrefl 12)

/-- Asked for block 10, the whole segment hands out an output of block 12 and the halves do
not. -/
theorem not_split_invisible_later : ∃ segment parents,
    Sample.segmentRun.mainLineage = .memory segment :: parents ∧ SplitInside segment 12 ∧
    (Query.extractKeyOutputKeys 100000 2980222 10 [0]).Asks (.memory segment :: parents) ∧
    (split segment parents 12).answer (.extractKeyOutputKeys 100000 2980222 10 [0]) ≠
      answer (.memory segment :: parents) (.extractKeyOutputKeys 100000 2980222 10 [0]) := by
  obtain ⟨segment, parents, reached, ok, at_split, start, none, asks⟩ := Sample.exists_segment
  refine ⟨segment, parents, reached, at_split, asks 10 (by decide), fun same => ?_⟩
  have clear := (extractKeyOutputKeys_split ok at_split (asks 10 (by decide))).1
    (Answer.keys.inj same)
  have inside := clear (le_of_eq start) (by decide) 0 mem_cons_self
  rw [none] at inside
  exact Nat.not_lt_zero _ inside

end DeroGold
