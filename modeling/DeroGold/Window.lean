import DeroGold.Stored

/-!
The newest block infos of a branch, as `getLastUnits` collects them.

The database answers from `unitsCache` as far as it can. `UnitsOk` says that this copy
repeats its newest rows; it holds in every run.
-/

namespace DeroGold

open SegmentTree List DatabaseBlockchainCache

/-! ### The copy of the newest rows -/

/-- Cutting the infos and their copy by the same number of blocks. -/
theorem DatabaseBlockchainCache.suffix_cutTail {units infos : List CachedBlockInfo}
    (suffix : units <:+ infos) (cut : Nat) :
    cutTail units (infos.length - cut) <:+ infos.take cut := by
  obtain ⟨older, rfl⟩ := suffix
  rw [cutTail, length_append, take_append]
  refine ⟨older.take cut, ?_⟩
  congr 1
  by_cases covered : older.length + units.length ≤ cut
  · rw [take_of_length_le (by omega), take_of_length_le (by omega)]
  · congr 1
    omega

namespace Cache

/-- The units cache of the database is the end of its list of infos. -/
def UnitsOk : Cache → Prop
  | .memory _ => True
  | .database cache => cache.unitsCache <:+ cache.blocks.map (·.info)

theorem UnitsOk.pushBlock {cache : Cache} (ok : cache.UnitsOk) (parents : Lineage)
    (pushed : PushedBlockInfo) : (cache.pushBlock parents pushed).UnitsOk := by
  cases cache with
  | memory cache => trivial
  | database cache =>
    have grown : cache.unitsCache ++ [cache.nextInfo pushed] <:+
        (cache.pushBlock pushed).blocks.map (·.info) := by
      rw [blocks_pushBlock, map_append]
      obtain ⟨older, whole⟩ := ok
      exact ⟨older, by rw [← append_assoc, whole]; rfl⟩
    change (cache.pushBlock pushed).unitsCache <:+ _
    rw [unitsCache_pushBlock]
    split
    · exact (drop_suffix 1 _).trans grown
    · exact grown

theorem UnitsOk.split {cache lower upper : Cache} {cut : Nat} (ok : cache.UnitsOk)
    (halves : cache.split cut = some (lower, upper)) : lower.UnitsOk ∧ upper.UnitsOk := by
  cases cache with
  | memory cache =>
    cases halves
    exact ⟨trivial, trivial⟩
  | database cache =>
    simp only [Cache.split, DatabaseBlockchainCache.split, Option.map_eq_some_iff] at halves
    obtain ⟨⟨kept, moved⟩, parts, same⟩ := halves
    cases same
    split at parts
    · cases parts
    cases parts
    refine ⟨?_, trivial⟩
    change DatabaseBlockchainCache.cutTail _ _ <:+ (cache.blocks.take cut).map (·.info)
    rw [map_take, length_drop, ← length_map (·.info)]
    exact DatabaseBlockchainCache.suffix_cutTail ok cut

end Cache

namespace Core

variable {env : Env} {order : HashOrder} {core : Core}

/-- Every segment's copy is in order. -/
def UnitsOk (core : Core) : Prop :=
  ∀ ⦃i : Nat⦄ ⦃nd : Node Cache⦄, core.chainsStorage.node? i = some nd → nd.value.UnitsOk

theorem UnitsOk.step (ok : core.UnitsOk) (shape : core.Shape) (call : Call) :
    (core.step env order call).UnitsOk := by
  rcases step_cases env order core call with
    onlyPool | ⟨now, raw, seg, previous, pushed, result, rfl, passed, committed⟩
  · intro i nd found
    rw [onlyPool.chainsStorage_eq] at found
    exact ok found
  · obtain ⟨nd, parents, parent, placed, same⟩ := shape.placed passed
    intro i jd found
    cases committed.nodeAfter shape placed same found with
    | old at_od value _ => exact value ▸ ok at_od
    | extended value _ _ _ => exact value ▸ (ok placed.node).pushBlock parents pushed
    | created value _ _ => rw [value]; trivial
    | lower halves _ _ => exact ((ok placed.node).split halves).1
    | upper halves _ _ _ => exact ((ok placed.node).split halves).2

theorem unitsOk_load (genesis : CachedBlock) : (load genesis).UnitsOk := by
  intro i nd found
  obtain ⟨-, rfl⟩ := node?_single.1 found
  exact suffix_refl _

theorem unitsOk_afterCalls (env : Env) (order : HashOrder) (genesis : CachedBlock)
    (calls : List Call) : (afterCalls env order genesis calls).UnitsOk :=
  (TransitionSystem.invariant_run_of_step
    (fun (core : Core) call (both : core.Shape ∧ core.UnitsOk) =>
      And.intro (both.1.step call) (both.2.step both.1 call))
    ⟨shape_load genesis, unitsOk_load genesis⟩).2

theorem UnitsOk.lineage (ok : core.UnitsOk) (seg : Nat) :
    ∀ cache ∈ core.lineage seg, cache.UnitsOk := by
  intro cache mem
  obtain ⟨i, nd, found, rfl⟩ := exists_node_of_mem_lineage mem
  exact ok found

end Core

/-! ### Only infos of the branch are collected -/

theorem mem_or_mem_of_mem_ite {α : Type} {c : Prop} [Decidable c] {a : α} {xs ys : List α}
    (mem : a ∈ if c then xs else ys) : a ∈ xs ∨ a ∈ ys := by
  split at mem
  · exact .inl mem
  · exact .inr mem

variable {count index : Nat} {useGenesis : Bool} {info : CachedBlockInfo}

theorem DatabaseBlockchainCache.mem_getLastUnits {cache : DatabaseBlockchainCache}
    (ok : (Cache.database cache).UnitsOk) (mem : info ∈ cache.getLastUnits count index useGenesis) :
    info ∈ cache.blocks.map (·.info) := by
  have cached : ∀ {info}, info ∈ cache.getLastCachedUnits index count useGenesis →
      info ∈ cache.blocks.map (·.info) := by
    intro info mem
    apply ok.subset
    unfold getLastCachedUnits at mem
    simp only at mem
    split at mem
    · cases mem
    split at mem
    · exact mem_of_mem_drop (mem_of_mem_take mem)
    · exact mem_of_mem_drop (mem_of_mem_take mem)
  rcases mem_or_mem_of_mem_ite mem with mem | mem
  · exact cached mem
  · rcases mem_append.1 mem with mem | mem
    · exact mem_of_mem_drop (mem_of_mem_take mem)
    · exact cached mem

theorem Lineage.mem_getLastUnits {lineage : Lineage} (ok : ∀ cache ∈ lineage, cache.UnitsOk)
    (mem : info ∈ lineage.getLastUnits count index useGenesis) :
    ∃ cache ∈ lineage, info ∈ cache.blockInfos := by
  induction lineage generalizing count index with
  | nil => cases mem
  | cons cache parents ih =>
    cases cache with
    | database cache =>
      exact ⟨_, mem_cons_self, mem_getLastUnits (ok _ mem_cons_self) mem⟩
    | memory cache =>
      rcases mem_append.1 mem with mem | mem
      · rcases mem_or_mem_of_mem_ite mem with mem | mem
        · obtain ⟨holder, above, held⟩ :=
            ih (forall_mem_cons.1 ok).2 mem
          exact ⟨holder, mem_cons_of_mem _ above, held⟩
        · cases mem
      · exact ⟨_, mem_cons_self, mem_of_mem_drop (mem_of_mem_take mem)⟩

/-! ### The median of small sizes is small -/

theorem medianValue_lt {sizes : List Nat} {bound : Nat} (small : ∀ size ∈ sizes, size < bound)
    (pos : 0 < bound) : medianValue sizes < bound := by
  have sorted_small : ∀ i : Nat, (sizes.insertionSort (· ≤ ·))[i]?.getD 0 < bound := by
    intro i
    cases found : (sizes.insertionSort (· ≤ ·))[i]? with
    | none => exact pos
    | some size =>
      exact small size ((mem_insertionSort _).1 (mem_of_getElem? found))
  unfold medianValue
  split
  · exact pos
  · exact small _ (mem_singleton_self _)
  · simp only
    split
    · exact sorted_small _
    · have low := sorted_small (sizes.length / 2 - 1)
      have high := sorted_small (sizes.length / 2)
      apply lt_of_le_of_lt (Nat.div_le_div_right (Nat.mod_le _ _))
      omega

end DeroGold
