import DeroGold.Tree

/-!
What the commitment of a block does to the stored entries, in every run.

* `Committed.allEntries_perm`: one entry is added to the stored ones and none is lost,
  also when the database is split with children.
* `Committed.nodeAfter`: every segment afterwards is an old one, the extended one, the
  new one of a fork, or one half of the one that was split.
-/

namespace DeroGold

open SegmentTree List Option Cache

/-- Stored entries of all segments. -/
def Core.allEntries (core : Core) : List Entry := core.chainsStorage.allEntries entries

/-! ### The entry added by a block -/

variable {head : Cache} {rest : Lineage}

/-- The new segment of a fork holds the new entry only. -/
theorem Cache.entries_create_pushBlock {previous : Nat} {parent : Entry} {pushed : PushedBlockInfo}
    (sound : head.Sound) (start_le : head.getStartBlockIndex ≤ previous)
    (parent_at : head.entries[previous - head.getStartBlockIndex]? = some parent)
    (index : pushed.rawBlock.block.getBlockIndex = previous + 1) (start : Nat) :
    ((Cache.memory (.create start)).pushBlock (head :: rest) pushed).entries =
      [(pushed.rawBlock, parent.2.next pushed)] := by
  have appended := entries_pushBlock (head :: rest) pushed
    (show (memory (.create start)).rawBlocks.length =
      (memory (.create start)).blockInfos.length from rfl)
  rw [nextInfo_create sound start_le parent_at index] at appended
  exact appended

namespace Core

variable {env : Env} {order : HashOrder} {now : Nat} {core core' cut : Core} {raw : RawBlock}
  {seg previous : Nat} {pushed : PushedBlockInfo} {nd : Node Cache}
  {parents : Lineage} {parent : Entry} {result : AddBlockResult}

namespace Placed

section

variable (placed : Placed core raw seg previous nd parents parent) (shape : core.Shape)
include placed shape

/-- The entry pushed on a segment that ends with the predecessor. -/
theorem entries_pushBlock (top : (core.lineage seg).getTopBlockIndex = previous) :
    (nd.value.pushBlock parents pushed).entries =
      nd.value.entries ++ [(pushed.rawBlock, parent.2.next pushed)] := by
  have sound := shape.tree.sound placed.node
  have last := placed.getLast?_entries shape top
  have last_info : nd.value.blockInfos.getLast? = some parent.2 := by
    rw [← map_snd_entries sound.aligned, getLast?_map, last]
    rfl
  rw [Cache.entries_pushBlock parents pushed sound.aligned, Cache.nextInfo_eq_next last_info]

theorem chainBelow_eq : core.chainsStorage.chainBelow entries nd.parent = chainOf entries parents :=
  (shape.tree.wellFormed.chainBelow_eq placed.node placed.lineage).2

theorem holds {P : List Entry → Cache → Prop} (ok : Consistent entries P core.chainsStorage) :
    P (chainOf entries parents) nd.value :=
  placed.chainBelow_eq shape ▸ ok placed.node

/-- What a split inside a segment does to it, from the place of the block. -/
theorem split_entries (below : (core.lineage seg).getTopBlockIndex ≠ previous) {lower upper : Cache}
    (halves : nd.value.split (previous + 1) = some (lower, upper)) :
    nd.value.entries = lower.entries ++ upper.entries ∧ lower.Sound ∧ upper.Sound ∧
      lower.entries = nd.value.entries.take (previous + 1 - nd.value.getStartBlockIndex) ∧
      lower.getStartBlockIndex = nd.value.getStartBlockIndex ∧
      upper.getStartBlockIndex = previous + 1 ∧
      lower.entries[previous - lower.getStartBlockIndex]? = some parent := by
  have start_le := placed.start_le
  have le_top := placed.le_top
  have sound := shape.tree.sound placed.node
  rw [placed.getTopBlockIndex_eq] at below
  obtain ⟨lower_eq, upper_eq, lower_start, upper_start, -, -⟩ :=
    Cache.split_entries sound (by omega) (by omega) halves
  obtain ⟨lower_sound, upper_sound⟩ := sound.split (by omega) (by omega) halves
  refine ⟨?_, lower_sound, upper_sound, lower_eq, lower_start, upper_start, ?_⟩
  · rw [lower_eq, upper_eq, take_append_drop]
  · rw [lower_eq, lower_start, getElem?_take, if_pos (by omega)]
    exact placed.parent_at

/-- The last entry of the lower half is the predecessor's. -/
theorem getLast?_lower (below : (core.lineage seg).getTopBlockIndex ≠ previous)
    {lower upper : Cache} (halves : nd.value.split (previous + 1) = some (lower, upper)) :
    lower.entries.getLast? = some parent := by
  obtain ⟨-, -, -, lower_eq, lower_start, -, parent_at⟩ := placed.split_entries shape below halves
  have start_le := placed.start_le
  have le_top := placed.le_top
  have top_eq := (shape.tree.sound placed.node).getTopBlockIndex_eq
  rw [← parent_at, getLast?_eq_getElem?, lower_eq, lower_start, length_take]
  congr 1
  omega

end

end Placed

/-- The lineage of the lower half after a cut starts with that half. -/
theorem Shape.lineage_cut (shape : core.Shape)
    (placed : Placed core raw seg previous nd parents parent)
    (below : (core.lineage seg).getTopBlockIndex ≠ previous)
    (parts : core.splitSegment seg (previous + 1) = some cut) :
    ∃ lower upper rest, nd.value.split (previous + 1) = some (lower, upper) ∧
      cut.lineage seg = lower :: rest ∧
      cut.allEntries.Perm core.allEntries := by
  obtain ⟨lower, upper, halves, cases⟩ := splitSegment_some placed.node parts
  have old := lt_size_of_node? placed.node
  obtain ⟨whole, -⟩ := placed.split_entries shape below halves
  have wf := shape.tree.wellFormed
  rcases cases with ⟨-, rfl⟩ | ⟨-, rfl⟩
  · exact ⟨lower, upper, _, halves,
      (wf.split old lower upper).lineage_eq (node?_split_self placed.node),
      allEntries_split_perm placed.node whole⟩
  · have lowered := wf.setValue seg lower
    refine ⟨lower, upper, _, halves, (lowered.lineage_addChild_of_lt upper
      (by rwa [size_setValue])).trans (lowered.lineage_eq (node?_setValue_self lower placed.node)), ?_⟩
    simp only [allEntries]
    rw [allEntries_addChild]
    have changed := allEntries_setValue_perm entries lower placed.node
    rw [whole] at changed
    refine (perm_append_right_iff lower.entries).1 (.trans ?_ changed)
    rw [append_assoc]
    exact perm_append_comm.append_left _

/-- A committed block adds its entry to the stored ones. -/
theorem Committed.allEntries_perm (shape : core.Shape)
    (placed : Placed core raw seg previous nd parents parent) (same : pushed.rawBlock = raw)
    (committed : Committed env order now core seg previous pushed core' result) :
    core'.allEntries.Perm ((raw, parent.2.next pushed) :: core.allEntries) := by
  have index := placed.index_pushed same
  have extended : (core.lineage seg).getTopBlockIndex = previous →
      (core.pushBlock seg pushed).allEntries.Perm
        ((raw, parent.2.next pushed) :: core.allEntries) := by
    intro top
    rw [allEntries, chainsStorage_pushBlock placed.lineage]
    have changed := allEntries_setValue_perm entries
      (nd.value.pushBlock parents pushed) placed.node
    rw [placed.entries_pushBlock shape top, same, ← append_assoc] at changed
    refine (perm_append_right_iff nd.value.entries).1 (changed.trans ?_)
    exact perm_append_comm
  cases committed with
  | extendMain top childless main => exact extended top
  | extendAlternative top childless other lighter => exact extended top
  | switch top childless other heavier =>
    rw [allEntries, chainsStorage_switchTo]
    exact extended top
  | forkOnTop top inner =>
    change (core.chainsStorage.addChild seg _).allEntries entries |>.Perm _
    rw [allEntries_addChild, placed.lineage, entries_create_pushBlock
      (shape.tree.sound placed.node) placed.start_le placed.parent_at index, same]
    exact perm_append_comm
  | @forkInside cut below parts =>
    obtain ⟨lower, upper, rest, halves, lineage_eq, kept⟩ := shape.lineage_cut placed below parts
    obtain ⟨-, lower_sound, -, -, lower_start, -, parent_at⟩ :=
      placed.split_entries shape below halves
    change (cut.chainsStorage.addChild seg _).allEntries entries |>.Perm _
    rw [allEntries_addChild, lineage_eq, entries_create_pushBlock lower_sound
      (lower_start ▸ placed.start_le) parent_at index, same]
    exact perm_append_comm.trans (kept.cons _)

/-- A segment after the commitment of a block: an old one, the one that was extended,
the new one of a fork, or one half of the one that was split. -/
inductive NodeAfter (core : Core) (raw : RawBlock) (previous : Nat) (nd : Node Cache)
    (parents : Lineage) (parent : Entry) (pushed : PushedBlockInfo) : Node Cache → Prop
  | old {i : Nat} {od jd : Node Cache} (found : core.chainsStorage.node? i = some od)
      (value : jd.value = od.value) (children : jd.children ≠ [] → od.children ≠ []) :
      NodeAfter core raw previous nd parents parent pushed jd
  | extended {jd : Node Cache} (value : jd.value = nd.value.pushBlock parents pushed)
      (entries_eq : jd.value.entries = nd.value.entries ++ [(raw, parent.2.next pushed)])
      (last : nd.value.entries.getLast? = some parent) (childless : jd.children = []) :
      NodeAfter core raw previous nd parents parent pushed jd
  | created {jd : Node Cache} {below : Lineage}
      (value : jd.value = (Cache.memory (.create (previous + 1))).pushBlock below pushed)
      (entries_eq : jd.value.entries = [(raw, parent.2.next pushed)])
      (childless : jd.children = []) :
      NodeAfter core raw previous nd parents parent pushed jd
  | lower {jd : Node Cache} {upper : Cache}
      (halves : nd.value.split (previous + 1) = some (jd.value, upper))
      (whole : nd.value.entries = jd.value.entries ++ upper.entries)
      (last : jd.value.entries.getLast? = some parent) :
      NodeAfter core raw previous nd parents parent pushed jd
  | upper {jd : Node Cache} {lower : Cache}
      (halves : nd.value.split (previous + 1) = some (lower, jd.value))
      (whole : nd.value.entries = lower.entries ++ jd.value.entries)
      (nonempty : jd.value.entries ≠ []) (children : jd.children ≠ [] → nd.children ≠ []) :
      NodeAfter core raw previous nd parents parent pushed jd

theorem NodeAfter.congr {jd od : Node Cache}
    (after : NodeAfter core raw previous nd parents parent pushed od)
    (value : jd.value = od.value) (children : jd.children = od.children) :
    NodeAfter core raw previous nd parents parent pushed jd := by
  cases after with
  | old found same inner => exact .old found (value.trans same) (children ▸ inner)
  | extended same entries_eq last childless =>
    exact .extended (value.trans same) (value ▸ entries_eq) last (children ▸ childless)
  | created same entries_eq childless =>
    exact .created (value.trans same) (value ▸ entries_eq) (children ▸ childless)
  | lower halves whole last => exact .lower (value ▸ halves) (value ▸ whole) (value ▸ last)
  | upper halves whole nonempty inner =>
    exact .upper (value ▸ halves) (value ▸ whole) (value ▸ nonempty) (children ▸ inner)

section NodeAfter

variable {j : Nat} {jd : Node Cache} (shape : core.Shape)
  (placed : Placed core raw seg previous nd parents parent)
include shape placed

theorem nodeAfter_pushBlock (same : pushed.rawBlock = raw)
    (top : (core.lineage seg).getTopBlockIndex = previous)
    (childless : core.chainsStorage.childrenOf seg = [])
    (found : (core.pushBlock seg pushed).chainsStorage.node? j = some jd) :
    NodeAfter core raw previous nd parents parent pushed jd := by
  rw [chainsStorage_pushBlock placed.lineage, node?_setValue, map_eq_some_iff] at found
  obtain ⟨od, found, rfl⟩ := found
  by_cases here : j = seg
  · subst here
    cases placed.node.symm.trans found
    rw [if_pos rfl]
    refine .extended rfl ?_ (placed.getLast?_entries shape top) ?_
    · rw [placed.entries_pushBlock shape top, same]
    · rwa [childrenOf_eq placed.node] at childless
  · rw [if_neg here]
    exact .old found rfl id

theorem nodeAfter_splitSegment (below : (core.lineage seg).getTopBlockIndex ≠ previous)
    (parts : core.splitSegment seg (previous + 1) = some cut)
    (found : cut.chainsStorage.node? j = some jd) :
    j = seg ∧ (∃ upper, nd.value.split (previous + 1) = some (jd.value, upper)) ∨
      j ≠ seg ∧ NodeAfter core raw previous nd parents parent pushed jd := by
  obtain ⟨lower, upper, halves, cases⟩ := splitSegment_some placed.node parts
  obtain ⟨whole, -, upper_sound, -⟩ := placed.split_entries shape below halves
  have nonempty := upper_sound.entries_ne_nil
  have old := lt_size_of_node? placed.node
  rcases cases with ⟨-, rfl⟩ | ⟨-, rfl⟩
  · rcases node?_split_cases shape.tree.wellFormed placed.node found with
      ⟨rfl, rfl⟩ | ⟨rfl, rfl⟩ | ⟨od, at_od, ne, rfl⟩
    · refine .inr ⟨Nat.ne_of_gt old, .upper halves whole nonempty ?_⟩
      rw [childrenOf_eq placed.node]
      exact id
    · exact .inl ⟨rfl, upper, halves⟩
    · exact .inr ⟨ne, .old at_od rfl id⟩
  · rcases node?_addChild_cases found with ⟨rfl, rfl⟩ | ⟨od, at_od, value, -, children⟩
    · rw [size_setValue]
      exact .inr ⟨Nat.ne_of_gt old, .upper halves whole nonempty fun absurdity =>
        absurd rfl absurdity⟩
    · rw [node?_setValue, map_eq_some_iff] at at_od
      obtain ⟨od, at_od, rfl⟩ := at_od
      by_cases here : j = seg
      · rw [if_pos here] at value
        exact .inl ⟨here, upper, by rw [value]; exact halves⟩
      · rw [if_neg here] at value children
        exact .inr ⟨here, .old at_od value (by rw [children here]; exact id)⟩

theorem Committed.nodeAfter (same : pushed.rawBlock = raw)
    (committed : Committed env order now core seg previous pushed core' result)
    (found : core'.chainsStorage.node? j = some jd) :
    NodeAfter core raw previous nd parents parent pushed jd := by
  have index := placed.index_pushed same
  cases committed with
  | extendMain top childless main => exact nodeAfter_pushBlock shape placed same top childless found
  | extendAlternative top childless other lighter =>
    exact nodeAfter_pushBlock shape placed same top childless found
  | switch top childless other heavier =>
    rw [chainsStorage_switchTo] at found
    exact nodeAfter_pushBlock shape placed same top childless found
  | forkOnTop top inner =>
    rcases node?_addChild_cases found with ⟨rfl, rfl⟩ | ⟨od, at_od, value, -, children⟩
    · refine .created rfl ?_ rfl
      rw [placed.lineage, entries_create_pushBlock (shape.tree.sound placed.node)
        placed.start_le placed.parent_at index, same]
    · refine .old at_od value ?_
      by_cases here : j = seg
      · subst here
        rw [childrenOf_eq at_od] at inner
        exact fun _ => inner
      · rw [children here]
        exact id
  | @forkInside cut below parts =>
    obtain ⟨lower, upper, rest, halves, lineage_eq, -⟩ := shape.lineage_cut placed below parts
    obtain ⟨-, lower_sound, -, -, lower_start, -, parent_at⟩ :=
      placed.split_entries shape below halves
    rcases node?_addChild_cases found with ⟨rfl, rfl⟩ | ⟨od, at_od, value, -, children⟩
    · refine .created rfl ?_ rfl
      rw [lineage_eq, entries_create_pushBlock lower_sound
        (lower_start ▸ placed.start_le) parent_at index, same]
    · rcases nodeAfter_splitSegment shape placed below parts at_od with
        ⟨-, upper, halves⟩ | ⟨ne, after⟩
      · rw [← value] at halves
        obtain ⟨whole, -⟩ := placed.split_entries shape below halves
        exact .lower halves whole (placed.getLast?_lower shape below halves)
      · exact after.congr value (children ne)

end NodeAfter

end Core

end DeroGold
