import DeroGold.DatabaseRuns
import DeroGold.WalletSync

/-!
From where a wallet that names a start time gets its blocks.

The newest segment of the main chain answers with its own first block when that block is
late enough, although blocks below it may be late enough too. Otherwise the database looks
the day up, and its index of days leads to the first block of the day as long as every
split loses days in a row (`LosesInARow`). For these runs the blocks below the first one that the
wallet gets are all too early exactly if the block below the newest segment is
(`neverSkips_iff`).
-/

namespace DeroGold

open KeyValue Slice Search List TransitionSystem Option Sample Lineage DatabaseSegment

/-! ### The index of days -/

/-- Day of a block, named by its first second. -/
def RawBlock.day (raw : RawBlock) : Nat := roundToMidnight raw.block.timestamp

/-- Every day leads to its first block. -/
def DaysOk (days : DayIndex) (blocks : List RawBlock) : Prop :=
  ∀ midnight, days midnight = blocks.findIdx? fun raw => raw.day = midnight

variable {days' : DayIndex} {blocks : List RawBlock}

/-- A day is noted with the first block that has it. -/
theorem DaysOk.append {days : DayIndex} {raw : RawBlock}
    (ok : DaysOk days blocks) (noted : ∀ midnight, days' midnight =
      (days midnight).or (if raw.day = midnight then some blocks.length else none)) :
    DaysOk days' (blocks ++ [raw]) := by
  intro midnight
  rw [noted, ok, findIdx?_append, findIdx?_singleton]
  by_cases same : raw.day = midnight
  · simp [same]
  · simp [same]

/-- Days of which a cut leaves no block. -/
def daysLost (blocks : List RawBlock) (cut : Nat) : List Nat :=
  ((blocks.map RawBlock.day).filter (· ∉ (blocks.take cut).map RawBlock.day)).dedup

/-- The days that a cut loses are days in a row that begin with the day of the first block that
is removed, or with the next one if that block is not the first of its day. No block that stays
has the day after them. -/
def LosesInARow (blocks : List RawBlock) (cut : Nat) : Prop :=
  ∀ first ∈ blocks[cut]?,
    let start := if blocks.findIdx? (fun raw => raw.day = first.day) = some cut then first.day
      else first.day + oneDaySeconds
    let count := (daysLost blocks cut).length
    daysLost blocks cut ~ (List.range count).map (start + · * oneDaySeconds) ∧
      start + count * oneDaySeconds ∉ (blocks.take cut).map RawBlock.day

instance (blocks : List RawBlock) (cut : Nat) : Decidable (LosesInARow blocks cut) :=
  inferInstanceAs (Decidable (∀ first ∈ _, _ ∧ _))

section

variable {days : DayIndex} {start cut day : Nat} {first : RawBlock}

theorem mem_daysLost : day ∈ daysLost blocks cut ↔
    day ∈ blocks.map RawBlock.day ∧ day ∉ (blocks.take cut).map RawBlock.day := by
  simp [daysLost]

theorem isSome_findIdx?_day : (blocks.findIdx? fun raw => raw.day = day).isSome = true ↔
    day ∈ blocks.map RawBlock.day := by
  rw [findIdx?_isSome, List.any_eq_true, List.mem_map]
  simp only [decide_eq_true_iff]

/-- The days that are lost are forgotten, and no others. -/
theorem DaysOk.take (ok : DaysOk days blocks) (left : ∀ midnight, days' midnight =
      if midnight ∈ daysLost blocks cut then none else days midnight) :
    DaysOk days' (blocks.take cut) := by
  intro midnight
  rw [left, ok]
  by_cases stays : midnight ∈ (blocks.take cut).map RawBlock.day
  · rw [if_neg fun lost => (mem_daysLost.1 lost).2 stays]
    conv_lhs => rw [← take_append_drop cut blocks, findIdx?_append]
    exact or_of_isSome (isSome_findIdx?_day.2 stays)
  · rw [not_isSome_iff_eq_none.1 (mt isSome_findIdx?_day.1 stays), ite_eq_left_iff]
    intro kept
    exact not_isSome_iff_eq_none.1 fun known =>
      kept (mem_daysLost.2 ⟨isSome_findIdx?_day.1 known, stays⟩)

theorem daysFrom_eq {rounds count : Nat} (enough : count ≤ rounds)
    (noted : ∀ n < count, (days (start + n * oneDaySeconds)).isSome = true)
    (ends : days (start + count * oneDaySeconds) = none) :
    Database.daysFrom days rounds start = (List.range count).map (start + · * oneDaySeconds) := by
  induction count generalizing start rounds with
  | zero =>
    cases rounds with
    | zero => rfl
    | succ rounds =>
      rw [Nat.zero_mul, add_zero] at ends
      rw [Database.daysFrom, ends]
      rfl
  | succ count ih =>
    obtain ⟨rounds, rfl⟩ : ∃ n, rounds = n + 1 := ⟨rounds - 1, by omega⟩
    have shift : ∀ n, start + (n + 1) * oneDaySeconds = start + oneDaySeconds + n * oneDaySeconds :=
      fun n => by rw [Nat.succ_mul]; omega
    obtain ⟨first, found⟩ := isSome_iff_exists.1 (noted 0 (by omega))
    rw [Nat.zero_mul, add_zero] at found
    rw [Database.daysFrom, found, range_succ_eq_map, map_cons, List.map_map, Nat.zero_mul, add_zero]
    refine congrArg _ ((ih (by omega) (fun n lt => shift n ▸ noted (n + 1) (by omega))
      (shift count ▸ ends)).trans (map_congr_left fun n _ => (shift n).symm))

/-- The days that a split forgets. -/
def forgottenDays (env : DatabaseEnv) (days : DayIndex) (splitBlockIndex midnight : Nat) : List Nat :=
  Database.daysFrom days (maxTime / oneDaySeconds + 1)
    (if splitBlockIndex = (days midnight).getD env.undefinedIndex then midnight
      else midnight + oneDaySeconds)

/-- The walk over the days reaches those that are lost. -/
theorem LosesInARow.perm (inARow : LosesInARow blocks cut) (ok : DaysOk days blocks)
    (times : ∀ raw ∈ blocks, raw.block.timestamp ≤ maxTime) (at_cut : blocks[cut]? = some first)
    (env : DatabaseEnv) : daysLost blocks cut ~ forgottenDays env days cut first.day := by
  have noted : ∀ {day}, (days day).isSome = true ↔ day ∈ blocks.map RawBlock.day :=
    fun {day} => ok day ▸ isSome_findIdx?_day
  obtain ⟨i, found⟩ := isSome_iff_exists.1
    (noted.2 (mem_map_of_mem (mem_of_getElem? at_cut)))
  obtain ⟨same, ends⟩ := inARow first at_cut
  simp only [← ok first.day, found, some.injEq, eq_comm (a := i)] at same ends
  rw [forgottenDays, found, getD_some]
  generalize (if cut = i then first.day else first.day + oneDaySeconds) = start at *
  have held : ∀ n < (daysLost blocks cut).length,
      start + n * oneDaySeconds ∈ blocks.map RawBlock.day :=
    fun n lt => (mem_daysLost.1 (same.mem_iff.2 (mem_map_of_mem (mem_range.2 lt)))).1
  rwa [daysFrom_eq ?_ (fun n lt => noted.2 (held n lt)) ?_]
  · -- no block is beyond the largest time
    by_contra many
    obtain ⟨raw, mem, day⟩ := mem_map.1 (held (maxTime / oneDaySeconds + 1) (by omega))
    have early := times raw mem
    simp only [RawBlock.day, roundToMidnight, oneDaySeconds] at day
    omega
  · rw [← not_isSome_iff_eq_none, noted]
    intro stored
    obtain ⟨n, lt, eq⟩ := mem_map.1 (same.mem_iff.1 (mem_daysLost.2 ⟨stored, ends⟩))
    rw [mem_range] at lt
    unfold oneDaySeconds at eq
    omega

end

/-- A new day is noted once. -/
theorem Database.write_insertDay (db : Database) {batch : BlockchainWriteBatch}
    (untouched : batch.closestTimestamps = Changes.none) (timestamp index midnight : Nat) :
    KeyValue.write db.closestTimestamps
        (db.insertDay timestamp index batch).closestTimestamps midnight =
      (db.closestTimestamps midnight).or
        (if roundToMidnight timestamp = midnight then some index else none) := by
  unfold Database.insertDay
  cases noted : db.closestTimestamps (roundToMidnight timestamp) with
  | some first =>
    dsimp only
    rw [untouched, write_none]
    split
    · rename_i same
      rw [← same, noted]
      rfl
    · rw [or_none]
  | none =>
    change KeyValue.write db.closestTimestamps
      (batch.closestTimestamps.insert (roundToMidnight timestamp) index) midnight = _
    rw [untouched, write_insert rfl, Function.update_apply, write_none]
    by_cases same : midnight = roundToMidnight timestamp
    · rw [if_pos same, if_pos same.symm, same, noted]
      rfl
    · rw [if_neg same, if_neg (Ne.symm same), or_none]

namespace DatabaseSegment

variable {seg : DatabaseSegment} {rows : List BlockRow} {env : DatabaseEnv}
  {genesis : CachedBlock} {pushed : PushedBlockInfo}

theorem closestTimestamps_delete (db : Database) (env : DatabaseEnv) (timestamp cut : Nat)
    (batch : BlockchainWriteBatch) :
    (db.deleteClosestTimestampBlockIndex env timestamp cut batch).closestTimestamps =
      batch.closestTimestamps.removeAll
        (forgottenDays env db.closestTimestamps cut (roundToMidnight timestamp)) := by
  refine (Changes.foldl_removeAll (g := fun batch : BlockchainWriteBatch => batch.closestTimestamps)
    (k := fun midnight => midnight) (fun _ _ => by rfl) _ _).trans ?_
  rw [List.map_id']
  rfl

/-- The call completes, and a split loses days in a row. -/
def KeepsDays (env : DatabaseEnv) (segment : DatabaseSegment) : DatabaseCall → Prop
  | .pushBlock pushed => segment.Completes env (.pushBlock pushed)
  | .split splitBlockIndex => segment.Completes env (.split splitBlockIndex) ∧
    LosesInARow segment.storedBlocks splitBlockIndex

instance (env : DatabaseEnv) (segment : DatabaseSegment) : DecidablePred (segment.KeepsDays env)
  | .pushBlock pushed => inferInstanceAs (Decidable (segment.Completes env (.pushBlock pushed)))
  | .split _ => inferInstanceAs (Decidable (_ ∧ LosesInARow _ _))

/-- The chain that the segment holds, with its days. -/
structure HoldsDays (segment : DatabaseSegment) (rows : List BlockRow) : Prop where
  holds : segment.Holds rows
  days : DaysOk segment.database.closestTimestamps (rows.map (·.rawBlock))
  times : ∀ row ∈ rows, row.info.timestamp = row.rawBlock.block.timestamp ∧
    row.info.timestamp ≤ maxTime

theorem HoldsDays.pushBlock (held : seg.HoldsDays rows) (last : BlockRow)
    (time : pushed.rawBlock.block.timestamp ≤ maxTime) :
    (seg.pushedSegment env (last.info.next pushed) pushed).HoldsDays
      (rows ++ [last.next pushed]) := by
  refine ⟨held.holds.pushBlock _, ?_,
    forall_mem_append.2 ⟨held.times, forall_mem_singleton.2 ⟨rfl, time⟩⟩⟩
  rw [map_append]
  refine held.days.append fun midnight => ?_
  have next_index : seg.getTopBlockIndex + 1 = (rows.map (·.rawBlock)).length := by
    rw [held.holds.length_eq, length_map]
  have untouched : (seg.prepared env (last.info.next pushed) pushed).2.closestTimestamps =
      Changes.none :=
    congrArg Tables.closestTimestamps (seg.database.aboutBlocks_pushTransactions env
      (seg.getTopBlockIndex + 1) pushed.rawBlock.allTransactions (seg.toCounters,
        blockBatch (seg.getTopBlockIndex + 1) (last.info.next pushed) pushed))
  change write seg.database.closestTimestamps (seg.database.insertDay
    pushed.rawBlock.block.timestamp (seg.getTopBlockIndex + 1)
      (seg.prepared env (last.info.next pushed) pushed).2).closestTimestamps midnight = _
  rw [seg.database.write_insertDay untouched, next_index]
  rfl

theorem HoldsDays.cut (held : seg.HoldsDays rows) {cut : Nat}
    {deleting : List PushedBlockInfo} {deleted : List StoredTransaction} {info : CachedBlockInfo}
    (cuts : seg.Cuts cut deleting deleted info) (keeps : seg.KeepsDays env (.split cut)) :
    (seg.cutSegment env .empty deleting cut deleted info.timestamp).HoldsDays
      (rows.take cut) := by
  refine ⟨held.holds.cut cuts, ?_, fun row mem => held.times row (mem_of_mem_take mem)⟩
  obtain ⟨row, at_cut, rfl⟩ :=
    map_eq_some_iff.1 ((held.holds.stores.infos cut).symm.trans cuts.found)
  have inARow := keeps.2
  rw [held.holds.storedBlocks_eq] at inARow
  have forgotten := inARow.perm held.days (forall_mem_map.2 fun row mem =>
    (held.times row mem).1 ▸ (held.times row mem).2) (by rw [getElem?_map, at_cut]; rfl) env
  rw [map_take]
  refine held.days.take fun midnight => ?_
  have untouched : (seg.cutDown env .empty deleting cut deleted).2.closestTimestamps =
      Changes.none := by
    apply (congrArg Tables.closestTimestamps (aboutBlocks_cutDown seg env deleted .empty)).trans
    rw [Database.deleteBlocks_eq]
    rfl
  change write seg.database.closestTimestamps
    (seg.database.deleteClosestTimestampBlockIndex env row.info.timestamp cut
      (seg.cutDown env .empty deleting cut deleted).2).closestTimestamps midnight = _
  rw [closestTimestamps_delete, untouched, write_removeAll_apply, write_none,
    (held.times row (mem_of_getElem? at_cut)).1]
  simp only [forgotten.mem_iff, RawBlock.day]

theorem holdsDays_create (time : genesis.timestamp ≤ maxTime) :
    (create env genesis .empty).segment.HoldsDays [genesisRow genesis] := by
  refine ⟨holds_create time, ?_, forall_mem_singleton.2 ⟨rfl, time⟩⟩
  have empty : DaysOk opened.database.closestTimestamps [] := fun _ => rfl
  change DaysOk _ ([] ++ [RawBlock.mk genesis []])
  refine empty.append fun midnight => ?_
  rw [create_empty]
  unfold addGenesisBlock
  dsimp only
  rw [if_neg (not_lt.2 time)]
  have untouched := congrArg Tables.closestTimestamps (opened.database.aboutBlocks_pushTransaction
    env (opened.toCounters, .empty) genesis.baseTransaction 0 0)
  exact opened.database.write_insertDay untouched genesis.timestamp 0 midnight

theorem holdsDays_step (held : ∃ rows, seg.HoldsDays rows) {call : DatabaseCall}
    (keeps : seg.KeepsDays env call) : ∃ rows, (seg.step env call).HoldsDays rows := by
  obtain ⟨rows, held⟩ := held
  have completes : seg.Completes env call := by
    cases call
    · exact keeps
    · exact keeps.1
  refine exists_rows_step held.holds.toChained completes (fun last _ _ => held.pushBlock last) ?_
  rintro bound deleting deleted info rfl cuts
  exact held.cut cuts keeps

/-- In every run whose splits lose days in a row, the index leads to the first block of
each day of the stored chain. -/
theorem daysOk_afterCalls {calls : List DatabaseCall} (time : genesis.timestamp ≤ maxTime)
    (keeps : Along (step env) (KeepsDays env) (create env genesis .empty).segment calls) :
    DaysOk (afterCalls env genesis calls).database.closestTimestamps
      (afterCalls env genesis calls).storedBlocks := by
  have held : ∃ rows, (afterCalls env genesis calls).HoldsDays rows :=
    invariant_run (I := fun seg => ∃ rows, seg.HoldsDays rows)
      (fun _ _ held ok => holdsDays_step held ok) ⟨_, holdsDays_create time⟩ keeps
  obtain ⟨rows, held⟩ := held
  rw [held.holds.storedBlocks_eq]
  exact held.days

end DatabaseSegment

/-! ### The height of a time -/

theorem roundToMidnight_mono {early late : Nat} (le : early ≤ late) :
    roundToMidnight early ≤ roundToMidnight late :=
  Nat.mul_le_mul_right _ (Nat.div_le_div_right le)

/-- Below the first block of a day there are only blocks of earlier days. -/
theorem DaysOk.before {days : DayIndex} (ok : DaysOk days blocks)
    (ascending : (blocks.map (·.block.timestamp)).Pairwise (· ≤ ·)) {timestamp first : Nat}
    (found : days (roundToMidnight timestamp) = some first) :
    ∀ raw ∈ blocks.take first, raw.block.timestamp < timestamp := by
  rw [ok, findIdx?_eq_some_iff_getElem] at found
  obtain ⟨inside, on_day, earlier⟩ := found
  intro raw mem
  obtain ⟨i, lt, rfl⟩ := mem_take_iff_getElem.1 mem
  have before : i < first := by omega
  have other_day := earlier i before
  rw [decide_eq_true_iff] at on_day other_day
  rw [pairwise_map, pairwise_iff_getElem] at ascending
  have le := roundToMidnight_mono (ascending i first (by omega) inside before)
  by_contra late
  have ge := roundToMidnight_mono (Nat.le_of_not_lt late)
  unfold RawBlock.day at on_day other_day
  omega

/-- The blocks in the database of a branch, if it has one. -/
def Lineage.databaseBlocks : Lineage → Option (List RawBlock)
  | [] => none
  | .database cache :: _ => some (cache.blocks.map (·.rawBlock))
  | .memory _ :: parents => databaseBlocks parents

/-- Timestamps of a branch, oldest first. -/
def Lineage.timestamps (lineage : Lineage) : List Nat := lineage.raws.map (·.block.timestamp)

theorem Cache.Sound.timestamps_eq {cache : Cache} (sound : cache.Sound) :
    cache.blockInfos.map (·.timestamp) = cache.rawBlocks.map (·.block.timestamp) := by
  rw [← Cache.map_fst_entries sound.aligned, ← Cache.map_snd_entries sound.aligned, List.map_map,
    List.map_map]
  exact map_congr_left fun entry mem => (sound.stored entry mem).timestamp

namespace Lineage

variable {days : DayIndex} {cache : BlockchainCache} {parents lineage : Lineage} {timestamp : Nat}

theorem timestamps_cons {cache : Cache} (sound : cache.Sound) :
    timestamps (cache :: parents) = parents.timestamps ++ cache.blockInfos.map (·.timestamp) := by
  rw [timestamps, raws_cons sound, map_append, sound.timestamps_eq, timestamps]

/-- The newest segment answers for itself with its first block. -/
theorem getBlockHeightForTimestamp_own (sound : (Cache.memory cache).Sound)
    (ascending : (timestamps (.memory cache :: parents)).Pairwise (· ≤ ·)) {first : CachedBlockInfo}
    (at_first : cache.blockInfos.head? = some first) (late : timestamp ≤ first.timestamp) :
    getBlockHeightForTimestamp days (.memory cache :: parents) timestamp =
      some (some cache.startIndex) := by
  rw [timestamps_cons sound, pairwise_append] at ascending
  obtain ⟨-, ascending, -⟩ := ascending
  obtain ⟨rest, infos⟩ := head?_eq_some_iff.1 at_first
  change (map _ cache.blockInfos).Pairwise _ at ascending
  rw [infos, map_cons, pairwise_cons] at ascending
  have all : ∀ other ∈ cache.blockInfos.map (·.timestamp), timestamp ≤ other := by
    rw [infos, map_cons]
    exact forall_mem_cons.2 ⟨late, fun other mem => late.trans (ascending.1 other mem)⟩
  have start : lowerBound (fun other => decide (other < timestamp))
      (cache.blockInfos.map (·.timestamp)) = 0 :=
    lowerBound_append (fun y (mem : y ∈ []) => nomatch mem) fun other mem early =>
      absurd (of_decide_eq_true early) (not_lt.2 (all other mem))
  have last : ¬ (cache.blockInfos.map (·.timestamp)).getLast?.getD 0 < timestamp := by
    obtain ⟨last, at_last⟩ := getLast?_isSome.2
      (ne_nil_of_mem (mem_map_of_mem (f := CachedBlockInfo.timestamp)
        (mem_of_mem_head? at_first))) |> isSome_iff_exists.1
    rw [at_last]
    exact not_lt.2 (all last (mem_of_getLast? at_last))
  have head : timestamp ≤ (cache.blockInfos.map (·.timestamp)).head?.getD 0 := by
    rw [head?_map, at_first]
    exact late
  rw [getBlockHeightForTimestamp, if_neg last, if_pos head, start, add_zero]

/-- An answer comes from the newest segment or from the index of days. -/
theorem getBlockHeightForTimestamp_cases (whole : lineage.Whole)
    (ascending : lineage.timestamps.Pairwise (· ≤ ·)) {height : Nat}
    (found : lineage.getBlockHeightForTimestamp days timestamp = some (some height)) :
    (∃ cache parents first, lineage = .memory cache :: parents ∧
        cache.blockInfos.head? = some first ∧ timestamp ≤ first.timestamp ∧
        height = cache.startIndex) ∨
      ∃ blocks later, lineage.databaseBlocks = some blocks ∧ lineage.raws = blocks ++ later ∧
        days (roundToMidnight timestamp) = some height := by
  cases lineage with
  | nil => cases found
  | cons newest parents =>
  cases newest with
  | database cache =>
    rw [getBlockHeightForTimestamp] at found
    split at found
    · cases found
    · refine .inr ⟨_, [], rfl, ?_, some.inj found⟩
      rw [append_nil, whole.raws_database]
  | memory cache =>
    have sound := whole.1.sound
    obtain ⟨first, at_first⟩ : ∃ first, cache.blockInfos.head? = some first :=
      isSome_iff_exists.1 (isSome_head?.2 sound.nonempty)
    by_cases late : timestamp ≤ first.timestamp
    · cases (getBlockHeightForTimestamp_own sound ascending at_first late).symm.trans found
      exact .inl ⟨cache, parents, first, rfl, at_first, late, rfl⟩
    · have asked : getBlockHeightForTimestamp days parents timestamp = some (some height) := by
        rw [getBlockHeightForTimestamp] at found
        split at found
        · cases found
        · rw [head?_map, at_first, map_some, getD_some, if_neg late] at found
          split at found
          · cases found
          · exact found
      cases parents with
      | nil => cases asked
      | cons parent rest =>
      cases parent with
      | database db =>
        rw [getBlockHeightForTimestamp] at asked
        split at asked
        · cases asked
        · refine .inr ⟨_, (Cache.memory cache).rawBlocks, rfl, ?_, some.inj asked⟩
          rw [raws_cons sound, Whole.raws_database whole.2]
      | memory below =>
        -- the segment below ends before this one begins
        have below_sound := whole.2.1.sound
        obtain ⟨last, at_last⟩ : ∃ last, below.blockInfos.getLast? = some last :=
          isSome_iff_exists.1 (getLast?_isSome.2 below_sound.nonempty)
        rw [timestamps_cons sound, timestamps_cons below_sound, pairwise_append] at ascending
        have le : last.timestamp ≤ first.timestamp :=
          ascending.2.2 _ (mem_append_right _ (mem_map_of_mem (mem_of_getLast? at_last)))
            _ (mem_map_of_mem (mem_of_mem_head? at_first))
        have early : (below.blockInfos.map (·.timestamp)).getLast?.getD 0 < timestamp := by
          rw [getLast?_map, at_last]
          exact lt_of_le_of_lt le (by omega)
        rw [getBlockHeightForTimestamp, if_pos early] at asked
        cases asked

/-- What lies below the newest segment. -/
theorem Whole.raws_take_start (whole : Whole (.memory cache :: parents)) :
    (raws (.memory cache :: parents)).take cache.startIndex = parents.raws := by
  have start : cache.startIndex = parents.raws.length := by
    rw [length_raws]
    exact whole.1.start
  rw [raws_cons whole.1.sound, start, take_left]

theorem Whole.start_lt (whole : Whole (.memory cache :: parents)) :
    cache.startIndex < (raws (.memory cache :: parents)).length := by
  have start : cache.startIndex = parents.chain.length := whole.1.start
  have pos := length_pos_iff.2 whole.1.sound.nonempty
  rw [raws_cons whole.1.sound, length_append, length_raws, whole.1.sound.aligned]
  omega

/-- The last block of a branch in order of time is its latest. -/
theorem timestamp_le_last (ascending : lineage.timestamps.Pairwise (· ≤ ·)) {raw last : RawBlock}
    (mem : raw ∈ lineage.raws) (at_last : lineage.raws.getLast? = some last) :
    raw.block.timestamp ≤ last.block.timestamp := by
  obtain ⟨older, parts⟩ := getLast?_eq_some_iff.1 at_last
  rw [timestamps, parts, map_append, pairwise_append] at ascending
  rw [parts, mem_append, mem_singleton] at mem
  rcases mem with mem | rfl
  · exact ascending.2.2 _ (mem_map_of_mem mem) _ (mem_singleton_self _)
  · exact le_refl _

end Lineage

/-! ### Skipping blocks -/

namespace Core

/-- A request for blocks with coinbase from a time on. -/
def timeRequest (timestamp blockCount : Nat) : SyncRequest := ⟨[], 0, timestamp, blockCount, false⟩

/-- All blocks below the first one that the wallet gets are earlier than it asked for. -/
def NeverSkips (days : DayIndex) (core : Core) (timestamp blockCount : Nat) : Prop :=
  ∀ data, core.getWalletSyncData days (timeRequest timestamp blockCount) = some data →
    ∀ first, data.walletBlocks.head? = some first →
      ∀ below rest, core.walletChain = below ++ first :: rest →
        ∀ block ∈ below, block.blockTimestamp < timestamp

/-- If the newest segment begins late enough, the block below it is too early. -/
def ClearBelowLeaf (core : Core) (timestamp : Nat) : Prop :=
  ∀ first ∈ core.mainLineage.head?.bind (·.blockInfos.head?), timestamp ≤ first.timestamp →
    ∀ last ∈ (raws core.mainLineage.tail).getLast?, last.block.timestamp < timestamp

instance (core : Core) (timestamp : Nat) : Decidable (core.ClearBelowLeaf timestamp) :=
  inferInstanceAs (Decidable (∀ first ∈ _, _ → ∀ last ∈ _, _))

variable {core : Core} {days : DayIndex} {timestamp blockCount : Nat} {top : Hash}

/-- The blocks of the database are those that the calls have stored. -/
def Stands (core : Core) (segment : DatabaseSegment) : Prop :=
  ∀ blocks ∈ core.mainLineage.databaseBlocks, blocks = segment.storedBlocks

instance (core : Core) (segment : DatabaseSegment) : Decidable (core.Stands segment) :=
  inferInstanceAs (Decidable (∀ blocks ∈ _, _))

namespace MainWhole

variable (ok : core.MainWhole)
include ok

theorem getWalletSyncData_time (pos : 0 < timestamp)
    (top_hash : core.getTopBlockHash = some top) {found : Option Nat}
    (answer : core.mainLineage.getBlockHeightForTimestamp days timestamp = some found)
    (count : Nat) : core.getWalletSyncData days (timeRequest timestamp count) =
      some (found.elim ⟨[], some ⟨top, core.getTopBlockIndex⟩⟩
        (core.portion top (timeRequest timestamp count).actualBlockCount)) := by
  rw [getWalletSyncData, top_hash, bind_eq_bind, bind_some]
  change (core.mainLineage.getBlockHeightForTimestamp days timestamp).bind _ = _
  rw [answer, bind_some]
  cases found with
  | none => exact if_pos ⟨pos.ne', rfl⟩
  | some height =>
    rw [if_neg (fun refused => Bool.false_ne_true refused.2)]
    change core.syncDataFrom (timeRequest timestamp count) top
      (max 0 (if timestamp = 0 then 0 else height)) = _
    rw [if_neg pos.ne', Nat.zero_max, ok.syncDataFrom_eq rfl]
    rfl

/-- Where the wallet begins with a block of the chain, that block is found at its height only. -/
theorem eq_take {height : Nat} {first : WalletBlockInfo}
    (at_height : core.walletChain[height]? = some first) {below rest : List WalletBlockInfo}
    (parts : core.walletChain = below ++ first :: rest) : below = core.walletChain.take height := by
  have at_length : core.walletChain[below.length]? = some first := by
    rw [parts, getElem?_append_right (le_refl _), Nat.sub_self]
    rfl
  have same : below.length = height := by
    have nodup : (core.walletChain.map (·.blockHash)).Nodup := by
      rw [ok.map_blockHash_walletChain]
      exact ok.distinct
    have inside : below.length < (core.walletChain.map (·.blockHash)).length := by
      rw [length_map]
      exact (List.getElem?_eq_some_iff.1 at_length).1
    refine (getElem?_inj inside nodup).1 ?_
    rw [getElem?_map, getElem?_map, at_length, at_height]
  rw [← same, parts, take_left]

/-- Where the blocks begin at a height, nothing is skipped if all blocks below it are too early. -/
theorem neverSkips_at (pos : 0 < timestamp) {height : Nat}
    (answer : core.mainLineage.getBlockHeightForTimestamp days timestamp = some (some height))
    (inside : height ≤ core.getTopBlockIndex) : core.NeverSkips days timestamp blockCount ↔
      ∀ raw ∈ core.mainLineage.raws.take height, raw.block.timestamp < timestamp := by
  obtain ⟨top, top_hash, -⟩ := ok.getTopBlockHash_eq
  have data := ok.getWalletSyncData_time pos top_hash answer blockCount
  have lt : height < core.walletChain.length := by
    rw [ok.length_walletChain]
    omega
  have size := (timeRequest timestamp blockCount).actualBlockCount_pos
  have head : (slice core.walletChain height
      (height + (timeRequest timestamp blockCount).actualBlockCount)).head? =
        some core.walletChain[height] := by
    rw [head?_eq_getElem?, slice, getElem?_drop, getElem?_take_of_lt (by omega), add_zero,
      getElem?_eq_getElem lt]
  have below_eq : core.walletChain.take height =
      (core.mainLineage.raws.take height).map (RawBlock.walletBlock false) := by
    rw [walletChain, map_take]
  rw [elim_some, portion, if_neg (not_lt.2 inside)] at data
  constructor
  · intro never raw mem
    refine never _ data _ head (core.walletChain.take height) (core.walletChain.drop (height + 1))
      ?_ (raw.walletBlock false) ?_
    · rw [← drop_eq_getElem_cons lt, take_append_drop]
    · rw [below_eq]
      exact mem_map_of_mem mem
  · intro early data' answered first at_first below rest parts block mem
    cases data.symm.trans answered
    rw [head] at at_first
    cases at_first
    rw [ok.eq_take (getElem?_eq_getElem lt) parts, below_eq] at mem
    obtain ⟨raw, held, rfl⟩ := mem_map.1 mem
    exact early raw held

/-- Without a block to begin with nothing is skipped. -/
theorem neverSkips_of_none (pos : 0 < timestamp)
    (answer : ∀ height ≤ core.getTopBlockIndex,
      core.mainLineage.getBlockHeightForTimestamp days timestamp ≠ some (some height)) :
    core.NeverSkips days timestamp blockCount := by
  obtain ⟨top, top_hash, -⟩ := ok.getTopBlockHash_eq
  intro data answered first at_first
  cases found : core.mainLineage.getBlockHeightForTimestamp days timestamp with
  | none =>
    rw [getWalletSyncData, top_hash] at answered
    change (core.mainLineage.getBlockHeightForTimestamp days timestamp).bind _ = _ at answered
    rw [found] at answered
    cases answered
  | some height =>
    rw [ok.getWalletSyncData_time pos top_hash found] at answered
    cases answered
    cases height with
    | none => cases at_first
    | some height =>
      have above : core.getTopBlockIndex < height :=
        Nat.lt_of_not_le fun inside => answer height inside found
      rw [elim_some, portion, if_pos above] at at_first
      cases at_first

theorem neverSkips_of_clear {blocks : List RawBlock}
    (daysOk : DaysOk days blocks)
    (stands : ∀ stored ∈ core.mainLineage.databaseBlocks, stored = blocks)
    (ascending : core.mainLineage.timestamps.Pairwise (· ≤ ·)) (pos : 0 < timestamp)
    (clear : core.ClearBelowLeaf timestamp) : core.NeverSkips days timestamp blockCount := by
  by_cases answered : ∃ height ≤ core.getTopBlockIndex,
      core.mainLineage.getBlockHeightForTimestamp days timestamp = some (some height)
  · obtain ⟨height, inside, answer⟩ := answered
    rw [ok.neverSkips_at pos answer inside]
    rcases getBlockHeightForTimestamp_cases ok.whole ascending answer with
      ⟨cache, parents, first, lineage_eq, at_first, late, rfl⟩ | ⟨stored, later, found, raws_eq, noted⟩
    · -- the newest segment has answered with its first block
      have whole := ok.whole
      rw [lineage_eq] at whole ascending
      rw [lineage_eq, whole.raws_take_start]
      intro raw mem
      obtain ⟨last, at_last⟩ : ∃ last, (raws parents).getLast? = some last :=
        isSome_iff_exists.1 (getLast?_isSome.2 (ne_nil_of_mem mem))
      rw [timestamps_cons whole.1.sound, pairwise_append] at ascending
      exact lt_of_le_of_lt (timestamp_le_last ascending.1 mem at_last)
        (clear first (by rw [lineage_eq]; exact at_first) late last (by rw [lineage_eq]; exact at_last))
    · -- the index of days has answered
      have same := stands stored found
      subst same
      have within : height ≤ stored.length := by
        rw [daysOk, findIdx?_eq_some_iff_getElem] at noted
        exact noted.1.le
      rw [timestamps, raws_eq, map_append, pairwise_append] at ascending
      rw [raws_eq, take_append_of_le_length within]
      exact daysOk.before ascending.1 noted
  · exact ok.neverSkips_of_none pos fun height inside answer => answered ⟨height, inside, answer⟩

theorem clear_of_neverSkips
    (ascending : core.mainLineage.timestamps.Pairwise (· ≤ ·)) (pos : 0 < timestamp)
    (never : core.NeverSkips days timestamp blockCount) : core.ClearBelowLeaf timestamp := by
  intro first at_first late last at_last
  obtain ⟨leaf, parents, -, lineage_eq⟩ := ok.exists_leaf
  have whole := ok.whole
  rw [lineage_eq] at at_first at_last
  rw [lineage_eq] at whole ascending
  cases leaf with
  | database cache =>
    rw [tail_cons, raws, whole.parents_of_database] at at_last
    cases at_last
  | memory cache =>
    have answer : core.mainLineage.getBlockHeightForTimestamp days timestamp =
        some (some cache.startIndex) := by
      rw [lineage_eq]
      exact getBlockHeightForTimestamp_own whole.1.sound ascending at_first late
    have inside : cache.startIndex ≤ core.getTopBlockIndex := by
      have lt := whole.start_lt
      have length_eq : core.getTopBlockIndex + 1 = core.mainLineage.chain.length :=
        ok.getTopBlockIndex_eq
      rw [← lineage_eq, length_raws] at lt
      omega
    apply (ok.neverSkips_at pos answer inside).1 never last
    rw [lineage_eq, whole.raws_take_start]
    exact mem_of_getLast? at_last

end MainWhole

/-- In every run whose splits lose days in a row and for every chain in order of time on
top of its database, whatever the segments, the wallet skips no block exactly if the newest
segment does not hide one. -/
theorem neverSkips_iff (env : DatabaseEnv) (genesis : CachedBlock) (calls : List DatabaseCall)
    (time : genesis.timestamp ≤ maxTime)
    (keeps : Along (DatabaseSegment.step env) (DatabaseSegment.KeepsDays env)
      (create env genesis .empty).segment calls)
    (core : Core) (ok : core.MainWhole)
    (stands : core.Stands (DatabaseSegment.afterCalls env genesis calls))
    (ascending : core.mainLineage.timestamps.Pairwise (· ≤ ·)) (timestamp blockCount : Nat)
    (pos : 0 < timestamp) :
    core.NeverSkips (DatabaseSegment.afterCalls env genesis calls).database.closestTimestamps
        timestamp blockCount ↔ core.ClearBelowLeaf timestamp :=
  ⟨ok.clear_of_neverSkips ascending pos, ok.neverSkips_of_clear
    (daysOk_afterCalls time keeps) stands ascending pos⟩

end Core

namespace Sample

/-- A database that a fork at height 3 has cut. -/
def forkedDatabase : List DatabaseCall := pushes (trunk 3) ++ [.split 3]

/-- Blocks of the first and the third day. -/
def laterDays : List RawBlock :=
  [block 11 0 1 86430 [] 0, block 12 11 2 259205 [] 0, block 13 12 3 259210 [] 0]

/-- A split that stops at the second day, which has no block, and leaves the third in the
index. -/
def staleDatabase : List DatabaseCall :=
  pushes [block 1 0 1 86410 [] 0, block 2 1 2 86420 [] 0, block 3 2 3 259205 [] 0] ++ [.split 1] ++
    pushes laterDays

/-- A core whose database holds these blocks. -/
def laterCore : Core := Core.afterCalls env .insertion genesis (laterDays.map (Call.addBlock 400000))

/-- The index of days after some calls. -/
def daysAfter (calls : List DatabaseCall) : DayIndex :=
  (afterCalls databaseEnv genesis calls).database.closestTimestamps

theorem mainWhole_laterCore : laterCore.MainWhole := Core.mainWhole_afterCalls (by decide +kernel)

end Sample

namespace Core

theorem neverSkips_iff_fork : forkedCore.NeverSkips (daysAfter forkedDatabase) 1025 100 :=
  (neverSkips_iff Sample.databaseEnv Sample.genesis Sample.forkedDatabase (by decide +kernel)
    (by decide +kernel) forkedCore mainWhole_forkedCore (by decide +kernel)
    (by decide +kernel) 1025 100 (by decide)).2 (by decide +kernel)

/-- Asked for the time 1015, the newest segment answers with block 3 and hides block 2. With
a stale day in the index, block 2 is skipped as well. -/
theorem not_neverSkips_fork : (forkedCore.Stands
        (DatabaseSegment.afterCalls Sample.databaseEnv Sample.genesis Sample.forkedDatabase) ∧
      forkedCore.mainLineage.timestamps.Pairwise (· ≤ ·) ∧
      ¬ forkedCore.NeverSkips (daysAfter forkedDatabase) 1015 100) ∧
    laterCore.Stands
        (DatabaseSegment.afterCalls Sample.databaseEnv Sample.genesis Sample.staleDatabase) ∧
      laterCore.mainLineage.timestamps.Pairwise (· ≤ ·) ∧
      ¬ laterCore.NeverSkips (daysAfter staleDatabase) 259200 100 := by
  refine ⟨⟨by decide +kernel, by decide +kernel, fun never => ?_⟩, by decide +kernel,
    by decide +kernel, fun never => ?_⟩
  · have skipped := (mainWhole_forkedCore.neverSkips_at (by decide)
      (by decide +kernel : _ = some (some 3)) (by decide +kernel)).1 never
    revert skipped
    decide +kernel
  · have skipped := (mainWhole_laterCore.neverSkips_at (by decide)
      (by decide +kernel : _ = some (some 3)) (by decide +kernel)).1 never
    revert skipped
    decide +kernel

end Core

end DeroGold
