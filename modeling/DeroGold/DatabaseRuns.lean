import DeroGold.DatabaseRows

/-!
Runs of `pushBlock` and `split` on the database segment, and what closing and opening the
database in between does.

After calls that complete, what is kept in memory can be read back from the store. Opening
the database again therefore changes nothing that can be asked about the chain, as long as
there is a block above the genesis block: a store whose last block index is zero is taken
for an empty one and gets the genesis block once more (`reopens_iff`).
-/

namespace DeroGold

open KeyValue Slice List TransitionSystem Sample Tables

inductive DatabaseCall where
  | pushBlock (pushed : PushedBlockInfo)
  | split (splitBlockIndex : Nat)

namespace DatabaseSegment

variable {seg : DatabaseSegment} {rows : List BlockRow} {env : DatabaseEnv}
  {genesis : CachedBlock}

/-- A call, with a database that accepts the batch. -/
def step (env : DatabaseEnv) (segment : DatabaseSegment) : DatabaseCall → DatabaseSegment
  | .pushBlock pushed => (segment.pushBlock env true pushed).segment
  | .split splitBlockIndex => (segment.split env true splitBlockIndex).segment

/-- The call returns. -/
def Completes (env : DatabaseEnv) (segment : DatabaseSegment) : DatabaseCall → Prop
  | .pushBlock pushed => (segment.pushBlock env true pushed).result.isOk = true
  | .split splitBlockIndex => (segment.split env true splitBlockIndex).result.isOk = true

instance (env : DatabaseEnv) (segment : DatabaseSegment) : DecidablePred (segment.Completes env)
  | .pushBlock _ | .split _ => inferInstanceAs (Decidable (_ = true))

/-- The segment after some calls on a new database. -/
def afterCalls (env : DatabaseEnv) (genesis : CachedBlock) (calls : List DatabaseCall) :
    DatabaseSegment :=
  run (step env) (create env genesis .empty).segment calls

/-! ### A new database -/

/-- Row of the genesis block. -/
def genesisRow (genesis : CachedBlock) : BlockRow where
  info := DatabaseBlockchainCache.genesisBlockInfo genesis
  rawBlock := ⟨genesis, []⟩
  transactionHashes := [genesis.baseTransaction.transactionHash]
  spentKeyImages := []

/-- The segment the constructor begins with on an empty store. -/
def opened : DatabaseSegment :=
  { onDatabase (writeVersion .empty) with topBlockIndex := some 0 }

theorem create_empty (env : DatabaseEnv) (genesis : CachedBlock) :
    create env genesis .empty = opened.addGenesisBlock env genesis := by
  unfold create
  exact if_pos rfl

theorem pending_opened : Pending opened.database opened.toCounters .empty :=
  ⟨fun _ => rfl, rfl, rfl, fun _ _ => rfl⟩

/-- The segment the constructor begins with when the genesis block is put in. -/
def atGenesis (database : Database) : DatabaseSegment :=
  { onDatabase database with topBlockIndex := some 0 }

/-- Nothing is stored above the genesis block. -/
structure Blank (database : Database) : Prop where
  version : database.version () ≠ none
  infos : ∀ i, database.blockInfos (i + 1) = none
  raws : ∀ i, database.rawBlocks (i + 1) = none
  hashes : ∀ i, database.transactionHashes (i + 1) = none
  images : ∀ i, database.spentKeyImages i = none

theorem update_zero {α β : Type} {table : Nat → Option β} (blank : ∀ i, table (i + 1) = none)
    (f : α → β) (x : α) (i : Nat) : Function.update table 0 (some (f x)) i = [x][i]?.map f := by
  cases i <;> simp [blank]

/-- The genesis block is put into a store that has nothing above it. -/
theorem chained_addGenesisBlock (env : DatabaseEnv) (blank : Blank seg.database)
    (top : seg.topBlockIndex = some 0) (units : seg.unitsCache = []) (time : genesis.timestamp ≤ maxTime) :
    (seg.addGenesisBlock env genesis).result = .ok () ∧
      (seg.addGenesisBlock env genesis).segment.Chained [genesisRow genesis] := by
  unfold addGenesisBlock
  dsimp only
  rw [if_neg (not_lt.2 time)]
  have about := seg.database.aboutBlocks_pushTransaction env (seg.toCounters, .empty)
    genesis.baseTransaction 0 0
  generalize seg.database.pushTransaction env (seg.toCounters, .empty)
    genesis.baseTransaction 0 0 = pushed at about
  have version : pushed.2.version = Changes.none := congrArg version about
  have last : pushed.2.lastBlockIndex = Changes.none := congrArg lastBlockIndex about
  have infos : pushed.2.blockInfos = Changes.none := congrArg blockInfos about
  have raws : pushed.2.rawBlocks = Changes.none := congrArg rawBlocks about
  have hashes : pushed.2.transactionHashes = Changes.none := congrArg transactionHashes about
  have images : pushed.2.spentKeyImages = Changes.none := congrArg spentKeyImages about
  refine ⟨rfl, cons_ne_nil _ _, ⟨?_, ?_, fun i => ?_, fun i => ?_, fun i => ?_, fun i => ?_⟩,
    ?_, ?_, ?_⟩
  · change write seg.database.version pushed.2.version () ≠ none
    rw [version]
    exact blank.version
  · change write seg.database.lastBlockIndex (pushed.2.lastBlockIndex.insert () 0) () = _
    rw [last]
    rfl
  · change write seg.database.blockInfos (pushed.2.blockInfos.insert 0 _) i = _
    rw [infos]
    exact update_zero blank.infos BlockRow.info (genesisRow genesis) i
  · change write seg.database.rawBlocks (pushed.2.rawBlocks.insert 0 _) i = _
    rw [raws]
    exact update_zero blank.raws BlockRow.rawBlock (genesisRow genesis) i
  · change write seg.database.transactionHashes (pushed.2.transactionHashes.insert 0 _) i = _
    rw [hashes]
    exact update_zero blank.hashes BlockRow.transactionHashes (genesisRow genesis) i
  · change write seg.database.spentKeyImages pushed.2.spentKeyImages i = _
    rw [images]
    apply (blank.images i).trans
    split
    · rfl
    · rename_i above
      rw [getElem?_eq_none (Nat.pos_of_ne_zero above)]
      rfl
  · intro i at_top
    cases top.symm.trans at_top
    rfl
  · intro hash at_top
    cases at_top
    rfl
  · dsimp only
    rw [units]
    exact suffix_refl _

theorem holds_create (time : genesis.timestamp ≤ maxTime) :
    (create env genesis .empty).segment.Holds [genesisRow genesis] := by
  rw [create_empty]
  have blank : Blank opened.database :=
    ⟨Option.some_ne_none _, fun _ => rfl, fun _ => rfl, fun _ => rfl, fun _ => rfl⟩
  refine ⟨(chained_addGenesisBlock env blank rfl rfl time).2, ?_⟩
  unfold addGenesisBlock
  dsimp only
  rw [if_neg (not_lt.2 time)]
  have ahead : opened.database.Ahead (opened.toCounters, .empty) := ⟨pending_opened, rfl, rfl, rfl⟩
  exact Pending.commit ((ahead.pushTransaction env genesis.baseTransaction 0 0).pending.congr rfl)

/-! ### Runs -/

theorem Chained.step_pushBlock (holds : seg.Chained rows) {pushed : PushedBlockInfo}
    (completes : seg.Completes env (.pushBlock pushed)) :
    ∃ last, rows.getLast? = some last ∧ pushed.rawBlock.block.timestamp ≤ maxTime ∧
      seg.step env (.pushBlock pushed) = seg.pushedSegment env (last.info.next pushed) pushed := by
  obtain ⟨last, at_last⟩ := holds.exists_last
  have found := holds.blockInfos_top
  rw [at_last] at found
  simp only [Completes, step, pushBlock_eq found] at completes ⊢
  by_cases late : maxTime < pushed.rawBlock.block.timestamp
  · rw [if_pos late] at completes
    cases completes
  · rw [if_neg late]
    exact ⟨last, at_last, not_lt.1 late, rfl⟩

theorem step_split {cut : Nat} (completes : seg.Completes env (.split cut)) :
    ∃ deleting deleted info, seg.Cuts cut deleting deleted info ∧
      seg.step env (.split cut) =
        seg.cutSegment env .empty deleting cut deleted info.timestamp := by
  obtain ⟨deleting, done⟩ := Checked.exists_ok completes
  obtain ⟨deleted, info, cuts, left⟩ := split_ok done
  exact ⟨deleting, deleted, info, cuts, left⟩

/-- A call that completes adds the row of a block or cuts rows off. -/
theorem exists_rows_step {P : DatabaseSegment → List BlockRow → Prop} {call : DatabaseCall}
    (chained : seg.Chained rows) (completes : seg.Completes env call)
    (push : ∀ (last : BlockRow) pushed, call = .pushBlock pushed →
      pushed.rawBlock.block.timestamp ≤ maxTime →
      P (seg.pushedSegment env (last.info.next pushed) pushed) (rows ++ [last.next pushed]))
    (cut : ∀ {bound deleting deleted info}, call = .split bound →
      seg.Cuts bound deleting deleted info →
      P (seg.cutSegment env .empty deleting bound deleted info.timestamp) (rows.take bound)) :
    ∃ rows, P (seg.step env call) rows := by
  cases call with
  | pushBlock pushed =>
    obtain ⟨last, -, time, same⟩ := chained.step_pushBlock completes
    exact ⟨_, same ▸ push last pushed rfl time⟩
  | split bound =>
    obtain ⟨deleting, deleted, info, cuts, same⟩ := step_split completes
    exact ⟨_, same ▸ cut rfl cuts⟩

/-- After calls that complete, the store holds a chain and memory agrees with it. -/
theorem exists_rows_afterCalls {calls : List DatabaseCall} (time : genesis.timestamp ≤ maxTime)
    (completes : Along (step env) (Completes env) (create env genesis .empty).segment calls) :
    ∃ rows, (afterCalls env genesis calls).Holds rows := by
  refine invariant_run (I := fun seg => ∃ rows, seg.Holds rows)
    (fun _ _ ⟨_, holds⟩ ok => exists_rows_step holds.toChained ok
      (fun last _ _ _ => holds.pushBlock last) fun _ => holds.cut) ?_ completes
  exact ⟨_, holds_create time⟩

/-- The blocks of the stored chain. -/
def storedBlocks (segment : DatabaseSegment) : List RawBlock :=
  (List.range (segment.getTopBlockIndex + 1)).filterMap segment.database.rawBlocks

theorem Holds.storedBlocks_eq (holds : seg.Holds rows) :
    seg.storedBlocks = rows.map (·.rawBlock) := by
  have all := filterMap_getElem?_range' (rows.map (·.rawBlock)) 0 rows.length
  rw [drop_zero, ← length_map (·.rawBlock), take_length, length_map, ← range_eq_range'] at all
  have pos := length_pos_of_ne_nil holds.nonempty
  rw [storedBlocks, holds.getTopBlockIndex_eq, Nat.sub_add_cancel pos, ← all]
  refine filterMap_congr fun i _ => ?_
  rw [holds.stores.raws, getElem?_map]

/-! ### Answers read from the store -/

/-- What is kept in memory shows the chain that is stored. -/
structure Shows (segment : DatabaseSegment) (rows : List BlockRow) : Prop where
  stores : segment.database.Stores rows
  top : segment.getTopBlockIndex = rows.length - 1
  hash : segment.getTopBlockHash = rows.getLast?.map (·.info.blockHash)
  units : segment.unitsCache <:+ rows.map (·.info)
  transactions : segment.getTransactionCount = (segment.database.transactionsCount ()).getD 0

theorem Holds.shows (holds : seg.Holds rows) : seg.Shows rows where
  stores := holds.stores
  top := holds.getTopBlockIndex_eq
  hash := by
    unfold getTopBlockHash
    cases cached : seg.topBlockHash with
    | none =>
      rw [Option.none_or, holds.blockInfos_top, Option.map_map]
      rfl
    | some hash => exact (holds.hash hash cached).symm
  units := holds.units
  transactions := holds.counters.transactions

/-- The newest infos, whether they come from memory or from the store. -/
theorem getLastUnits_stored (stores : seg.database.Stores rows)
    (top : seg.getTopBlockIndex = rows.length - 1) (units : seg.unitsCache <:+ rows.map (·.info))
    {index count : Nat} (inside : index < rows.length) (small : count < 2 ^ 32)
    (useGenesis : Bool) : seg.getLastUnits count index useGenesis =
      lastUnits (rows.map (·.info)) count index useGenesis := by
  let cache : DatabaseBlockchainCache :=
    ⟨rows, seg.unitsCache, fun _ => none, fun _ => none, fun _ => []⟩
  have cached : seg.getLastCachedUnits index count useGenesis =
      cache.getLastCachedUnits index count useGenesis := by
    unfold getLastCachedUnits
    rw [top]
    rfl
  have read : ∀ index count, seg.getLastDbUnits index count useGenesis =
      cache.getLastDbUnits index count useGenesis := by
    intro index count
    unfold getLastDbUnits DatabaseBlockchainCache.getLastDbUnits
    dsimp only
    rw [← filterMap_getElem?_range']
    congr 1
    funext i
    rw [stores.infos, getElem?_map]
  rw [getLastUnits, cached]
  simp only [read]
  exact DatabaseBlockchainCache.getLastUnits_eq units inside small useGenesis

end DatabaseSegment

/-- Infos are asked for up to a block of the chain, and their number is a 32-bit number. -/
def DatabaseQuery.Asks (segment : DatabaseSegment) : DatabaseQuery → Prop
  | .getLastUnits count blockIndex _ => blockIndex ≤ segment.getTopBlockIndex ∧ count < 2 ^ 32
  | _ => True

namespace DatabaseSegment

variable {seg : DatabaseSegment} {rows : List BlockRow} {env : DatabaseEnv}
  {genesis : CachedBlock}

/-- Two segments on one store that show the same chain differ in their children only. -/
theorem Shows.answer_eq {other : DatabaseSegment} (shows : seg.Shows rows)
    (others : other.Shows rows) (nonempty : rows ≠ []) (same : other.database = seg.database)
    {query : DatabaseQuery} (asks : query.Asks seg)
    (children : query = .getChildCount → other.children = seg.children) :
    other.answer query = seg.answer query := by
  have top := others.top.trans shows.top.symm
  have hash := others.hash.trans shows.hash.symm
  cases query with
  | getTopBlockIndex => exact top
  | getTopBlockHash => exact hash
  | getBlockHash index =>
    simp only [answer, getBlockHash, top, hash, same]
    rfl
  | getBlockIndex blockHash =>
    simp only [answer, getBlockIndex, top, hash, same]
    rfl
  | getLastUnits count index useGenesis =>
    have inside : index < rows.length := by
      have pos := length_pos_of_ne_nil nonempty
      have asked := asks.1
      rw [shows.top] at asked
      omega
    exact (getLastUnits_stored others.stores others.top others.units inside asks.2 useGenesis).trans
      (getLastUnits_stored shows.stores shows.top shows.units inside asks.2 useGenesis).symm
  | getTransactionCount =>
    change other.getTransactionCount = seg.getTransactionCount
    rw [others.transactions, shows.transactions, same]
  | getChildCount => exact children rfl
  | _ =>
    simp only [answer, same]
    rfl

/-! ### Opening the database again -/

/-- Destroying the segment and constructing it again on its store leaves the store alone and
does not change the answers asked for. -/
def Reopens (env : DatabaseEnv) (genesis : CachedBlock) (segment : DatabaseSegment)
    (asked : DatabaseQuery → Prop) : Prop :=
  (create env genesis segment.database).result = .ok () ∧
    (create env genesis segment.database).segment.database = segment.database ∧
    ∀ query, asked query → query.Asks segment →
      (create env genesis segment.database).segment.answer query = segment.answer query

section

variable (holds : seg.Chained rows)
include holds

theorem Chained.writeVersion_eq : writeVersion seg.database = seg.database := by
  unfold writeVersion
  split
  · rfl
  · rename_i absent
    exact absurd absent holds.stores.version

theorem Chained.top_onDatabase : (onDatabase seg.database).getTopBlockIndex = rows.length - 1 := by
  change (seg.database.lastBlockIndex ()).getD 0 = _
  rw [holds.stores.last]
  rfl

/-- With a block above the genesis block the constructor only reads. -/
theorem Chained.create_eq (above : seg.getTopBlockIndex ≠ 0) :
    create env genesis seg.database = ⟨.ok (), { onDatabase seg.database with
      topBlockIndex := some (rows.length - 1) }⟩ := by
  have kept := holds.writeVersion_eq
  have top := holds.top_onDatabase
  rw [holds.getTopBlockIndex_eq, ← top] at above
  unfold create
  rw [kept, ← top]
  exact if_neg above

theorem Chained.create_genesis (at_genesis : seg.getTopBlockIndex = 0) :
    create env genesis seg.database = (atGenesis seg.database).addGenesisBlock env genesis := by
  have kept := holds.writeVersion_eq
  have top := holds.top_onDatabase
  rw [← holds.getTopBlockIndex_eq, at_genesis] at top
  unfold create
  rw [kept]
  dsimp only
  rw [if_pos (by exact top), top]
  rfl

/-- A restart leaves a chain in the store; nothing of it is in memory, unless it is the
genesis block. -/
theorem Chained.restart (time : genesis.timestamp ≤ maxTime) :
    ∃ rows, (create env genesis seg.database).segment.Chained rows := by
  by_cases at_genesis : seg.getTopBlockIndex = 0
  · have length_eq := holds.length_eq
    have above : ∀ i, rows[i + 1]? = none := fun i => getElem?_eq_none (by omega)
    rw [holds.create_genesis at_genesis]
    have blank : Blank (atGenesis seg.database).database := by
      refine ⟨holds.stores.version, fun i => ?_, fun i => ?_, fun i => ?_, fun i => ?_⟩
      · exact (holds.stores.infos _).trans (by rw [above]; rfl)
      · exact (holds.stores.raws _).trans (by rw [above]; rfl)
      · exact (holds.stores.hashes _).trans (by rw [above]; rfl)
      · apply (holds.stores.images i).trans
        cases i with
        | zero => rfl
        | succ i => rw [above]; rfl
    exact ⟨_, (chained_addGenesisBlock env blank rfl rfl time).2⟩
  · rw [holds.create_eq at_genesis]
    refine ⟨rows, holds.nonempty, holds.stores, ?_, ?_, nil_suffix⟩
    · rintro i ⟨⟩
      rfl
    · rintro hash ⟨⟩

end

section

variable (holds : seg.Holds rows)
include holds

theorem Holds.shows_created (above : seg.getTopBlockIndex ≠ 0) :
    (create env genesis seg.database).segment.Shows rows := by
  rw [holds.create_eq above]
  refine ⟨holds.stores, rfl, ?_, nil_suffix, rfl⟩
  change (seg.database.blockInfos (rows.length - 1)).map (·.blockHash) = _
  rw [← holds.getTopBlockIndex_eq, holds.blockInfos_top, Option.map_map]
  rfl

/-- Otherwise it counts the coinbase of the genesis block once more. -/
theorem Holds.created_database_ne (at_genesis : seg.getTopBlockIndex = 0)
    (time : genesis.timestamp ≤ maxTime) :
    (create env genesis seg.database).segment.database ≠ seg.database := by
  rw [holds.create_genesis at_genesis]
  unfold addGenesisBlock
  dsimp only
  rw [if_neg (not_lt.2 time)]
  intro unchanged
  have counted := congrFun (congrArg transactionsCount unchanged) ()
  obtain ⟨-, written⟩ := seg.database.transactionsCount_pushTransaction env
    ((onDatabase seg.database).toCounters, .empty) genesis.baseTransaction 0 0
  change write _ (Database.pushTransaction _ _ _ _ _ _).2.transactionsCount () = _ at counted
  have grown := (congrArg (fun changes => write seg.database.transactionsCount changes ())
    written).symm.trans counted
  change some ((seg.database.transactionsCount ()).getD 0 + 1) =
    seg.database.transactionsCount () at grown
  cases stored : seg.database.transactionsCount () with
  | none =>
    rw [stored] at grown
    cases grown
  | some count =>
    rw [stored, Option.getD_some, Option.some.injEq] at grown
    omega

theorem Holds.reopens_iff_above (time : genesis.timestamp ≤ maxTime) (asked : DatabaseQuery → Prop) :
    Reopens env genesis seg asked ↔ seg.getTopBlockIndex ≠ 0 ∧
      (asked .getChildCount → seg.children = 0) := by
  constructor
  · rintro ⟨-, unchanged, answers⟩
    have above : seg.getTopBlockIndex ≠ 0 := fun at_genesis =>
      holds.created_database_ne at_genesis time unchanged
    refine ⟨above, fun childCount => ?_⟩
    have children := answers .getChildCount childCount trivial
    rw [holds.create_eq above] at children
    exact children.symm
  · rintro ⟨above, children⟩
    refine ⟨by rw [holds.create_eq above], by rw [holds.create_eq above]; rfl, ?_⟩
    intro query queried asks
    refine holds.shows.answer_eq (holds.shows_created above) holds.nonempty
      (by rw [holds.create_eq above]; rfl) asks ?_
    rintro rfl
    rw [holds.create_eq above, children queried]
    rfl

end

/-- In a run of completed calls, opening the database again is harmless exactly if there is
a block above the genesis block and no child segment whose number could be asked for. -/
theorem reopens_iff (env : DatabaseEnv) (genesis : CachedBlock) (calls : List DatabaseCall)
    (time : genesis.timestamp ≤ maxTime) (completes : Along (step env) (Completes env)
      (create env genesis .empty).segment calls) :
    let segment := afterCalls env genesis calls
    (Reopens env genesis segment (fun _ => True) ↔
      segment.getTopBlockIndex ≠ 0 ∧ segment.children = 0) ∧
    (Reopens env genesis segment (· ≠ .getChildCount) ↔ segment.getTopBlockIndex ≠ 0) := by
  intro segment
  obtain ⟨rows, holds⟩ := exists_rows_afterCalls time completes
  constructor
  · rw [holds.reopens_iff_above time]
    simp only [true_implies]
    rfl
  · rw [holds.reopens_iff_above time]
    exact and_iff_left fun other => absurd rfl other

/-! ### Restarts and failures -/

/-- A call that does not complete changes no more than the counters. -/
theorem Chained.withCounters (holds : seg.Chained rows) (counters : Counters) :
    Chained { seg with toCounters := counters } rows :=
  ⟨holds.nonempty, holds.stores, holds.top, holds.hash, holds.units⟩

theorem split_cases (seg : DatabaseSegment) (env : DatabaseEnv) (writes : Bool) (bound : Nat) :
    writes = true ∧ (seg.split env writes bound).result.isOk = true ∨
      ∃ counters, (seg.split env writes bound).segment = { seg with toCounters := counters } := by
  generalize left : seg.split env writes bound = outcome
  unfold split deleteFrom at left
  split at left
  · exact .inr ⟨_, congrArg Outcome.segment left.symm⟩
  split at left
  · exact .inr ⟨_, congrArg Outcome.segment left.symm⟩
  dsimp only at left
  split at left
  · exact .inr ⟨_, congrArg Outcome.segment left.symm⟩
  split at left
  · exact .inr ⟨_, congrArg Outcome.segment left.symm⟩
  split at left
  · exact .inr ⟨_, congrArg Outcome.segment left.symm⟩
  cases writes
  · exact .inr ⟨_, congrArg Outcome.segment left.symm⟩
  · exact .inl ⟨rfl, congrArg (·.result.isOk) left.symm⟩

/-- A call, whether or not the database accepts its batch, or the constructor once more. -/
inductive Event where
  | pushBlock (writes : Bool) (pushed : PushedBlockInfo)
  | split (writes : Bool) (splitBlockIndex : Nat)
  | restart

def handle (env : DatabaseEnv) (genesis : CachedBlock) (segment : DatabaseSegment) :
    Event → DatabaseSegment
  | .pushBlock writes pushed => (segment.pushBlock env writes pushed).segment
  | .split writes splitBlockIndex => (segment.split env writes splitBlockIndex).segment
  | .restart => (create env genesis segment.database).segment

theorem Chained.handle (holds : seg.Chained rows) (time : genesis.timestamp ≤ maxTime)
    (event : Event) : ∃ rows, (seg.handle env genesis event).Chained rows := by
  cases event with
  | pushBlock writes pushed =>
    obtain ⟨last, at_last⟩ := holds.exists_last
    have found := holds.blockInfos_top
    rw [at_last] at found
    rw [DatabaseSegment.handle, pushBlock_eq found]
    split
    · exact ⟨rows, holds.withCounters _⟩
    · cases writes
      · exact ⟨rows, holds.withCounters _⟩
      · exact ⟨_, holds.pushBlock last⟩
  | split writes bound =>
    obtain ⟨rfl, completes⟩ | ⟨counters, left⟩ := seg.split_cases env writes bound
    · obtain ⟨deleting, deleted, info, cuts, same⟩ := step_split completes
      exact ⟨_, same ▸ holds.cut cuts⟩
    · rw [DatabaseSegment.handle, left]
      exact ⟨rows, holds.withCounters counters⟩
  | restart => exact holds.restart time

/-- After any calls and restarts, the newest infos up to a block are the end of the stored
chain there, as a segment in memory with the same chain gives them, if their number is a
32-bit number. -/
theorem getLastUnits_exact (env : DatabaseEnv) (genesis : CachedBlock) (events : List Event)
    (time : genesis.timestamp ≤ maxTime) :
    let segment := run (handle env genesis) (create env genesis .empty).segment events
    ∃ chain : List CachedBlockInfo, chain.length = segment.getTopBlockIndex + 1 ∧
      (∀ i, segment.database.blockInfos i = chain[i]?) ∧
      ∀ blockIndex ≤ segment.getTopBlockIndex, ∀ count < 2 ^ 32, ∀ useGenesis,
        let available := (chain.take (blockIndex + 1)).drop (if useGenesis then 0 else 1)
        segment.getLastUnits count blockIndex useGenesis =
          available.drop (available.length - count) ∧
        ∀ memory : BlockchainCache, memory.startIndex = 0 → memory.blockInfos = chain →
          Lineage.getLastUnits [.memory memory] count blockIndex useGenesis =
            segment.getLastUnits count blockIndex useGenesis := by
  intro segment
  have chained : ∃ rows, segment.Chained rows :=
    invariant_run_of_step (I := fun seg : DatabaseSegment => ∃ rows, seg.Chained rows)
      (fun _ event ⟨_, holds⟩ => holds.handle time event) ⟨_, (holds_create time).toChained⟩
  obtain ⟨rows, holds⟩ := chained
  have length_eq : (rows.map (·.info)).length = segment.getTopBlockIndex + 1 :=
    (length_map ..).trans holds.length_eq.symm
  refine ⟨rows.map (·.info), length_eq, fun i => ?_,
    fun blockIndex inside count small useGenesis => ?_⟩
  · rw [holds.stores.infos, getElem?_map]
  · have inside : blockIndex < (rows.map (·.info)).length := by omega
    rw [getLastUnits_stored holds.stores holds.getTopBlockIndex_eq holds.units
      (by rwa [length_map] at inside) small]
    refine ⟨?_, fun memory start same => by rw [Lineage.getLastUnits_root start, same]⟩
    rw [lastUnits, slice, drop_drop, length_drop, length_take, min_eq_left inside, firstUnit]
    congr 1
    omega

end DatabaseSegment

namespace Sample

/-- The extra field is represented by its size; here the size is the payment id. -/
def databaseEnv : DatabaseEnv where
  paymentId tx := if tx.transaction.extraSize = 0 then none else some tx.transaction.extraSize
  undefinedIndex := 0

/-- The calls that push blocks one after another. -/
def pushes (blocks : List RawBlock) : List DatabaseCall := blocks.map fun raw => .pushBlock (pushed raw)

/-- Two blocks above the genesis block. -/
def twoBlocks : DatabaseSegment := DatabaseSegment.afterCalls databaseEnv genesis (pushes (trunk 2))

/-- Two blocks, of which the upper one is cut off, a push that fails and a restart. -/
def events : List DatabaseSegment.Event :=
  (trunk 2).map (.pushBlock true <| pushed ·) ++
    [.split true 2, .pushBlock false (pushed (next 12 1 2 [] 0)), .restart]

end Sample

namespace DatabaseSegment

theorem reopens_iff_two : Reopens databaseEnv genesis
      (afterCalls databaseEnv genesis (pushes (trunk 2)))
      (fun _ => True) :=
  (reopens_iff databaseEnv genesis (pushes (trunk 2)) (by decide +kernel)
    (by decide +kernel)).1.2 ⟨by decide +kernel, by decide +kernel⟩

/-- Events with a cut, a push that fails and a restart. -/
theorem getLastUnits_exact_restart :
    let segment := run (handle databaseEnv genesis)
      (create databaseEnv genesis .empty).segment events
    ∃ chain : List CachedBlockInfo, chain.length = 2 ∧ ∀ count < 2 ^ 32,
      segment.getLastUnits count 1 true = chain.drop (2 - count) := by
  intro segment
  have top : segment.getTopBlockIndex = 1 := by decide +kernel
  obtain ⟨chain, length_eq, -, newest⟩ := getLastUnits_exact databaseEnv genesis
    events (by decide +kernel)
  rw [top] at length_eq newest
  refine ⟨chain, length_eq, fun count small => ?_⟩
  rw [(newest 1 (le_refl 1) count small true).1, take_of_length_le length_eq.le]
  exact congrArg (fun length => chain.drop (length - count)) length_eq

/-- After the restart nothing is in memory, and the number is cut to 32 bits when the
database is asked: two infos are found, but 2^32 of them are none. -/
theorem not_getLastUnits_exact_wide :
    let segment := run (handle databaseEnv genesis)
      (create databaseEnv genesis .empty).segment events
    segment.getTopBlockIndex = 1 ∧ (segment.getLastUnits 2 1 true).length = 2 ∧
      segment.getLastUnits (2 ^ 32) 1 true = [] := by
  decide +kernel

/-- With the genesis block alone, the coinbase is pushed a second time. -/
theorem not_reopens_genesis : ¬ Reopens databaseEnv genesis
      (afterCalls databaseEnv genesis []) (fun _ => True) := by
  intro reopens
  have time : genesis.timestamp ≤ maxTime := by decide +kernel
  exact (((holds_create time).reopens_iff_above time _).1 reopens).1 (by decide +kernel)

end DatabaseSegment

end DeroGold
