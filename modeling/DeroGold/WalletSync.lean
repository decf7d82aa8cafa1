import DeroGold.Database
import DeroGold.Sync

/-!
How a wallet gets the blocks of the main chain.

`getWalletSyncData` hands the blocks out in portions: from a start height, from the first
block of a time, or after the newest block that the wallet knows. A wallet that asks again
and again with the hashes it has received gets the whole chain, unless its first portion is
the genesis block alone (`syncCompletes_iff`).

The height for a time comes from the segments of the main chain and, where they end, from
the database's index of the first block of each day, which is a parameter here.
-/

namespace DeroGold

open SegmentTree Slice Search List Option Lineage

/-! ### Handing out blocks -/

/-- Height at which blocks of a timestamp begin, if the branch knows it. The exception for
times that are too late is the outer `none`. -/
def Lineage.getBlockHeightForTimestamp (days : DayIndex) : Lineage → Nat → Option (Option Nat)
  | [], _ => some none
  | .database _ :: _, timestamp =>
    if maxTime < timestamp then none else some (days (roundToMidnight timestamp))
  | .memory cache :: parents, timestamp =>
    let timestamps := cache.blockInfos.map (·.timestamp)
    -- too great for this segment
    if timestamps.getLast?.getD 0 < timestamp then some none
    -- taken to be in this segment
    else if timestamp ≤ timestamps.head?.getD 0 then
      some (some (cache.startIndex + lowerBound (fun other => decide (other < timestamp)) timestamps))
    else if parents.isEmpty then some none
    else getBlockHeightForTimestamp days parents timestamp

structure WalletBlockInfo where
  blockHeight : Nat
  blockHash : Hash
  blockTimestamp : Nat
  coinbaseTransaction : Option CachedTransaction
  transactions : List RawTransaction
  deriving DecidableEq

structure TopBlock where
  hash : Hash
  height : Nat
  deriving DecidableEq

/-- A block as the wallet gets it. -/
def RawBlock.walletBlock (skipCoinbaseTransactions : Bool) (raw : RawBlock) : WalletBlockInfo where
  blockHeight := raw.block.getBlockIndex
  blockHash := raw.block.blockHash
  blockTimestamp := raw.block.timestamp
  coinbaseTransaction := if skipCoinbaseTransactions then none else some raw.block.baseTransaction
  transactions := raw.transactions

/-- What a wallet asks for. -/
structure SyncRequest where
  knownBlockHashes : List Hash
  startHeight : Nat
  startTimestamp : Nat
  blockCount : Nat
  skipCoinbaseTransactions : Bool

/-- What it gets: blocks, or the top block when there are none. -/
structure SyncData where
  walletBlocks : List WalletBlockInfo
  topBlock : Option TopBlock
  deriving DecidableEq

def blocksSynchronizingDefaultCount : Nat := 100

/-- Blocks sent in one answer. -/
def SyncRequest.actualBlockCount (request : SyncRequest) : Nat :=
  let actual := min blocksSynchronizingDefaultCount request.blockCount
  if actual = 0 then blocksSynchronizingDefaultCount else actual

namespace Core

/-- The raw blocks of an answer, from an index that is not above the top. -/
def syncBlocks (core : Core) (request : SyncRequest) (startIndex : Nat) : Option (List RawBlock) :=
  let currentIndex := core.getTopBlockIndex
  let blockDifference :=
    if startIndex < currentIndex then currentIndex - startIndex else startIndex - currentIndex
  let endIndex := min request.actualBlockCount (blockDifference + 1) + startIndex
  if request.skipCoinbaseTransactions then
    some (core.mainLineage.getNonEmptyBlocks startIndex request.actualBlockCount)
  else core.mainLineage.getBlocksByHeight startIndex endIndex

/-- The answer from an index on. -/
def syncDataFrom (core : Core) (request : SyncRequest) (currentHash : Hash) (startIndex : Nat) :
    Option SyncData :=
  if core.getTopBlockIndex < startIndex then
    some ⟨[], some ⟨currentHash, core.getTopBlockIndex⟩⟩
  else (core.syncBlocks request startIndex).map fun rawBlocks =>
    let walletBlocks := rawBlocks.map (RawBlock.walletBlock request.skipCoinbaseTransactions)
    ⟨walletBlocks, if walletBlocks = [] then some ⟨currentHash, core.getTopBlockIndex⟩ else none⟩

/-- `none` is the answer `false` that a caught exception leads to. -/
def getWalletSyncData (days : DayIndex) (core : Core) (request : SyncRequest) : Option SyncData := do
  let currentHash ← core.getTopBlockHash
  let found ← core.mainLineage.getBlockHeightForTimestamp days request.startTimestamp
  if request.startTimestamp ≠ 0 ∧ found.isNone then
    some ⟨[], some ⟨currentHash, core.getTopBlockIndex⟩⟩
  else
    let timestampBlockHeight := if request.startTimestamp = 0 then 0 else found.getD 0
    let firstBlockHeight :=
      if request.startHeight = 0 then timestampBlockHeight else request.startHeight
    let lastKnownBlockHashHeight ← core.findBlockchainSupplement request.knownBlockHashes
    -- the block after the last known one, but the genesis block is never skipped
    let startIndex := max
      (if lastKnownBlockHashHeight = 0 then 0 else lastKnownBlockHashHeight + 1) firstBlockHeight
    core.syncDataFrom request currentHash startIndex

end Core

/-! ### One answer -/

/-- Without a start time no time is refused. -/
theorem Lineage.getBlockHeightForTimestamp_zero (days : DayIndex) (lineage : Lineage) :
    ∃ found, lineage.getBlockHeightForTimestamp days 0 = some found := by
  induction lineage with
  | nil => exact ⟨none, rfl⟩
  | cons cache parents ih =>
    cases cache with
    | database cache => exact ⟨_, if_neg (Nat.not_lt_zero _)⟩
    | memory cache =>
      rw [getBlockHeightForTimestamp, if_neg (Nat.not_lt_zero _), if_pos (Nat.zero_le _)]
      exact ⟨_, rfl⟩

theorem SyncRequest.actualBlockCount_pos (request : SyncRequest) : 0 < request.actualBlockCount := by
  unfold actualBlockCount blocksSynchronizingDefaultCount
  dsimp only
  split <;> omega

namespace Core

/-- A request for blocks with coinbase from the genesis block on. -/
def syncRequest (knownBlockHashes : List Hash) (blockCount : Nat) : SyncRequest :=
  ⟨knownBlockHashes, 0, 0, blockCount, false⟩

/-- All blocks of the main chain as a wallet gets them. -/
def walletChain (core : Core) : List WalletBlockInfo :=
  core.mainLineage.raws.map (RawBlock.walletBlock false)

/-- The blocks from an index on, or the top block when there are none. -/
def portion (core : Core) (top : Hash) (count start : Nat) : SyncData :=
  if core.getTopBlockIndex < start then ⟨[], some ⟨top, core.getTopBlockIndex⟩⟩
  else ⟨slice core.walletChain start (start + count), none⟩

variable {core : Core} {top : Hash}

theorem MainWhole.length_walletChain (ok : core.MainWhole) :
    core.walletChain.length = core.getTopBlockIndex + 1 := by
  rw [walletChain, length_map, length_raws, ok.getTopBlockIndex_eq]
  rfl

/-- With coinbase, the blocks of an answer are a part of the chain that is not empty. -/
theorem MainWhole.syncDataFrom_eq (ok : core.MainWhole) {request : SyncRequest}
    (whole_blocks : request.skipCoinbaseTransactions = false) (top : Hash) (start : Nat) :
    core.syncDataFrom request top start =
      some (core.portion top request.actualBlockCount start) := by
  obtain ⟨cache, parents, -, lineage_eq⟩ := ok.exists_leaf
  have positive := request.actualBlockCount_pos
  have length_eq := ok.length_walletChain
  have raws_length : core.mainLineage.raws.length = core.getTopBlockIndex + 1 := by
    rw [← length_eq, walletChain, length_map]
  rw [syncDataFrom, portion]
  split
  · rfl
  · rename_i inside
    have inside : start ≤ core.getTopBlockIndex := Nat.le_of_not_lt inside
    have ends : min request.actualBlockCount ((if start < core.getTopBlockIndex then
        core.getTopBlockIndex - start else start - core.getTopBlockIndex) + 1) + start =
          min (start + request.actualBlockCount) core.mainLineage.raws.length := by
      rw [raws_length]
      split <;> omega
    have blocks : core.syncBlocks request start =
        some (slice core.mainLineage.raws start (start + request.actualBlockCount)) := by
      rw [syncBlocks, whole_blocks, ends, if_neg (by decide), getBlocksByHeight_eq ok.whole
        (by rw [lineage_eq]; exact cons_ne_nil _ _) (by omega), slice_min]
    have nonempty : slice core.walletChain start (start + request.actualBlockCount) ≠ [] := by
      rw [← length_pos_iff, length_slice]
      omega
    rw [blocks, map_some, whole_blocks, map_slice]
    dsimp only
    rw [← walletChain, if_neg nonempty]

/-- An answer depends on the known hashes only through the supplement. -/
theorem MainWhole.getWalletSyncData_eq (ok : core.MainWhole) (days : DayIndex)
    (top_hash : core.getTopBlockHash = some top) {known : List Hash} {k : Nat}
    (supplement : core.findBlockchainSupplement known = some k) (count : Nat) :
    core.getWalletSyncData days (syncRequest known count) =
      some (core.portion top (syncRequest known count).actualBlockCount
        (if k = 0 then 0 else k + 1)) := by
  obtain ⟨found, found_eq⟩ := core.mainLineage.getBlockHeightForTimestamp_zero days
  rw [getWalletSyncData, top_hash, bind_eq_bind, bind_some]
  change (do
    let found ← core.mainLineage.getBlockHeightForTimestamp days 0
    if 0 ≠ 0 ∧ found.isNone = true then some (SyncData.mk [] (some ⟨top, core.getTopBlockIndex⟩))
    else do
      let k ← core.findBlockchainSupplement known
      core.syncDataFrom (syncRequest known count) top (max (if k = 0 then 0 else k + 1) 0)) = _
  rw [found_eq, supplement, bind_eq_bind, bind_some, if_neg (fun refused => refused.1 rfl),
    bind_eq_bind, bind_some, Nat.max_zero, ok.syncDataFrom_eq rfl]

/-! ### A wallet that asks until it is synchronised -/

/-- One call of a wallet, with the hashes it has received, newest first. -/
def syncRound (days : DayIndex) (core : Core) (blockCount : Nat) (received : List WalletBlockInfo) :
    Option SyncData :=
  core.getWalletSyncData days (syncRequest (received.map (·.blockHash)).reverse blockCount)

/-- Blocks received in so many calls. -/
def receivedAfter (days : DayIndex) (core : Core) (blockCount : Nat) :
    Nat → Option (List WalletBlockInfo)
  | 0 => some []
  | calls + 1 =>
    (receivedAfter days core blockCount calls).bind fun received =>
      (core.syncRound days blockCount received).map fun data => received ++ data.walletBlocks

/-- After finitely many calls the wallet has all blocks of the main chain, in order, and
the next answer is the top block. -/
def SyncCompletes (days : DayIndex) (core : Core) (blockCount : Nat) : Prop :=
  ∃ calls top, core.receivedAfter days blockCount calls = some core.walletChain ∧
    core.getTopBlockHash = some top ∧
    core.syncRound days blockCount core.walletChain = some ⟨[], some ⟨top, core.getTopBlockIndex⟩⟩

/-- Blocks in one answer. -/
def portionSize (blockCount : Nat) : Nat := (syncRequest [] blockCount).actualBlockCount

theorem portionSize_eq_one_iff (count : Nat) : portionSize count = 1 ↔ count = 1 := by
  unfold portionSize syncRequest SyncRequest.actualBlockCount blocksSynchronizingDefaultCount
  dsimp only
  split <;> omega

theorem portionSize_pos (blockCount : Nat) : 0 < portionSize blockCount :=
  SyncRequest.actualBlockCount_pos _

variable {days : DayIndex} {blockCount : Nat}

section

variable (ok : core.MainWhole)
include ok

theorem MainWhole.map_blockHash_walletChain :
    core.walletChain.map (·.blockHash) = hashesOf core.mainChain := by
  rw [walletChain, raws, List.map_map, List.map_map, hashesOf]
  refine map_congr_left fun entry mem => ?_
  exact (ok.whole.stored entry mem).hash.symm

variable {m : Nat} {first : WalletBlockInfo}

/-- A wallet that knows the chain up to a block names that block first. -/
theorem MainWhole.findBlockchainSupplement_take (inside : m ≤ core.getTopBlockIndex) :
    core.findBlockchainSupplement ((hashesOf core.mainChain).take (m + 1)).reverse = some m := by
  have length_eq := ok.getTopBlockIndex_eq
  have lt : m < (hashesOf core.mainChain).length := by
    rw [hashesOf, length_map]
    omega
  rw [take_succ_eq_append_getElem lt, reverse_append, reverse_singleton,
    singleton_append, findBlockchainSupplement_eq _ (cons_ne_nil _ _),
    findSome?_cons, findBlock_of_getElem? ok.whole ok.distinct
      (getElem?_eq_getElem lt)]

/-- The answer to a wallet that has the first blocks of the chain. One block counts as
none: its index is zero. -/
theorem MainWhole.syncRound_take (top_hash : core.getTopBlockHash = some top)
    (le : m ≤ core.getTopBlockIndex + 1) :
    core.syncRound days blockCount (core.walletChain.take m) =
      some (core.portion top (portionSize blockCount) (if m ≤ 1 then 0 else m)) := by
  have known : ((core.walletChain.take m).map (·.blockHash)).reverse =
      ((hashesOf core.mainChain).take m).reverse := by
    rw [map_take, ok.map_blockHash_walletChain]
  rw [syncRound, known]
  cases m with
  | zero => exact ok.getWalletSyncData_eq days top_hash (k := 0) rfl blockCount
  | succ m =>
    rw [ok.getWalletSyncData_eq days top_hash (ok.findBlockchainSupplement_take (by omega))]
    have start : (if m = 0 then 0 else m + 1) = if m + 1 ≤ 1 then 0 else m + 1 := by
      split <;> split <;> omega
    rw [start]
    rfl

/-- With portions of two blocks or more, and two blocks or more in the chain, every call
brings the next portion. -/
theorem MainWhole.receivedAfter_eq (size : 2 ≤ portionSize blockCount)
    (blocks : core.getTopBlockIndex ≠ 0) (calls : Nat) : core.receivedAfter days blockCount calls =
      some (core.walletChain.take (calls * portionSize blockCount)) := by
  obtain ⟨top, top_hash, -⟩ := ok.getTopBlockHash_eq
  have length_eq := ok.length_walletChain
  induction calls with
  | zero => rw [receivedAfter, zero_mul, take_zero]
  | succ calls ih =>
    rw [receivedAfter, ih, bind_some, Nat.succ_mul]
    generalize reached : calls * portionSize blockCount = m
    have start : ∀ k, k = min m (core.getTopBlockIndex + 1) → (if k ≤ 1 then 0 else k) = k := by
      intro k k_eq
      split
      · rcases Nat.eq_zero_or_pos calls with rfl | later
        · omega
        · have grown := Nat.mul_le_mul later size
          omega
      · rfl
    rw [take_eq_take_min, length_eq,
      ok.syncRound_take top_hash (Nat.min_le_right _ _), start _ rfl, map_some, portion]
    split
    · rename_i done
      rw [append_nil, take_of_length_le (by omega), take_of_length_le (by omega)]
    · rename_i more
      have m_eq : min m (core.getTopBlockIndex + 1) = m := by omega
      rw [m_eq, ← slice_zero, slice_append_slice _ (Nat.zero_le m) (Nat.le_add_right _ _),
        slice_zero]

theorem MainWhole.syncCompletes (size : 2 ≤ portionSize blockCount)
    (blocks : core.getTopBlockIndex ≠ 0) : core.SyncCompletes days blockCount := by
  obtain ⟨top, top_hash, -⟩ := ok.getTopBlockHash_eq
  have length_eq := ok.length_walletChain
  have all : core.walletChain.take (core.getTopBlockIndex + 1) = core.walletChain :=
    take_of_length_le (le_of_eq length_eq)
  refine ⟨core.getTopBlockIndex + 1, top, ?_, top_hash, ?_⟩
  · rw [ok.receivedAfter_eq size blocks, take_of_length_le]
    rw [length_eq]
    exact Nat.le_mul_of_pos_right _ (portionSize_pos blockCount)
  · have answer : core.syncRound days blockCount
        (core.walletChain.take (core.getTopBlockIndex + 1)) = _ :=
      ok.syncRound_take top_hash (le_refl _)
    rw [all, if_neg (by omega), portion, if_pos (Nat.lt_succ_self _)] at answer
    exact answer

/-- A wallet that has received the genesis block only, however often, is sent the same
portion as one that has received nothing. -/
theorem MainWhole.syncRound_replicate (genesis : core.walletChain[0]? = some first) (calls : Nat) :
    core.syncRound days blockCount (List.replicate calls first) =
      some ⟨core.walletChain.take (portionSize blockCount), none⟩ := by
  obtain ⟨top, top_hash, -⟩ := ok.getTopBlockHash_eq
  have at_zero : (hashesOf core.mainChain)[0]? = some first.blockHash := by
    rw [← ok.map_blockHash_walletChain, getElem?_map, genesis, map_some]
  have supplement : core.findBlockchainSupplement
      ((replicate calls first).map (·.blockHash)).reverse = some 0 := by
    cases calls with
    | zero => rfl
    | succ calls =>
      rw [map_replicate, reverse_replicate, replicate_succ,
        findBlockchainSupplement_eq _ (cons_ne_nil _ _), findSome?_cons,
        findBlock_of_getElem? ok.whole ok.distinct at_zero]
  rw [syncRound, ok.getWalletSyncData_eq days top_hash supplement, if_pos rfl, portion,
    if_neg (Nat.not_lt_zero _), zero_add, slice_zero]
  rfl

/-- When that portion is the genesis block alone, nothing else ever comes. -/
theorem MainWhole.receivedAfter_replicate
    (alone : core.walletChain.take (portionSize blockCount) = [first])
    (genesis : core.walletChain[0]? = some first) (calls : Nat) :
    core.receivedAfter days blockCount calls = some (List.replicate calls first) := by
  induction calls with
  | zero => rfl
  | succ calls ih =>
    rw [receivedAfter, ih, bind_some, ok.syncRound_replicate genesis, alone,
      map_some, ← replicate_one, replicate_append_replicate]

theorem MainWhole.not_syncCompletes (alone : portionSize blockCount = 1 ∨ core.getTopBlockIndex = 0) :
    ¬ core.SyncCompletes days blockCount := by
  rintro ⟨calls, top, received, -, answer⟩
  have length_eq := ok.length_walletChain
  have one_le := portionSize_pos blockCount
  obtain ⟨first, rest, chain_eq⟩ := exists_cons_of_length_eq_add_one length_eq
  have portion_eq : core.walletChain.take (portionSize blockCount) = [first] := by
    rcases alone with one | none
    · rw [one, chain_eq]
      rfl
    · rw [take_of_length_le (by omega), chain_eq, length_eq_zero_iff.1
        (show rest.length = 0 by rw [chain_eq, length_cons] at length_eq; omega)]
  have genesis : core.walletChain[0]? = some first := by
    rw [chain_eq]
    rfl
  rw [ok.receivedAfter_replicate portion_eq genesis] at received
  rw [← some.inj received, ok.syncRound_replicate genesis, portion_eq] at answer
  cases answer

end

/-- The wallet gets the whole chain unless its first portion is the genesis block alone,
because it asks for one block at a time or because there is no other block: the index of
the newest known block is then zero, as if no block were known. -/
theorem syncCompletes_iff (days : DayIndex) (core : Core) (blockCount : Nat) (ok : core.MainWhole) :
    core.SyncCompletes days blockCount ↔ blockCount ≠ 1 ∧ core.getTopBlockIndex ≠ 0 := by
  have one_le := portionSize_pos blockCount
  rw [Ne, ← portionSize_eq_one_iff]
  constructor
  · intro completes
    exact ⟨fun one => ok.not_syncCompletes (.inl one) completes,
      fun zero => ok.not_syncCompletes (.inr zero) completes⟩
  · rintro ⟨more, blocks⟩
    exact ok.syncCompletes (by omega) blocks

theorem syncCompletes_iff_sample : Sample.ours.SyncCompletes (fun _ => none) 2 :=
  (syncCompletes_iff _ Sample.ours 2 (mainWhole_afterCalls (by decide +kernel))).2
    ⟨by decide, by decide +kernel⟩

/-- Asking for one block at a time does not get past the genesis block. -/
theorem not_syncCompletes_single :
    Sample.ours.MainWhole ∧ ¬ Sample.ours.SyncCompletes (fun _ => none) 1 :=
  have ok : Sample.ours.MainWhole := mainWhole_afterCalls (by decide +kernel)
  ⟨ok, ok.not_syncCompletes (.inl rfl)⟩

end Core

end DeroGold
