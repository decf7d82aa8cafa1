import DeroGold.Types
import Mathlib.Data.Nat.Find

/-!
Where a wallet begins to scan, and the estimates that compare heights with times.

* `earliest_iff`: the start that is taken for all subwallets is the earliest one only if
  they are all given by a height or all by a time.
* `conservative_iff`: where the estimates are monotone and err on the safe side.
-/

namespace DeroGold.Wallet

open Parameters

def genesisBlockTimestamp : Nat := 1545261161

/-- The clock `now` is `getCurrentTimestampAdjusted()`. -/
def scanHeightToTimestamp (now scanHeight : Nat) : Nat :=
  if scanHeight = 0 then 0
  else
    let v3 := if difficultyTargetV3Height ≤ scanHeight then
        uint64 ((scanHeight - difficultyTargetV3Height) * difficultyTargetV3) else 0
    let v2 := if difficultyTargetV2Height ≤ scanHeight then
        (min scanHeight (difficultyTargetV3Height - 1) - difficultyTargetV2Height) *
          difficultyTargetV2 else 0
    let v1 := min scanHeight (difficultyTargetV2Height - 1) * difficultyTarget
    let timestamp := uint64 (genesisBlockTimestamp + uint64 (uint64 (v3 + v2) + v1))
    if now ≤ timestamp then now else timestamp

def timestampToScanHeight (timestamp : Nat) : Nat :=
  if timestamp = 0 then 0
  else if timestamp ≤ genesisBlockTimestamp then 0
  else
    let launchTimestampDelta := timestamp - genesisBlockTimestamp
    -- the difference is unsigned, so the maximum with zero does nothing
    max 0 (subUInt64 (launchTimestampDelta / difficultyTarget) 10000)

/-- Start of a subwallet; zero is not set. -/
structure SyncStart where
  syncStartHeight : Nat
  syncStartTimestamp : Nat
  deriving DecidableEq

/-- The smallest of the values that the subwallets have. -/
def minElement (value : SyncStart → Nat) (subWallets : List SyncStart) : Nat :=
  (subWallets.map value).min?.getD 0

def getMinInitialSyncStart (now : Nat) (subWallets : List SyncStart) : SyncStart :=
  let minTimestamp := minElement (·.syncStartTimestamp) subWallets
  let minHeight := minElement (·.syncStartHeight) subWallets
  if minHeight = 0 ∨ minTimestamp = 0 then ⟨minHeight, minTimestamp⟩
  else if scanHeightToTimestamp now minHeight < minTimestamp then ⟨minHeight, 0⟩
  else ⟨0, minTimestamp⟩

/-! ### The earliest start -/

namespace SyncStart

/-- Exactly one of the two is set. -/
def Single (start : SyncStart) : Prop := start.syncStartHeight = 0 ↔ start.syncStartTimestamp ≠ 0

instance : DecidablePred Single := fun _ => inferInstanceAs (Decidable (_ ↔ _))

def NotAfter (now : Nat) (start other : SyncStart) : Prop :=
  if start.syncStartTimestamp = 0 then
    if other.syncStartTimestamp = 0 then start.syncStartHeight ≤ other.syncStartHeight
    else scanHeightToTimestamp now start.syncStartHeight ≤ other.syncStartTimestamp
  else if other.syncStartTimestamp = 0 then
    start.syncStartTimestamp ≤ scanHeightToTimestamp now other.syncStartHeight
  else start.syncStartTimestamp ≤ other.syncStartTimestamp

structure Earliest (now : Nat) (subWallets : List SyncStart) (start : SyncStart) : Prop where
  single : start.Single
  mem : start ∈ subWallets
  first : ∀ other ∈ subWallets, start.NotAfter now other

end SyncStart

theorem exists_minElement (value : SyncStart → Nat) {subWallets : List SyncStart}
    (nonempty : subWallets ≠ []) : ∃ start ∈ subWallets,
      minElement value subWallets = value start ∧ ∀ other ∈ subWallets, value start ≤ value other := by
  cases found : (subWallets.map value).min? with
  | none => simp [nonempty] at found
  | some least =>
    obtain ⟨mem, below⟩ := List.min?_eq_some_iff.1 found
    obtain ⟨start, held, rfl⟩ := List.mem_map.1 mem
    refine ⟨start, held, by rw [minElement, found]; rfl, fun other listed => ?_⟩
    exact below _ (List.mem_map_of_mem listed)

/-- Starts of both kinds: a time is not set where a height is, so both minima are zero. -/
theorem earliest_iff (now : Nat) {subWallets : List SyncStart} (nonempty : subWallets ≠ [])
    (single : ∀ start ∈ subWallets, start.Single) :
    SyncStart.Earliest now subWallets (getMinInitialSyncStart now subWallets) ↔
      (∀ start ∈ subWallets, start.syncStartTimestamp = 0) ∨
        ∀ start ∈ subWallets, start.syncStartHeight = 0 := by
  obtain ⟨low, low_mem, minHeight, lowest⟩ := exists_minElement (·.syncStartHeight) nonempty
  obtain ⟨old, old_mem, minTimestamp, oldest⟩ := exists_minElement (·.syncStartTimestamp) nonempty
  have result : low.syncStartHeight = 0 ∨ old.syncStartTimestamp = 0 →
      getMinInitialSyncStart now subWallets = ⟨low.syncStartHeight, old.syncStartTimestamp⟩ := by
    intro unset
    simp only [getMinInitialSyncStart, minHeight, minTimestamp, unset, if_true]
  constructor
  · intro earliest
    by_contra mixed
    simp only [not_or, not_forall] at mixed
    obtain ⟨⟨timed, timed_mem, timed_set⟩, high, high_mem, high_set⟩ := mixed
    have noHeight : low.syncStartHeight = 0 :=
      Nat.le_zero.1 ((single timed timed_mem).2 timed_set ▸ lowest timed timed_mem)
    have noTime : old.syncStartTimestamp = 0 := by
      have unset := not_not.1 (mt (single high high_mem).2 high_set)
      exact Nat.le_zero.1 (unset ▸ oldest high high_mem)
    rw [result (.inl noHeight), noHeight, noTime] at earliest
    exact absurd earliest.single (by decide)
  · rintro (heights | times)
    · have same : getMinInitialSyncStart now subWallets = low := by
        rw [result (.inr (heights old old_mem)), heights old old_mem, ← heights low low_mem]
      rw [same]
      refine ⟨single low low_mem, low_mem, fun other mem => ?_⟩
      simpa [SyncStart.NotAfter, heights low low_mem, heights other mem] using lowest other mem
    · have same : getMinInitialSyncStart now subWallets = old := by
        rw [result (.inl (times low low_mem)), times low low_mem, ← times old old_mem]
      rw [same]
      refine ⟨single old old_mem, old_mem, fun other mem => ?_⟩
      have set := (single old old_mem).1 (times old old_mem)
      have otherSet := (single other mem).1 (times other mem)
      simpa [SyncStart.NotAfter, set, otherSet] using oldest other mem

/-- Two heights and no time. -/
theorem earliest_iff_heights : SyncStart.Earliest 1700000000 [⟨500, 0⟩, ⟨400, 0⟩]
    (getMinInitialSyncStart 1700000000 [⟨500, 0⟩, ⟨400, 0⟩]) :=
  (earliest_iff 1700000000 (by simp) (by decide)).2 (.inl (by decide))

/-- A subwallet imported at height 400000 and a later one just created: the scan begins with
the genesis block. -/
theorem not_earliest_mixed :
    (∀ start ∈ [⟨400000, 0⟩, ⟨0, 1650000000⟩], SyncStart.Single start) ∧
      getMinInitialSyncStart 1700000000 [⟨400000, 0⟩, ⟨0, 1650000000⟩] = ⟨0, 0⟩ ∧
      ¬ SyncStart.Earliest 1700000000 [⟨400000, 0⟩, ⟨0, 1650000000⟩] ⟨0, 0⟩ :=
  ⟨by decide, by decide, fun earliest => absurd earliest.single (by decide)⟩

/-! ### Estimates -/

/-- The time of a height without a limit on its size. -/
def estimatedTime (height : Nat) : Nat :=
  genesisBlockTimestamp + difficultyTarget * min height (difficultyTargetV2Height - 1) +
    difficultyTargetV2 *
      (min height (difficultyTargetV3Height - 1) - difficultyTargetV2Height) +
    difficultyTargetV3 * (height - difficultyTargetV3Height)

theorem estimatedTime_eq (height : Nat) : estimatedTime height = 1545261161 +
    10 * min height 699999 + 20 * (min height 2324999 - 700000) + 300 * (height - 2325000) := rfl

theorem estimatedTime_step (height : Nat) : estimatedTime height ≤ estimatedTime (height + 1) ∧
    estimatedTime (height + 1) ≤ estimatedTime height + 300 := by
  simp only [estimatedTime_eq]
  omega

theorem estimatedTime_mono : Monotone estimatedTime :=
  monotone_nat_of_le_succ fun height => (estimatedTime_step height).1

theorem scanHeightToTimestamp_eq (now : Nat) {height : Nat} (positive : height ≠ 0) :
    scanHeightToTimestamp now height = min now (estimatedTime height % 2 ^ 64) := by
  rw [estimatedTime_eq]
  unfold scanHeightToTimestamp uint64 genesisBlockTimestamp difficultyTarget difficultyTargetV2
    difficultyTargetV3 difficultyTargetV2Height difficultyTargetV3Height
  dsimp only
  repeat' split
  all_goals omega

theorem timestampToScanHeight_eq (timestamp : Nat) :
    timestampToScanHeight timestamp = if timestamp ≤ 1545261161 then 0
      else ((timestamp - 1545261161) / 10 + (2 ^ 64 - 10000)) % 2 ^ 64 := by
  unfold timestampToScanHeight subUInt64 uint64 difficultyTarget genesisBlockTimestamp
  dsimp only
  repeat' split
  all_goals omega

/-- In the first day after the launch the estimated height wraps around. -/
def JustLaunched (timestamp : Nat) : Prop :=
  genesisBlockTimestamp < timestamp ∧ timestamp < genesisBlockTimestamp + 10000 * difficultyTarget

theorem timestampToScanHeight_le_iff {first second : Nat} (ordered : first ≤ second)
    (bound : second < 2 ^ 64) : timestampToScanHeight first ≤ timestampToScanHeight second ↔
      (JustLaunched first → JustLaunched second) := by
  simp only [timestampToScanHeight_eq, JustLaunched, difficultyTarget, genesisBlockTimestamp]
  split_ifs <;> omega

theorem timestampToScanHeight_estimate_iff {now height : Nat} (clock : now < 2 ^ 64)
    (passed : estimatedTime height < now) :
    timestampToScanHeight (scanHeightToTimestamp now height) ≤ height ↔
      height = 0 ∨ 10000 ≤ height ∧ height ≤ 710001 := by
  by_cases zero : height = 0
  · simp [zero, scanHeightToTimestamp, timestampToScanHeight]
  · have estimate := estimatedTime_eq height
    rw [scanHeightToTimestamp_eq now zero, Nat.mod_eq_of_lt (by omega), min_eq_right passed.le,
      timestampToScanHeight_eq, if_neg (by omega)]
    omega

/-- The only drops are where the estimate overflows to a time before the clock. -/
theorem scanHeightToTimestamp_mono_iff (now top : Nat) :
    (∀ low high, low ≤ high → high ≤ top →
        scanHeightToTimestamp now low ≤ scanHeightToTimestamp now high) ↔
      ∀ height ≤ top, 2 ^ 64 ≤ estimatedTime height → now ≤ estimatedTime height % 2 ^ 64 := by
  constructor
  · intro mono height inside overflows
    by_contra early
    -- the first height whose estimate overflows as often as this one's
    have reached : ∃ first, estimatedTime height / 2 ^ 64 * 2 ^ 64 ≤ estimatedTime first :=
      ⟨height, Nat.div_mul_le_self ..⟩
    have past := Nat.find_spec reached
    have first_le := Nat.find_min' reached (Nat.div_mul_le_self ..)
    have least := fun low lt => Nat.find_min reached (m := low) lt
    generalize Nat.find reached = first at past first_le least
    have start := estimatedTime_eq 1
    have late : 1 < first := by
      by_contra low
      have := estimatedTime_mono (not_lt.1 low)
      omega
    obtain ⟨before, rfl⟩ : ∃ before, first = before + 1 := ⟨first - 1, by omega⟩
    have below := least before (Nat.lt_succ_self before)
    have step := estimatedTime_step before
    have grows := estimatedTime_mono first_le
    have drop := mono before (before + 1) (Nat.le_succ before) (first_le.trans inside)
    rw [scanHeightToTimestamp_eq now (by omega), scanHeightToTimestamp_eq now (by omega)] at drop
    omega
  · intro late low high ordered inside
    by_cases zero : low = 0
    · simp [zero, scanHeightToTimestamp]
    · rw [scanHeightToTimestamp_eq now zero, scanHeightToTimestamp_eq now (by omega)]
      have grows := estimatedTime_mono ordered
      have late := late high inside
      omega

/-- The estimated height falls once the first day is over, it is above the height after the
first change of the target, and enormous heights are estimated to be old. -/
theorem conservative_iff {now : Nat} (clock : now < 2 ^ 64) :
    (∀ first second, first ≤ second → second < 2 ^ 64 →
      (timestampToScanHeight first ≤ timestampToScanHeight second ↔
        (JustLaunched first → JustLaunched second))) ∧
      (∀ height, estimatedTime height < now →
        (timestampToScanHeight (scanHeightToTimestamp now height) ≤ height ↔
          height = 0 ∨ 10000 ≤ height ∧ height ≤ 710001)) ∧
      ∀ top, (∀ low high, low ≤ high → high ≤ top →
          scanHeightToTimestamp now low ≤ scanHeightToTimestamp now high) ↔
        ∀ height ≤ top, 2 ^ 64 ≤ estimatedTime height → now ≤ estimatedTime height % 2 ^ 64 :=
  ⟨fun _ _ => timestampToScanHeight_le_iff, fun _ => timestampToScanHeight_estimate_iff clock,
    scanHeightToTimestamp_mono_iff now⟩

/-- A height before the change of the target, with a clock of today. -/
theorem conservative_iff_before :
    timestampToScanHeight (scanHeightToTimestamp 1700000000 600000) ≤ 600000 :=
  ((conservative_iff (show 1700000000 < 2 ^ 64 by decide)).2.1 600000 (by decide)).2 (by decide)

theorem not_conservative :
    timestampToScanHeight 1545361161 < timestampToScanHeight 1545261162 ∧
      estimatedTime 800000 < 1700000000 ∧
      800000 < timestampToScanHeight (scanHeightToTimestamp 1700000000 800000) ∧
      scanHeightToTimestamp 1700000000 61489146909407635 <
        scanHeightToTimestamp 1700000000 61489146909407634 := by
  decide

end DeroGold.Wallet
