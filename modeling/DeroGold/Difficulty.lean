import Mathlib.Algebra.BigOperators.Intervals
import Mathlib.Algebra.Order.BigOperators.Group.Finset
import Mathlib.Algebra.Order.Ring.Abs
import DeroGold.Currency
import DeroGold.Lib.Signed

/-!
The next difficulty in the arithmetic of the machine (`Difficulty.cpp`).

`nextDifficulty` of `Currency` says which number comes out when signed words wrap around. The
language does not define what comes out then, so the function is written once more with every signed
operation checked (`nextDifficultyChecked`), and compared with the rule in exact integers (`lwma`).

* `nextDifficultyChecked_eq_ok`: it passes exactly where no difference of timestamps overflows and
  the weighted solve time is not zero, and the result is that of the rule.
* `nextDifficulty_of_checked`: where it passes, wrapping around makes no difference.
* `nextDifficulty_damped_iff`: when the difficulty is well defined and damped.
-/

namespace DeroGold

open Signed Checked List Parameters

/-! ### The source, with checked operations -/

/-- The solve times of the last three blocks are summed up on the side. -/
def addLastThree (i : Nat) (sum3ST ST : Int) : Except Fault Int :=
  if difficultyWindow - 3 < i then add 63 sum3ST ST else .ok sum3ST

/-- One turn of the loop over the window. -/
def addSolveTime (T : Int) (timestamps : List Nat) (sums : Int × Int) (i : Nat) :
    Except Fault (Int × Int) := do
  let ST ← sub 63 (int64 (timestamps[i]?.getD 0)) (int64 (timestamps[i - 1]?.getD 0))
  let lowest ← mul 63 (-4) T
  let highest ← mul 63 6 T
  let ST := max lowest (min ST highest)
  let weighted ← mul 63 ST i
  let L ← add 63 sums.1 weighted
  let sum3ST ← addLastThree i sums.2 ST
  return (L, sum3ST)

/-- `percent` per cent of the difficulty of the previous block. -/
def percentOf (prevD percent : Int) : Except Fault Int := do
  let scaled ← mul 63 prevD percent
  div 63 scaled 100

/-- The difficulty does not fall while blocks come much too fast. -/
def raiseWhenFast (T prevD sum3ST nextD : Int) : Except Fault Int := do
  let short ← mul 63 8 T
  let short ← div 63 short 10
  if sum3ST < short then
    let raised ← percentOf prevD 108
    return max nextD raised
  else return nextD

/-- The work of the window over its weighted solve time `L`. -/
def workOverTime (T work L : Int) : Except Fault Int := do
  let work ← mul 63 work T
  let work ← mul 63 work (difficultyWindow + 1)
  let work ← mul 63 work 99
  let time ← mul 63 (100 * 2) L
  div 63 work time

/-- `nextDifficulty`, stopping where a signed operation overflows or divides by zero. -/
def nextDifficultyChecked (timestamps cumulativeDifficulties : List Nat) (blockHeight : Nat) :
    Except Fault Nat :=
  let T := difficultyTargetAt blockHeight
  let N := difficultyWindow
  let cumulative := fun i => cumulativeDifficulties[i]?.getD 0
  if timestamps.length < N + 1 then .ok 10000
  else do
    let (L, sum3ST) ← (List.range' 1 N).foldlM (addSolveTime T timestamps) (0, 0)
    let nextD ← workOverTime T (int64 (subUInt64 (cumulative N) (cumulative 0))) L
    let prevD := int64 (subUInt64 (cumulative N) (cumulative (N - 1)))
    let lowest ← percentOf prevD 67
    let highest ← percentOf prevD 150
    let nextD ← raiseWhenFast T prevD sum3ST (max lowest (min nextD highest))
    return uint64OfInt nextD

/-! ### The rule in exact integers -/

/-- The time between two consecutive blocks of the window. Timestamps are read as signed words. -/
def timeBetween (timestamps : List Nat) (i : Nat) : Int :=
  int64 (timestamps[i + 1]?.getD 0) - int64 (timestamps[i]?.getD 0)

/-- The time between two blocks, held between `-4T` and `6T`. -/
def heldTime (T : Int) (timestamps : List Nat) (i : Nat) : Int :=
  max (-4 * T) (min (timeBetween timestamps i) (6 * T))

/-- Solve times weighted linearly, the latest most, over the first `n` pairs of blocks. -/
def weightedTime (T : Int) (timestamps : List Nat) (n : Nat) : Int :=
  ∑ i ∈ Finset.range n, ((i : Int) + 1) * heldTime T timestamps i

def lastThreeTimes (T : Int) (timestamps : List Nat) (n : Nat) : Int :=
  ∑ i ∈ Finset.Ico 57 n, heldTime T timestamps i

/-- The difficulty the rule means: work over weighted time, between 67% and 150% of the previous
difficulty, and at least 108% of it after three fast blocks. -/
def lwma (T work previous weighted lastThree : Int) : Int :=
  let next := max (previous * 67 / 100)
    (min ((work * T * 61 * 99).tdiv (200 * weighted)) (previous * 150 / 100))
  if lastThree < 8 * T / 10 then max next (previous * 108 / 100) else next

/-! ### The checked function follows the rule -/

theorem difficultyTargetAt_mem (height : Nat) :
    0 < difficultyTargetAt height ∧ difficultyTargetAt height ≤ 300 := by
  unfold difficultyTargetAt
  split
  · decide
  · split <;> decide

section Loop

variable {T : Int} (inside : 0 < T ∧ T ≤ 300) {timestamps : List Nat}

include inside

theorem abs_heldTime_le (times : List Nat) (i : Nat) : |heldTime T times i| ≤ 1800 := by
  rw [abs_le]
  constructor
  · refine le_trans ?_ (le_max_left _ _)
    omega
  · apply max_le
    · omega
    · exact (min_le_right _ _).trans (by omega)

theorem abs_weightedTime_le (times : List Nat) {n : Nat} (short : n ≤ 60) :
    |weightedTime T times n| ≤ 6480000 := by
  have each : ∀ i ∈ Finset.range n, |((i : Int) + 1) * heldTime T times i| ≤ 108000 := by
    intro i mem
    rw [Finset.mem_range] at mem
    rw [abs_mul, abs_of_nonneg (by omega)]
    calc ((i : Int) + 1) * |heldTime T times i| ≤ 60 * 1800 := by
          apply mul_le_mul _ (abs_heldTime_le inside times i) (abs_nonneg _) (by decide)
          omega
      _ = 108000 := by decide
  calc |weightedTime T times n|
      ≤ ∑ i ∈ Finset.range n, |((i : Int) + 1) * heldTime T times i| :=
        Finset.abs_sum_le_sum_abs _ _
    _ ≤ (Finset.range n).card • 108000 := Finset.sum_le_card_nsmul _ _ _ each
    _ ≤ 6480000 := by simp; omega

theorem abs_lastThreeTimes_le (times : List Nat) {n : Nat} (short : n ≤ 60) :
    |lastThreeTimes T times n| ≤ 5400 :=
  calc |lastThreeTimes T times n|
      ≤ ∑ i ∈ Finset.Ico 57 n, |heldTime T times i| := Finset.abs_sum_le_sum_abs _ _
    _ ≤ (Finset.Ico 57 n).card • 1800 :=
        Finset.sum_le_card_nsmul _ _ _ fun i _ => abs_heldTime_le inside times i
    _ ≤ 5400 := by simp; omega

end Loop

theorem weightedTime_succ (T : Int) (times : List Nat) (n : Nat) : weightedTime T times (n + 1) =
      weightedTime T times n + heldTime T times n * (n + 1 : Nat) := by
  rw [weightedTime, Finset.sum_range_succ, weightedTime, mul_comm (heldTime _ _ _)]
  push_cast
  rfl

theorem lastThreeTimes_succ (T : Int) (times : List Nat) (n : Nat) :
    lastThreeTimes T times (n + 1) =
      if 57 < n + 1 then lastThreeTimes T times n + heldTime T times n
      else lastThreeTimes T times n := by
  unfold lastThreeTimes
  split
  · exact Finset.sum_Ico_succ_top (by omega) _
  · rw [Finset.Ico_eq_empty (by omega), Finset.Ico_eq_empty (by omega)]

variable {n : Nat} {sums : Int × Int} {prevD work z previous : Int}

/-- One turn stops only where the timestamps are too far apart. -/
theorem addSolveTime_eq_ok {T : Int} (inside : 0 < T ∧ T ≤ 300) {times : List Nat}
    (short : n < 60) :
    addSolveTime T times (weightedTime T times n, lastThreeTimes T times n) (n + 1) =
        .ok sums ↔ Fits 63 (timeBetween times n) ∧
        sums = (weightedTime T times (n + 1), lastThreeTimes T times (n + 1)) := by
  have held := abs_heldTime_le inside times n
  have weightedNext : |weightedTime T times (n + 1)| ≤ 6480000 :=
    abs_weightedTime_le inside times short
  have lastNext : |lastThreeTimes T times (n + 1)| ≤ 5400 :=
    abs_lastThreeTimes_le inside times short
  have weightedNow := abs_weightedTime_le inside times short.le
  rw [abs_le] at held weightedNext lastNext weightedNow
  have product : heldTime T times n * (n + 1 : Nat) =
      weightedTime T times (n + 1) - weightedTime T times n := by
    rw [weightedTime_succ]
    omega
  have lowest : mul 63 (-4) T = .ok (-4 * T) := fitted_of_fits ⟨by omega, by omega⟩
  have highest : mul 63 6 T = .ok (6 * T) := fitted_of_fits ⟨by omega, by omega⟩
  have scaled : mul 63 (heldTime T times n) (n + 1 : Nat) =
      .ok (heldTime T times n * (n + 1 : Nat)) :=
    fitted_of_fits (product ▸ ⟨by omega, by omega⟩)
  have summed : add 63 (weightedTime T times n) (heldTime T times n * (n + 1 : Nat)) =
      .ok (weightedTime T times (n + 1)) := by
    rw [weightedTime_succ] at weightedNext ⊢
    exact fitted_of_fits ⟨by omega, by omega⟩
  have three : addLastThree (n + 1) (lastThreeTimes T times n) (heldTime T times n) =
      .ok (lastThreeTimes T times (n + 1)) := by
    rw [lastThreeTimes_succ] at lastNext ⊢
    rw [addLastThree, show difficultyWindow - 3 = 57 from rfl]
    by_cases late : 57 < n + 1
    · rw [if_pos late] at lastNext ⊢
      rw [if_pos late]
      exact fitted_of_fits ⟨by omega, by omega⟩
    · rw [if_neg late, if_neg late]
  unfold addSolveTime
  simp only [of_bind, sub_eq_ok, lowest, highest, Except.ok.injEq, Nat.add_sub_cancel]
  constructor
  · rintro ⟨_, ⟨fits, rfl⟩, _, rfl, _, rfl, _, first, _, second, _, third, result⟩
    refine ⟨fits, ?_⟩
    cases scaled.symm.trans first
    cases summed.symm.trans second
    cases three.symm.trans third
    cases result
    rfl
  · rintro ⟨fits, rfl⟩
    exact ⟨_, ⟨fits, rfl⟩, _, rfl, _, rfl, _, scaled, _, summed, _, three, rfl⟩

/-- The loop stops at the first two timestamps that are too far apart. -/
theorem foldlM_addSolveTime_eq_ok {T : Int} (inside : 0 < T ∧ T ≤ 300) {times : List Nat}
    (short : n ≤ 60) : (List.range' 1 n).foldlM (addSolveTime T times) (0, 0) = .ok sums ↔
      (∀ i < n, Fits 63 (timeBetween times i)) ∧
        sums = (weightedTime T times n, lastThreeTimes T times n) := by
  induction n generalizing sums with
  | zero => simp [weightedTime, lastThreeTimes, pure, Except.pure, eq_comm]
  | succ n ih =>
    rw [range'_1_concat, foldlM_append, of_bind, Nat.add_comm 1 n]
    simp only [ih (by omega), foldlM_cons, foldlM_nil, bind_pure]
    constructor
    · rintro ⟨_, ⟨before, rfl⟩, last⟩
      rw [addSolveTime_eq_ok inside short] at last
      refine ⟨fun i lt => ?_, last.2⟩
      rcases Nat.lt_succ_iff_lt_or_eq.1 lt with lt | rfl
      · exact before i lt
      · exact last.1
    · rintro ⟨all, rfl⟩
      refine ⟨_, ⟨fun i lt => all i (by omega), rfl⟩, ?_⟩
      exact (addSolveTime_eq_ok inside short).2 ⟨all n (by omega), rfl⟩

theorem percentOf_eq {percent : Int} (nonneg : 0 ≤ prevD * percent)
    (small : prevD * percent < 2 ^ 63) : percentOf prevD percent = .ok (prevD * percent / 100) := by
  have product : mul 63 prevD percent = .ok (prevD * percent) :=
    fitted_of_fits (Fits.of_nonneg nonneg small)
  have fits : Fits 63 ((prevD * percent).tdiv 100) := Fits.tdiv (by rwa [abs_of_nonneg nonneg]) 100
  refine of_bind.2 ⟨_, product, div_eq_ok.2 ⟨by decide, fits, ?_⟩⟩
  exact Int.tdiv_eq_ediv_of_nonneg nonneg

theorem raiseWhenFast_eq {T sum3ST nextD : Int} (inside : 0 < T ∧ T ≤ 300)
    (nonneg : 0 ≤ prevD) (small : prevD * 150 < 2 ^ 63) : raiseWhenFast T prevD sum3ST nextD =
      .ok (if sum3ST < 8 * T / 10 then max nextD (prevD * 108 / 100) else nextD) := by
  have scaled : mul 63 8 T = .ok (8 * T) := fitted_of_fits ⟨by omega, by omega⟩
  have divided : div 63 (8 * T) 10 = .ok (8 * T / 10) := by
    refine div_eq_ok.2 ⟨by decide, ?_, Int.tdiv_eq_ediv_of_nonneg (by omega)⟩
    exact Fits.tdiv (by rw [abs_of_nonneg] <;> omega) 10
  refine of_bind.2 ⟨_, scaled, of_bind.2 ⟨_, divided, ?_⟩⟩
  split
  · exact of_bind.2 ⟨_, percentOf_eq (by omega) (by omega), rfl⟩
  · rfl

/-- Of work and time that are in range, only a time of zero is in the way. -/
theorem workOverTime_eq_ok {T L x : Int} (nonneg : 0 ≤ work) (inside : 0 < T ∧ T ≤ 300)
    (small : work * (T * 61 * 99) < 2 ^ 63) (short : |L| ≤ 6480000) :
    workOverTime T work L = .ok x ↔ L ≠ 0 ∧ x = (work * T * 61 * 99).tdiv (200 * L) := by
  have scaled : 0 ≤ work * T := mul_nonneg nonneg inside.1.le
  rw [show work * (T * 61 * 99) = work * T * 6039 by rw [mul_assoc T, mul_assoc]; rfl] at small
  rw [abs_le] at short
  have byTarget : mul 63 work T = .ok (work * T) := fitted_of_fits ⟨by omega, by omega⟩
  have byLength : mul 63 (work * T) (difficultyWindow + 1) = .ok (work * T * 61) :=
    fitted_of_fits (z := work * T * 61) ⟨by omega, by omega⟩
  have adjusted : mul 63 (work * T * 61) 99 = .ok (work * T * 61 * 99) :=
    fitted_of_fits ⟨by omega, by omega⟩
  have time : mul 63 (100 * 2) L = .ok (200 * L) := fitted_of_fits ⟨by omega, by omega⟩
  have fits : Fits 63 ((work * T * 61 * 99).tdiv (200 * L)) :=
    Fits.tdiv (by rw [abs_of_nonneg] <;> omega) _
  have divided : div 63 (work * T * 61 * 99) (200 * L) = .ok x ↔
      L ≠ 0 ∧ x = (work * T * 61 * 99).tdiv (200 * L) := by
    rw [div_eq_ok, and_iff_right fits, eq_comm]
    simp
  unfold workOverTime
  simp only [of_bind, byTarget, Except.ok.injEq, exists_eq_left', byLength, adjusted, time, divided]

/-- What the function reads of the cumulative difficulties: the work of the window and the
difficulty of the previous block. -/
def windowWork (cumulativeDifficulties : List Nat) : Int :=
  ((cumulativeDifficulties[60]?.getD 0 : Nat) : Int) - (cumulativeDifficulties[0]?.getD 0 : Nat)

def previousDifficulty (cumulativeDifficulties : List Nat) : Int :=
  ((cumulativeDifficulties[60]?.getD 0 : Nat) : Int) - (cumulativeDifficulties[59]?.getD 0 : Nat)

/-- Every block is at least as late as the median of the eleven blocks before it. -/
def ObeysMedianRule (chain : List Nat) : Prop :=
  ∀ i < chain.length, timestampCheckWindow ≤ i →
    medianValue ((chain.take i).drop (i - timestampCheckWindow)) ≤ chain[i]?.getD 0

instance (chain : List Nat) : Decidable (ObeysMedianRule chain) :=
  inferInstanceAs (Decidable (∀ i < chain.length, _))

/-- The last blocks of a chain that obeys the median rule, and cumulative difficulties that leave
room for the product with target and window. -/
structure DifficultyWindow (blockHeight : Nat) (chain timestamps cumulativeDifficulties : List Nat) :
    Prop where
  median : ObeysMedianRule chain
  words : ∀ timestamp ∈ chain, timestamp < 2 ^ 64
  last : timestamps <:+ chain
  full : timestamps.length = 61
  each : cumulativeDifficulties.length = 61
  increasing : cumulativeDifficulties.Pairwise (· < ·)
  room : ∀ difficulty ∈ cumulativeDifficulties,
    (difficulty : Int) * (difficultyTargetAt blockHeight * 61 * 99) < 2 ^ 63

theorem int64_of_fits (fits : Fits 63 z) : int64 z = z :=
  Int.bmod_eq_of_le (by exact fits.1) (by exact fits.2)

theorem uint64OfInt_of_nonneg (nonneg : 0 ≤ z) (small : z < 2 ^ 64) :
    (uint64OfInt z : Int) = z := by
  unfold uint64OfInt
  omega

theorem int64_subUInt64_of_le {a b : Nat} (le : b ≤ a) (small : a < 2 ^ 63) :
    int64 (subUInt64 a b) = (a : Int) - b := by
  rw [subUInt64_of_le (by omega) le, Int.ofNat_sub le]
  exact int64_of_fits ⟨by omega, by omega⟩

namespace DifficultyWindow

variable {height : Nat} {chain times difficulties : List Nat}
  (window : DifficultyWindow height chain times difficulties)

include window

theorem lt_of_lt {i j : Nat} (lt : i < j) (le : j ≤ 60) :
    difficulties[i]?.getD 0 < difficulties[j]?.getD 0 := by
  have inside : j < difficulties.length := by
    rw [window.each]
    omega
  rw [getElem?_eq_getElem (lt.trans inside), getElem?_eq_getElem inside]
  exact pairwise_iff_getElem.1 window.increasing i j _ inside lt

theorem top_room : ((difficulties[60]?.getD 0 : Nat) : Int) *
    (difficultyTargetAt height * 61 * 99) < 2 ^ 63 := by
  apply window.room
  rw [getElem?_eq_getElem (by rw [window.each]; decide)]
  exact getElem_mem _

theorem windowWork_room :
    windowWork difficulties * (difficultyTargetAt height * 61 * 99) < 2 ^ 63 := by
  refine lt_of_le_of_lt ?_ window.top_room
  apply mul_le_mul_of_nonneg_right
  · unfold windowWork
    omega
  · have := difficultyTargetAt_mem height
    omega

theorem bounds : 1 ≤ previousDifficulty difficulties ∧
    previousDifficulty difficulties ≤ windowWork difficulties ∧
    windowWork difficulties * 60390 < 2 ^ 63 := by
  have first := window.lt_of_lt (show 0 < 59 by decide) (by decide)
  have last := window.lt_of_lt (show 59 < 60 by decide) le_rfl
  have work : 0 ≤ windowWork difficulties := by
    unfold windowWork
    omega
  have target : 10 ≤ difficultyTargetAt height := by
    unfold difficultyTargetAt
    split
    · decide
    · split <;> decide
  refine ⟨?_, ?_, lt_of_le_of_lt (mul_le_mul_of_nonneg_left (by omega) work) window.windowWork_room⟩
  · unfold previousDifficulty
    omega
  · unfold previousDifficulty windowWork
    omega

/-- The differences of the source do not wrap around. -/
theorem differences :
    int64 (subUInt64 (difficulties[60]?.getD 0) (difficulties[0]?.getD 0)) =
        windowWork difficulties ∧
      int64 (subUInt64 (difficulties[60]?.getD 0) (difficulties[59]?.getD 0)) =
        previousDifficulty difficulties := by
  have first := window.lt_of_lt (show 0 < 60 by decide) le_rfl
  have last := window.lt_of_lt (show 59 < 60 by decide) le_rfl
  have room := window.top_room
  have inside := difficultyTargetAt_mem height
  have alone : ((difficulties[60]?.getD 0 : Nat) : Int) * 1 ≤
      ((difficulties[60]?.getD 0 : Nat) : Int) *
        (difficultyTargetAt height * 61 * 99) :=
    mul_le_mul_of_nonneg_left (by omega) (by omega)
  exact ⟨int64_subUInt64_of_le first.le (by omega), int64_subUInt64_of_le last.le (by omega)⟩

/-- The function passes exactly where times are not too far apart and the weighted time is not
zero, and then the difficulty is that of the rule. -/
theorem nextDifficultyChecked_eq_ok {difficulty : Nat} :
    nextDifficultyChecked times difficulties height = .ok difficulty ↔
      (∀ i < 60, Fits 63 (timeBetween times i)) ∧
      weightedTime (difficultyTargetAt height) times 60 ≠ 0 ∧
      difficulty = uint64OfInt (lwma (difficultyTargetAt height)
        (windowWork difficulties) (previousDifficulty difficulties)
        (weightedTime (difficultyTargetAt height) times 60)
        (lastThreeTimes (difficultyTargetAt height) times 60)) := by
  have inside := difficultyTargetAt_mem height
  obtain ⟨positive, least, small⟩ := window.bounds
  obtain ⟨work, previous⟩ := window.differences
  unfold nextDifficultyChecked
  rw [if_neg (by rw [window.full]; decide)]
  simp only [show difficultyWindow = 60 from rfl, of_bind,
    foldlM_addSolveTime_eq_ok inside le_rfl, Nat.reduceSub, work, previous]
  constructor
  · rintro ⟨_, ⟨fits, rfl⟩, next, divided, lowest, low, highest, high, raised, fast, result⟩
    rw [workOverTime_eq_ok (by omega) inside window.windowWork_room
      (abs_weightedTime_le inside times le_rfl)] at divided
    rw [percentOf_eq (by omega) (by omega)] at low high
    rw [raiseWhenFast_eq inside (by omega) (by omega)] at fast
    obtain ⟨nonzero, rfl⟩ := divided
    cases low
    cases high
    cases fast
    cases result
    exact ⟨fits, nonzero, rfl⟩
  · rintro ⟨fits, nonzero, rfl⟩
    have divided := (workOverTime_eq_ok (by omega) inside window.windowWork_room
      (abs_weightedTime_le inside times le_rfl)).2 ⟨nonzero, rfl⟩
    exact ⟨_, ⟨fits, rfl⟩, _, divided, _, percentOf_eq (by omega) (by omega), _,
      percentOf_eq (by omega) (by omega), _, raiseWhenFast_eq inside (by omega) (by omega), rfl⟩

end DifficultyWindow

/-! ### Wrapping around makes no difference -/

theorem solveTimes_eq (T : Int) (times : List Nat) :
    solveTimes T times = (range (times.length - 1)).map fun i =>
      solveTime T (times[i]?.getD 0) (times[i + 1]?.getD 0) := by
  induction times using solveTimes.induct with
  | case1 | case2 => rfl
  | case3 previous current rest ih =>
    rw [solveTimes, ih]
    simp only [length_cons, Nat.add_sub_cancel]
    rw [range_succ_eq_map, map_cons, map_map]
    rfl

theorem weightedSum_map_range (f : Nat → Int) (n : Nat) (weight : Int) :
    weightedSum weight ((range n).map f) = ∑ i ∈ Finset.range n, (weight + i) * f i := by
  induction n generalizing f weight with
  | zero => rfl
  | succ n ih =>
    rw [range_succ_eq_map, map_cons, map_map, weightedSum, ih, Finset.sum_range_succ']
    simp only [Function.comp_apply, Nat.cast_add, Nat.cast_one, Nat.cast_zero, add_zero]
    rw [add_comm]
    congr 1
    apply Finset.sum_congr rfl
    intro i _
    rw [add_assoc, add_comm 1]

theorem lastThree_map_range (f : Nat → Int) :
    (((range 60).map f).drop 57).sum = ∑ i ∈ Finset.Ico 57 60, f i := by
  rw [← map_drop, show (range 60).drop 57 = [57, 58, 59] from rfl,
    show Finset.Ico 57 60 = {57, 58, 59} from rfl]
  simp

theorem nextDifficulty_of_checked {height : Nat} {chain times difficulties : List Nat}
    (window : DifficultyWindow height chain times difficulties) {difficulty : Nat}
    (passes : nextDifficultyChecked times difficulties height = .ok difficulty) :
    nextDifficulty times difficulties height = some difficulty := by
  obtain ⟨fits, nonzero, rfl⟩ := window.nextDifficultyChecked_eq_ok.1 passes
  have inside := difficultyTargetAt_mem height
  obtain ⟨positive, least, small⟩ := window.bounds
  obtain ⟨work, previous⟩ := window.differences
  have room := window.windowWork_room
  have solved : solveTimes (difficultyTargetAt height) (times.take 61) =
      (range 60).map (heldTime (difficultyTargetAt height) times) := by
    rw [take_of_length_le window.full.le, solveTimes_eq, window.full]
    apply map_congr_left
    intro i mem
    unfold solveTime heldTime
    rw [show int64 _ - int64 _ = timeBetween times i from rfl,
      int64_of_fits (fits i (mem_range.1 mem))]
  have weighted : weightedSum 1 ((range 60).map
      (heldTime (difficultyTargetAt height) times)) =
        weightedTime (difficultyTargetAt height) times 60 := by
    rw [weightedSum_map_range]
    apply Finset.sum_congr rfl
    intro i _
    rw [add_comm 1]
  have scaled : 0 ≤ windowWork difficulties * difficultyTargetAt height :=
    mul_nonneg (by omega) inside.1.le
  have product : int64 (windowWork difficulties * difficultyTargetAt height * 61 * 99) =
      windowWork difficulties * difficultyTargetAt height * 61 * 99 := by
    rw [show windowWork difficulties * (difficultyTargetAt height * 61 * 99) =
      windowWork difficulties * difficultyTargetAt height * 6039 by
        rw [mul_assoc (difficultyTargetAt _), mul_assoc]; rfl] at room
    exact int64_of_fits ⟨by omega, by omega⟩
  have percent : ∀ percent : Int, 0 ≤ percent → percent ≤ 150 →
      (int64 (previousDifficulty difficulties * percent)).tdiv 100 =
        previousDifficulty difficulties * percent / 100 := by
    intro percent nonneg le
    have lower : 0 ≤ previousDifficulty difficulties * percent := mul_nonneg (by omega) nonneg
    have upper : previousDifficulty difficulties * percent ≤
        previousDifficulty difficulties * 150 :=
      mul_le_mul_of_nonneg_left le (by omega)
    rw [int64_of_fits ⟨by omega, by omega⟩]
    exact Int.tdiv_eq_ediv_of_nonneg lower
  unfold nextDifficulty
  rw [if_neg (by rw [window.full]; decide)]
  simp only [show difficultyWindow = 60 from rfl, Nat.reduceAdd, solved, weighted,
    Nat.reduceSub, work, previous, if_neg nonzero, lastThree_map_range]
  rw [percent 67 (by decide) (by decide),
    percent 150 (by decide) (by decide), percent 108 (by decide) (by decide),
    Int.tdiv_eq_ediv_of_nonneg (by omega)]
  rw [show ((60 : Nat) : Int) + 1 = 61 from rfl, product]
  rfl

/-! ### When the difficulty is well defined and damped -/

theorem lwma_damped (T work weighted lastThree : Int) (positive : 1 ≤ previous) :
    previous * 67 / 100 ≤ lwma T work previous weighted lastThree ∧
      lwma T work previous weighted lastThree ≤ previous * 150 / 100 := by
  unfold lwma
  dsimp only
  split <;> omega

theorem one_le_tdiv_iff {a b : Int} (positive : 0 < a) : 1 ≤ a.tdiv b ↔ 0 < b ∧ b ≤ a := by
  rcases lt_or_ge 0 b with above | below
  · rw [Int.tdiv_eq_ediv_of_nonneg positive.le, Int.le_ediv_iff_mul_le above, one_mul,
      and_iff_right above]
  · have nonneg : 0 ≤ a.tdiv (-b) := Int.tdiv_nonneg positive.le (by omega)
    rw [Int.tdiv_neg] at nonneg
    constructor <;> omega

/-- The difficulty is lost only after a block of difficulty one that was found too slowly. -/
theorem one_le_lwma_iff {T : Int} (weighted lastThree : Int)
    (positive : 1 ≤ previous) (worked : 0 < work * T) :
    1 ≤ lwma T work previous weighted lastThree ↔ 2 ≤ previous ∨ lastThree < 8 * T / 10 ∨
        0 < weighted ∧ 200 * weighted ≤ work * T * 61 * 99 := by
  have quotient := one_le_tdiv_iff (a := work * T * 61 * 99) (b := 200 * weighted) (by omega)
  unfold lwma
  dsimp only
  split <;> omega

/-- Timestamps that are not too far apart for their difference, a weighted time that is not zero,
and, after a block of difficulty one, fast blocks. -/
structure WellTimed (blockHeight : Nat) (timestamps cumulativeDifficulties : List Nat) : Prop where
  apart : ∀ i < 60, Fits 63 (timeBetween timestamps i)
  nonzero : weightedTime (difficultyTargetAt blockHeight) timestamps 60 ≠ 0
  kept : 2 ≤ previousDifficulty cumulativeDifficulties ∨
    lastThreeTimes (difficultyTargetAt blockHeight) timestamps 60 <
      8 * difficultyTargetAt blockHeight / 10 ∨
    0 < weightedTime (difficultyTargetAt blockHeight) timestamps 60 ∧
      200 * weightedTime (difficultyTargetAt blockHeight) timestamps 60 ≤
        windowWork cumulativeDifficulties * difficultyTargetAt blockHeight * 61 * 99

/-- Nothing overflows, nothing is divided by zero, and the difficulty is at least one and between
67% and 150% of the previous one, exactly for windows that are well timed. -/
theorem nextDifficulty_damped_iff {blockHeight : Nat}
    {chain timestamps cumulativeDifficulties : List Nat}
    (window : DifficultyWindow blockHeight chain timestamps cumulativeDifficulties) : (∃ difficulty,
      nextDifficultyChecked timestamps cumulativeDifficulties blockHeight = .ok difficulty ∧
      nextDifficulty timestamps cumulativeDifficulties blockHeight = some difficulty ∧
      1 ≤ difficulty ∧
      previousDifficulty cumulativeDifficulties * 67 / 100 ≤ difficulty ∧
      (difficulty : Int) ≤ previousDifficulty cumulativeDifficulties * 150 / 100) ↔
    WellTimed blockHeight timestamps cumulativeDifficulties := by
  have inside := difficultyTargetAt_mem blockHeight
  obtain ⟨positive, least, small⟩ := window.bounds
  have worked : 0 < windowWork cumulativeDifficulties * difficultyTargetAt blockHeight :=
    mul_pos (by omega) inside.1
  have kept := one_le_lwma_iff (weightedTime (difficultyTargetAt blockHeight) timestamps 60)
    (lastThreeTimes (difficultyTargetAt blockHeight) timestamps 60) positive worked
  obtain ⟨lower, upper⟩ := lwma_damped (difficultyTargetAt blockHeight)
    (windowWork cumulativeDifficulties)
    (weightedTime (difficultyTargetAt blockHeight) timestamps 60)
    (lastThreeTimes (difficultyTargetAt blockHeight) timestamps 60) positive
  have word := uint64OfInt_of_nonneg (le_trans (by omega) lower) (lt_of_le_of_lt upper (by omega))
  constructor
  · rintro ⟨difficulty, passes, -, one, -, -⟩
    obtain ⟨fits, nonzero, rfl⟩ := window.nextDifficultyChecked_eq_ok.1 passes
    exact ⟨fits, nonzero, kept.1 (by omega)⟩
  · intro timed
    have passes := window.nextDifficultyChecked_eq_ok.2 ⟨timed.apart, timed.nonzero, rfl⟩
    have one := kept.2 timed.kept
    exact ⟨_, passes, nextDifficulty_of_checked window passes, by omega, by omega, by omega⟩

namespace Sample

/-- Sixty-one blocks of difficulty 1000, with the genesis block before them. -/
def evenDifficulties : List Nat := (range 61).map fun i => (i + 1) * 1000

def everyTenSeconds : List Nat := (range 62).map fun i => 1500000000 + 10 * i

def allAtOnce : List Nat := replicate 62 1500000000

theorem window_everyTenSeconds :
    DifficultyWindow 100 everyTenSeconds everyTenSeconds.tail evenDifficulties where
  median := by decide +kernel
  words := by decide +kernel
  last := tail_suffix _
  full := by decide +kernel
  each := by decide +kernel
  increasing := by decide +kernel
  room := by decide +kernel

theorem nextDifficulty_damped_everyTenSeconds : ∃ difficulty,
      nextDifficultyChecked everyTenSeconds.tail evenDifficulties 100 = .ok difficulty ∧
      nextDifficulty everyTenSeconds.tail evenDifficulties 100 = some difficulty ∧
      1 ≤ difficulty ∧
      previousDifficulty evenDifficulties * 67 / 100 ≤ difficulty ∧
      (difficulty : Int) ≤ previousDifficulty evenDifficulties * 150 / 100 :=
  (nextDifficulty_damped_iff window_everyTenSeconds).2
    ⟨by decide +kernel, by decide +kernel, by decide +kernel⟩

/-- Blocks of one and the same time obey the median rule, and the weighted time is zero. -/
theorem divides_by_zero : DifficultyWindow 100 allAtOnce allAtOnce.tail evenDifficulties ∧
    nextDifficultyChecked allAtOnce.tail evenDifficulties 100 = .error .divisionByZero ∧
    nextDifficulty allAtOnce.tail evenDifficulties 100 = none := by
  refine ⟨⟨?_, ?_, tail_suffix _, ?_, ?_, ?_, ?_⟩, ?_, ?_⟩ <;> decide +kernel

/-- A minute between blocks of difficulty one: nothing is left of the difficulty. -/
example : nextDifficultyChecked ((range 61).map fun i => 60 * i) (range 61) 100 = .ok 0 := by
  decide +kernel

end Sample

end DeroGold
