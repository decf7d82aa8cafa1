import DeroGold.Currency
import DeroGold.Lib.ByteOrder

/-!
The two rules of consensus that are computed in more than a machine word.

* `checkHash_iff`: the proof-of-work test, which multiplies a hash by the difficulty word by word
  and keeps only the carries, is the comparison of the product with `2 ^ 256`.
* `getPenalizedAmount_exact`: the penalty for a block above the median size is one exact quotient,
  and it grows with the block.
-/

namespace DeroGold

open List ByteOrder Wide Bool Digits

/-! ### Proof of work -/

/-- Whether a sum of words carries. -/
def cadd (a b : Nat) : Bool := decide (uint64 (a + b) < a)

/-- Whether a sum of words and a carry does. -/
def cadc (a b : Nat) (c : Bool) : Bool :=
  decide (uint64 (a + b) < a) || (c && uint64 (a + b) == 2 ^ 64 - 1)

/-- A word of a hash in memory, `swap64le(((const uint64_t *)&hash)[i])`. -/
def hashWord (hash : Pod 32) (i : Nat) : Nat := ofLittleEndian ((hash.val.drop (8 * i)).take 8)

/-- Products are those of `mul128`, which are exact (`Wide.mul128_spec`), as are those of a compiler
with 128-bit integers. -/
def checkHash (hash : Pod 32) (difficulty : Nat) : Bool :=
  -- the highest word first, which is enough for most hashes
  let (high, top) := mul128 (hashWord hash 3) difficulty
  if high ≠ 0 then false
  else
    let (cur, _) := mul128 (hashWord hash 0) difficulty
    let (high, low) := mul128 (hashWord hash 1) difficulty
    let carry := cadd cur low
    let cur := high
    let (high, low) := mul128 (hashWord hash 2) difficulty
    let carry := cadc cur low carry
    let carry := cadc high top carry
    !carry

theorem cadd_eq {a b : Nat} (ha : a < 2 ^ 64) (hb : b < 2 ^ 64) :
    cadd a b = decide (2 ^ 64 ≤ a + b) := by
  unfold cadd uint64
  rw [decide_eq_decide]
  omega

theorem cadc_eq {a b : Nat} (ha : a < 2 ^ 64) (hb : b < 2 ^ 64) (c : Bool) :
    cadc a b c = decide (2 ^ 64 ≤ a + b + c.toNat) := by
  unfold cadc uint64
  cases c with
  | false =>
    rw [Bool.false_and, Bool.or_false, decide_eq_decide, Bool.toNat_false]
    omega
  | true =>
    rw [Bool.true_and, Bool.toNat_true, Bool.eq_iff_iff, Bool.or_eq_true, beq_iff_eq,
      decide_eq_true_eq, decide_eq_true_eq]
    omega

/-- Bytes in two parts. -/
theorem ofLittleEndian_take_drop (bytes : Bytes) {n : Nat} (inside : n ≤ bytes.length) :
    ofLittleEndian bytes = ofLittleEndian (bytes.take n) +
      256 ^ n * ofLittleEndian (bytes.drop n) := by
  unfold ofLittleEndian
  conv_lhs => rw [← take_append_drop n bytes]
  rw [map_append, Nat.ofDigits_append, length_map, length_take_of_le inside]

theorem hashWord_lt (hash : Pod 32) (i : Nat) : hashWord hash i < 2 ^ 64 := by
  apply (ofLittleEndian_lt _).trans_le
  apply (Nat.pow_le_pow_right (by decide) (length_take_le 8 _)).trans
  decide

/-- A hash is the number its four words make up. -/
theorem ofLittleEndian_eq_words (hash : Pod 32) :
    ofLittleEndian hash.val = hashWord hash 0 + 2 ^ 64 * (hashWord hash 1 +
      2 ^ 64 * (hashWord hash 2 + 2 ^ 64 * hashWord hash 3)) := by
  have length := hash.property
  have last : hashWord hash 3 = ofLittleEndian (hash.val.drop 24) := by
    rw [hashWord, take_of_length_le (by rw [length_drop, length])]
  have first : 8 ≤ hash.val.length := by omega
  have second : 8 ≤ (hash.val.drop 8).length := by rw [length_drop]; omega
  have third : 8 ≤ (hash.val.drop 16).length := by rw [length_drop]; omega
  rw [last, ofLittleEndian_take_drop _ first, ofLittleEndian_take_drop _ second, drop_drop,
    ofLittleEndian_take_drop _ third, drop_drop]
  rfl

/-- For every hash and difficulty the test is the exact comparison. -/
theorem checkHash_iff (hash : Pod 32) (difficulty : Nat) (word : difficulty < 2 ^ 64) :
    checkHash hash difficulty = true ↔ ofLittleEndian hash.val * difficulty < 2 ^ 256 := by
  rw [ofLittleEndian_eq_words]
  unfold checkHash
  have product := fun i => mul128_spec (hashWord_lt hash i) word
  have small := fun i => mul128_lt (hashWord hash i) difficulty
  have p0 := product 0
  have p1 := product 1
  have p2 := product 2
  have p3 := product 3
  obtain ⟨h0, l0⟩ := small 0
  obtain ⟨h1, l1⟩ := small 1
  obtain ⟨h2, l2⟩ := small 2
  obtain ⟨-, l3⟩ := small 3
  have total : (hashWord hash 0 + 2 ^ 64 * (hashWord hash 1 + 2 ^ 64 * (hashWord hash 2 +
      2 ^ 64 * hashWord hash 3))) * difficulty = hashWord hash 0 * difficulty + 2 ^ 64 *
        (hashWord hash 1 * difficulty + 2 ^ 64 * (hashWord hash 2 * difficulty + 2 ^ 64 *
          (hashWord hash 3 * difficulty))) := by
    ring
  rw [total, ← p0, ← p1, ← p2, ← p3]
  simp only [cadd_eq h0 l1, cadc_eq h1 l2, cadc_eq h2 l3]
  generalize mul128 (hashWord hash 0) difficulty = w0 at *
  generalize mul128 (hashWord hash 1) difficulty = w1 at *
  generalize mul128 (hashWord hash 2) difficulty = w2 at *
  generalize mul128 (hashWord hash 3) difficulty = w3 at *
  clear p0 p1 p2 p3 total product small
  have carry : ∀ {n : Nat}, n < 2 * 2 ^ 64 → (decide (2 ^ 64 ≤ n)).toNat = n / 2 ^ 64 := by
    intro n small
    by_cases reached : 2 ^ 64 ≤ n
    · rw [decide_eq_true reached, toNat_true]
      omega
    · rw [decide_eq_false reached, toNat_false]
      omega
  split
  case isTrue overflow =>
    refine iff_of_false false_ne_true ?_
    omega
  case isFalse fits =>
    rw [carry (show w0.1 + w1.2 < 2 * 2 ^ 64 by omega), carry (by omega), not_eq_true',
      decide_eq_false_iff_not]
    omega

/-- The smallest hash that fails at difficulty 3, and the one below it. -/
theorem checkHash_iff_third : checkHash ⟨86 :: List.replicate 31 85, rfl⟩ 3 = false ∧
      checkHash ⟨List.replicate 32 85, rfl⟩ 3 = true := by
  refine ⟨eq_false_iff.2 fun passes => ?_, ?_⟩
  · exact absurd ((checkHash_iff _ 3 (by decide)).1 passes) (by decide)
  · exact (checkHash_iff _ 3 (by decide)).2 (by decide)

/-! ### The digits of an amount -/

/-- The loop over the digits gives the parts of the amount, as long as the whole fits. -/
theorem decomposeAmount_eq {fuel amount order : Nat} (few : amount < 10 ^ fuel)
    (fits : order * amount < 2 ^ 64) (positive : 0 < order) :
    decomposeAmount fuel amount order = atPlaces 10 order (Nat.digits 10 amount) := by
  induction fuel generalizing amount order with
  | zero =>
    obtain rfl : amount = 0 := by simpa using few
    simp [decomposeAmount, atPlaces]
  | succ fuel ih =>
    rw [decomposeAmount]
    split_ifs with zero
    · simp [zero, atPlaces]
    · have chunk_fits : amount % 10 * order < 2 ^ 64 := by
        rw [mul_comm]
        exact lt_of_le_of_lt (Nat.mul_le_mul_left _ (Nat.mod_le _ _)) fits
      have rest : decomposeAmount fuel (amount / 10) (uint64 (order * 10)) =
          atPlaces 10 (order * 10) (Nat.digits 10 (amount / 10)) := by
        by_cases last : amount / 10 = 0
        · cases fuel <;> simp [decomposeAmount, last, atPlaces]
        · have rest_fits : order * 10 * (amount / 10) < 2 ^ 64 := by
            refine lt_of_le_of_lt ?_ fits
            rw [mul_assoc]
            exact Nat.mul_le_mul_left _ (Nat.mul_div_le _ _)
          have next_fits : order * 10 < 2 ^ 64 :=
            lt_of_le_of_lt (Nat.le_mul_of_pos_right _ (Nat.pos_of_ne_zero last)) rest_fits
          rw [uint64_of_lt next_fits]
          refine ih ?_ rest_fits (Nat.mul_pos positive (by decide))
          rw [pow_succ] at few
          exact Nat.div_lt_of_lt_mul (by omega)
      rw [Nat.digits_def' (by decide) (Nat.pos_of_ne_zero zero), atPlaces, uint64_of_lt chunk_fits,
        rest]
      by_cases digit : amount % 10 = 0
      · simp [digit]
      · simp [digit, positive.ne']

theorem decomposeAmount_eq_parts {amount : Nat} (fits : amount < 2 ^ 64) :
    decomposeAmount 20 amount 1 = parts 10 amount :=
  decomposeAmount_eq (fits.trans (by decide)) (by rwa [one_mul]) Nat.one_pos

/-! ### The penalty for large blocks -/

section Penalty

variable {amount medianSize size : Nat}

/-- The factor of the penalty, in exact numbers, is a difference of squares. -/
theorem factor_eq (above : medianSize ≤ size) (inside : size ≤ 2 * medianSize) :
    size * (2 * medianSize - size) = medianSize ^ 2 - (size - medianSize) ^ 2 := by
  obtain ⟨excess, rfl⟩ := Nat.exists_eq_add_of_le above
  rw [Nat.add_sub_cancel_left, Nat.sq_sub_sq, Nat.two_mul, Nat.add_sub_add_left]

theorem part_le (amount whole off : Nat) : amount * (whole - off) / whole ≤ amount := by
  apply Nat.div_le_of_le_mul
  rw [mul_comm]
  exact Nat.mul_le_mul_right _ (Nat.sub_le _ _)

/-- No word of the two divisions is lost, and the high word of the result is zero. -/
theorem getPenalizedAmount_eq (word : amount < 2 ^ 64) (small : medianSize < 2 ^ 32)
    (above : medianSize < size) (inside : size ≤ 2 * medianSize) :
    getPenalizedAmount amount medianSize size =
      amount * (medianSize ^ 2 - (size - medianSize) ^ 2) / medianSize ^ 2 := by
  have pos : 0 < medianSize := by omega
  have square : medianSize ^ 2 < 2 ^ 64 := Nat.pow_lt_pow_left small (by decide)
  have factor_lt := (Nat.sub_le (medianSize ^ 2) ((size - medianSize) ^ 2)).trans_lt square
  have factor : uint64 (size * subUInt64 (uint64 (2 * medianSize)) size) =
      medianSize ^ 2 - (size - medianSize) ^ 2 := by
    rw [uint64_of_lt (n := 2 * medianSize) (by omega), subUInt64_of_le (by omega) inside,
      factor_eq above.le inside]
    exact uint64_of_lt factor_lt
  unfold getPenalizedAmount
  split
  case isTrue zero => rw [zero, zero_mul, Nat.zero_div]
  case isFalse =>
    rw [if_neg (Nat.not_le_of_lt above)]
    simp only [factor, uint32_of_lt small]
    have twice := mul128_div_div word factor_lt pos
    rw [← Nat.pow_two] at twice
    have quotient_le := part_le amount (medianSize ^ 2) ((size - medianSize) ^ 2)
    simp only at twice
    omega

theorem getPenalizedAmount_of_le (inside : size ≤ medianSize) :
    getPenalizedAmount amount medianSize size = amount := by
  unfold getPenalizedAmount
  rw [if_pos inside]
  split_ifs with zero
  · exact zero.symm
  · rfl

/-- A penalised amount is never larger than the amount. -/
theorem getPenalizedAmount_le (word : amount < 2 ^ 64) (small : medianSize < 2 ^ 32)
    (inside : size ≤ 2 * medianSize) : getPenalizedAmount amount medianSize size ≤ amount := by
  rcases Nat.lt_or_ge medianSize size with above | below
  · rw [getPenalizedAmount_eq word small above inside]
    exact part_le _ _ _
  · exact (getPenalizedAmount_of_le below).le

/-- A larger block above the median never gets more. -/
theorem getPenalizedAmount_anti (word : amount < 2 ^ 64) (small : medianSize < 2 ^ 32)
    (above : medianSize ≤ size) {larger : Nat} (le : size ≤ larger)
    (inside : larger ≤ 2 * medianSize) :
    getPenalizedAmount amount medianSize larger ≤ getPenalizedAmount amount medianSize size := by
  rcases Nat.eq_or_lt_of_le above with rfl | above
  · rw [getPenalizedAmount_of_le (le_refl _)]
    exact getPenalizedAmount_le word small inside
  · rw [getPenalizedAmount_eq word small (above.trans_le le) inside,
      getPenalizedAmount_eq word small above (le.trans inside)]
    refine Nat.div_le_div_right (Nat.mul_le_mul_left _ (Nat.sub_le_sub_left ?_ _))
    exact Nat.pow_le_pow_left (Nat.sub_le_sub_right le _) 2

/-- The penalty is the exact quotient: nothing below the median, everything at twice a median
above zero, and never less for a larger block. -/
theorem getPenalizedAmount_exact (word : amount < 2 ^ 64) (small : medianSize < 2 ^ 32)
    (inside : size ≤ 2 * medianSize) :
    (size ≤ medianSize → getPenalizedAmount amount medianSize size = amount) ∧
    (medianSize < size → getPenalizedAmount amount medianSize size =
      amount * size * (2 * medianSize - size) / medianSize ^ 2) ∧
    getPenalizedAmount amount medianSize size ≤ amount ∧
    (0 < medianSize → getPenalizedAmount amount medianSize (2 * medianSize) = 0) ∧
    ∀ larger, medianSize ≤ size → size ≤ larger → larger ≤ 2 * medianSize →
      getPenalizedAmount amount medianSize larger ≤ getPenalizedAmount amount medianSize size := by
  refine ⟨getPenalizedAmount_of_le, fun above => ?_, getPenalizedAmount_le word small inside,
    fun positive => ?_, fun larger above le within => ?_⟩
  · rw [getPenalizedAmount_eq word small above inside, mul_assoc, factor_eq above.le inside]
  · rw [getPenalizedAmount_eq word small (by omega) (le_refl _), Nat.two_mul,
      Nat.add_sub_cancel, Nat.sub_self, Nat.mul_zero, Nat.zero_div]
  · exact getPenalizedAmount_anti word small above le within

/-- A block of one and a half times the median loses a quarter. -/
theorem getPenalizedAmount_exact_half : getPenalizedAmount 1000 100000 150000 = 750 := by
  exact (getPenalizedAmount_exact (by decide) (by decide) (by decide)).2.1 (by decide)

/-- Without a median a block of twice that size is not above it. -/
theorem getPenalizedAmount_no_median : 0 = 2 * 0 ∧ getPenalizedAmount 1000 0 0 = 1000 := by
  decide

end Penalty

end DeroGold
