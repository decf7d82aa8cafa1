import Mathlib.Data.Nat.Bitwise
import Mathlib.Tactic.Ring
import Mathlib.Tactic.LinearCombination

/-!
Products and quotients of 64-bit words through 32-bit halves. A double word
`(hi, lo)` stands for `hi * 2 ^ 64 + lo`; every intermediate word is reduced
modulo `2 ^ 64`, and the main results say that no information is lost:
`mul128_spec` and `div128_32_spec`.
-/

namespace Wide

def hiDword (x : Nat) : Nat := x / 2 ^ 32

def loDword (x : Nat) : Nat := x % 2 ^ 32

/-- Schoolbook product of two words, returned as `(hi, lo)`. -/
def mul128 (multiplier multiplicand : Nat) : Nat × Nat :=
  let a := hiDword multiplier
  let b := loDword multiplier
  let c := hiDword multiplicand
  let d := loDword multiplicand
  let ac := a * c % 2 ^ 64
  let ad := a * d % 2 ^ 64
  let bc := b * c % 2 ^ 64
  let bd := b * d % 2 ^ 64
  let adbc := (ad + bc) % 2 ^ 64
  let adbcCarry := if adbc < ad then 1 else 0
  let productLo := (bd + adbc <<< 32 % 2 ^ 64) % 2 ^ 64
  let productLoCarry := if productLo < bd then 1 else 0
  ((ac + adbc >>> 32 + adbcCarry <<< 32 + productLoCarry) % 2 ^ 64, productLo)

/-- One digit of the long division: the quotient and the new remainder. -/
def divWithRemainder (dividend divisor remainder : Nat) : Nat × Nat :=
  let dividend := remainder <<< 32 ||| dividend
  (dividend / divisor, dividend % divisor)

/-- Long division of a double word in base `2 ^ 32`, returned as `(hi, lo)`. -/
def div128_32 (dividendHi dividendLo divisor : Nat) : Nat × Nat :=
  let (q3, r3) := divWithRemainder (hiDword dividendHi) divisor 0
  let (q2, r2) := divWithRemainder (loDword dividendHi) divisor r3
  let (q1, r1) := divWithRemainder (hiDword dividendLo) divisor r2
  let (q0, _) := divWithRemainder (loDword dividendLo) divisor r1
  (q3 <<< 32 % 2 ^ 64 ||| q2, q1 <<< 32 % 2 ^ 64 ||| q0)

variable {x y divisor hi lo : Nat}

theorem hiDword_lt (h : x < 2 ^ 64) : hiDword x < 2 ^ 32 := by
  unfold hiDword
  omega

theorem loDword_lt (x : Nat) : loDword x < 2 ^ 32 := by
  unfold loDword
  omega

theorem dwords_eq (x : Nat) : hiDword x * 2 ^ 32 + loDword x = x := by
  unfold hiDword loDword
  omega

theorem mul_dword_le (hx : x < 2 ^ 32) (hy : y < 2 ^ 32) : x * y ≤ (2 ^ 32 - 1) * (2 ^ 32 - 1) :=
  Nat.mul_le_mul (by omega) (by omega)

/-- The carries of the schoolbook product account for everything the reductions
modulo `2 ^ 64` drop. -/
theorem mul128_spec (hx : x < 2 ^ 64) (hy : y < 2 ^ 64) :
    (mul128 x y).1 * 2 ^ 64 + (mul128 x y).2 = x * y := by
  have product : x * y =
      hiDword x * hiDword y * 2 ^ 64 +
        (hiDword x * loDword y + loDword x * hiDword y) * 2 ^ 32 + loDword x * loDword y := by
    conv_lhs => rw [← dwords_eq x, ← dwords_eq y]
    ring
  have ac_le := mul_dword_le (hiDword_lt hx) (hiDword_lt hy)
  have ad_le := mul_dword_le (hiDword_lt hx) (loDword_lt y)
  have bc_le := mul_dword_le (loDword_lt x) (hiDword_lt hy)
  have bd_le := mul_dword_le (loDword_lt x) (loDword_lt y)
  rw [product]
  simp only [mul128, Nat.shiftLeft_eq, Nat.shiftRight_eq_div_pow]
  generalize hiDword x * hiDword y = ac at *
  generalize hiDword x * loDword y = ad at *
  generalize loDword x * hiDword y = bc at *
  generalize loDword x * loDword y = bd at *
  clear product hx hy
  rw [Nat.mod_eq_of_lt (a := ac) (by omega), Nat.mod_eq_of_lt (a := ad) (by omega),
    Nat.mod_eq_of_lt (a := bc) (by omega), Nat.mod_eq_of_lt (a := bd) (by omega)]
  split <;> split <;> omega

variable {dividend remainder : Nat}

theorem divWithRemainder_eq (h : dividend < 2 ^ 32) : divWithRemainder dividend divisor remainder =
      ((remainder * 2 ^ 32 + dividend) / divisor, (remainder * 2 ^ 32 + dividend) % divisor) := by
  simp only [divWithRemainder]
  rw [← Nat.shiftLeft_add_eq_or_of_lt h, Nat.shiftLeft_eq]

/-- A digit of the quotient fits in a half word when the remainder carried in is
smaller than the divisor. -/
theorem digit_lt (h : dividend < 2 ^ 32) (small : remainder < divisor) :
    (remainder * 2 ^ 32 + dividend) / divisor < 2 ^ 32 := by
  apply Nat.div_lt_of_lt_mul
  calc remainder * 2 ^ 32 + dividend
      < remainder * 2 ^ 32 + 2 ^ 32 := by omega
    _ = (remainder + 1) * 2 ^ 32 := by ring
    _ ≤ divisor * 2 ^ 32 := Nat.mul_le_mul_right _ small

theorem or_digit (high : hi < 2 ^ 32) (low : lo < 2 ^ 32) :
    hi <<< 32 % 2 ^ 64 ||| lo = hi * 2 ^ 32 + lo := by
  have fits : hi <<< 32 < 2 ^ 64 := by
    rw [Nat.shiftLeft_eq]
    omega
  rw [Nat.mod_eq_of_lt fits, ← Nat.shiftLeft_add_eq_or_of_lt low, Nat.shiftLeft_eq]

/-- Two steps of the long division divide a whole word. -/
theorem two_digits {h l r : Nat} (pos : 0 < divisor) :
    let first := r * 2 ^ 32 + h
    let second := first % divisor * 2 ^ 32 + l
    first / divisor * 2 ^ 32 + second / divisor = (r * 2 ^ 64 + h * 2 ^ 32 + l) / divisor ∧
      second % divisor = (r * 2 ^ 64 + h * 2 ^ 32 + l) % divisor := by
  intro first second
  have whole : r * 2 ^ 64 + h * 2 ^ 32 + l = divisor * (first / divisor * 2 ^ 32) + second := by
    have := Nat.div_add_mod first divisor
    calc r * 2 ^ 64 + h * 2 ^ 32 + l = first * 2 ^ 32 + l := by ring
      _ = (divisor * (first / divisor) + first % divisor) * 2 ^ 32 + l := by rw [this]
      _ = divisor * (first / divisor * 2 ^ 32) + second := by ring
  rw [whole, Nat.mul_add_div pos, Nat.mul_add_mod]
  exact ⟨rfl, rfl⟩

/-- The four digits of the long division make up the exact quotient, the last two a word. -/
theorem div128_32_spec (high : hi < 2 ^ 64) (low : lo < 2 ^ 64) (pos : 0 < divisor) :
    (div128_32 hi lo divisor).1 * 2 ^ 64 + (div128_32 hi lo divisor).2 =
        (hi * 2 ^ 64 + lo) / divisor ∧ (div128_32 hi lo divisor).2 < 2 ^ 64 := by
  have h3 := hiDword_lt high
  have h2 := loDword_lt hi
  have h1 := hiDword_lt low
  have h0 := loDword_lt lo
  simp only [div128_32, divWithRemainder_eq h3, divWithRemainder_eq h2, divWithRemainder_eq h1,
    divWithRemainder_eq h0]
  have upper := two_digits (h := hiDword hi) (l := loDword hi) (r := 0) pos
  simp only at upper
  have q1 := digit_lt h1 (Nat.mod_lt ((0 * 2 ^ 32 + hiDword hi) % divisor * 2 ^ 32 + loDword hi) pos)
  have q0 := digit_lt h0 (Nat.mod_lt (((0 * 2 ^ 32 + hiDword hi) % divisor * 2 ^ 32 +
    loDword hi) % divisor * 2 ^ 32 + hiDword lo) pos)
  rw [or_digit (digit_lt h3 pos) (digit_lt h2 (Nat.mod_lt _ pos)), or_digit q1 q0]
  refine ⟨?_, by omega⟩
  rw [upper.1, upper.2]
  have lower := two_digits (h := hiDword lo) (l := loDword lo)
    (r := (0 * 2 ^ 64 + hiDword hi * 2 ^ 32 + loDword hi) % divisor) pos
  simp only at lower
  rw [lower.1, zero_mul, zero_add, dwords_eq]
  have split := Nat.div_add_mod hi divisor
  have whole : hi * 2 ^ 64 + lo =
      divisor * (hi / divisor * 2 ^ 64) + (hi % divisor * 2 ^ 64 + lo) := by
    conv_lhs => rw [← split]
    ring
  rw [whole, Nat.mul_add_div pos, add_assoc (hi % divisor * 2 ^ 64), dwords_eq]

/-- Both words of a product are words. -/
theorem mul128_lt (x y : Nat) : (mul128 x y).1 < 2 ^ 64 ∧ (mul128 x y).2 < 2 ^ 64 := by
  constructor
  · exact Nat.mod_lt _ (by decide)
  · exact Nat.mod_lt _ (by decide)

theorem div128_32_hi_lt (high : hi < 2 ^ 64) (low : lo < 2 ^ 64) (pos : 0 < divisor) :
    (div128_32 hi lo divisor).1 < 2 ^ 64 := by
  have spec := (div128_32_spec high low pos).1
  have quotient_le := Nat.div_le_self (hi * 2 ^ 64 + lo) divisor
  by_contra big
  have : 2 ^ 64 * 2 ^ 64 ≤ (div128_32 hi lo divisor).1 * 2 ^ 64 :=
    Nat.mul_le_mul_right _ (Nat.le_of_not_lt big)
  omega

/-- A product divided twice by `divisor`. -/
theorem mul128_div_div (hx : x < 2 ^ 64) (hy : y < 2 ^ 64) (pos : 0 < divisor) :
    let product := mul128 x y
    let once := div128_32 product.1 product.2 divisor
    let twice := div128_32 once.1 once.2 divisor
    twice.1 * 2 ^ 64 + twice.2 = x * y / (divisor * divisor) := by
  intro product once twice
  obtain ⟨product_high, product_low⟩ := mul128_lt x y
  have once_high : once.1 < 2 ^ 64 := div128_32_hi_lt product_high product_low pos
  have once_low : once.2 < 2 ^ 64 := (div128_32_spec product_high product_low pos).2
  have once_eq : once.1 * 2 ^ 64 + once.2 = (product.1 * 2 ^ 64 + product.2) / divisor :=
    (div128_32_spec product_high product_low pos).1
  have product_eq : product.1 * 2 ^ 64 + product.2 = x * y := mul128_spec hx hy
  rw [(div128_32_spec once_high once_low pos).1, once_eq, product_eq, Nat.div_div_eq_div_mul]

end Wide
