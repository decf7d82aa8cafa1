import Mathlib.Algebra.Order.Ring.Int
import Mathlib.Data.Int.Basic
import DeroGold.Lib.Checked

/-!
Arithmetic on signed machine words that stops where the machine's result is not defined: at a value
outside the range of the word and at a division by zero. Each operation passes exactly when its
exact result fits (`fitted_eq_ok`, `div_eq_ok`).
-/

namespace Signed

inductive Fault where
  | overflow
  | divisionByZero
  deriving DecidableEq

/-- The values of a signed word of `bits + 1` bits. -/
def Fits (bits : Nat) (z : Int) : Prop := -2 ^ bits ≤ z ∧ z < 2 ^ bits

instance (bits : Nat) (z : Int) : Decidable (Fits bits z) := inferInstanceAs (Decidable (_ ∧ _))

variable {bits : Nat} {x y z : Int}

theorem Fits.of_abs_lt (small : |z| < 2 ^ bits) : Fits bits z := by
  rw [abs_lt] at small
  exact ⟨small.1.le, small.2⟩

theorem Fits.of_nonneg (nonneg : 0 ≤ z) (small : z < 2 ^ bits) : Fits bits z :=
  Fits.of_abs_lt (by rwa [abs_of_nonneg nonneg])

/-- The result of an operation, if it fits. -/
def fitted (bits : Nat) (z : Int) : Except Fault Int :=
  if Fits bits z then .ok z else .error .overflow

@[simp]
theorem fitted_eq_ok : fitted bits x = .ok z ↔ Fits bits x ∧ x = z := by
  unfold fitted
  split <;> simp [*]

theorem fitted_of_fits (fits : Fits bits z) : fitted bits z = .ok z := if_pos fits

def add (bits : Nat) (x y : Int) : Except Fault Int := fitted bits (x + y)

def sub (bits : Nat) (x y : Int) : Except Fault Int := fitted bits (x - y)

def mul (bits : Nat) (x y : Int) : Except Fault Int := fitted bits (x * y)

/-- The quotient is rounded towards zero. -/
def div (bits : Nat) (x y : Int) : Except Fault Int :=
  if y = 0 then .error .divisionByZero else fitted bits (x.tdiv y)

@[simp]
theorem sub_eq_ok : sub bits x y = .ok z ↔ Fits bits (x - y) ∧ x - y = z := fitted_eq_ok

@[simp]
theorem div_eq_ok : div bits x y = .ok z ↔ y ≠ 0 ∧ Fits bits (x.tdiv y) ∧ x.tdiv y = z := by
  unfold div
  split <;> simp [*]

/-- A quotient is no larger than what is divided. -/
theorem Fits.tdiv (fits : |x| < 2 ^ bits) (y : Int) : Fits bits (x.tdiv y) :=
  Fits.of_abs_lt (by
    have smaller := Int.natAbs_tdiv_le_natAbs x y
    rw [Int.abs_eq_natAbs] at fits ⊢
    omega)

end Signed
