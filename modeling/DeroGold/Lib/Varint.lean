import Mathlib.Data.Nat.Bitwise
import Mathlib.Algebra.Order.Ring.Int
import Mathlib.Tactic.Ring

/-!
Numbers of variable length: seven bits a byte, lowest bits first, the highest bit of a byte set
when another byte follows.

A reader is given the width of the number it fills. It reports a byte that does not fit the
width and a last byte that adds nothing, so that a number has one spelling:
`scan_encode` and `eq_encode_of_scan`. Whether an input that ends inside a number is an
error is left to the caller (`Scan.ended`).
-/

namespace Varint

open List

/-- The bytes of a number. -/
def encode (n : Nat) : List UInt8 :=
  if n < 0x80 then [UInt8.ofNat n]
  else UInt8.ofNat (n &&& 0x7f ||| 0x80) :: encode (n >>> 7)
termination_by n
decreasing_by
  rw [Nat.shiftRight_eq_div_pow]
  omega

/-- What a reader met, with the value it had read when it stopped. -/
inductive Scan where
  | number (value : Nat) (rest : List UInt8)
  | ended (value : Nat)
  | overflow (value : Nat)
  | redundant (value : Nat)
  deriving DecidableEq

/-- Read a number of a width, of which `shift` bits stand in `value` already. -/
def scan (bits : Nat) : Nat → Nat → List UInt8 → Scan
  | _, value, [] => .ended value
  | shift, value, byte :: rest =>
    if bits ≤ shift + 7 ∧ 2 ^ (bits - shift) ≤ byte.toNat then .overflow value
    else if byte = 0 ∧ shift ≠ 0 then .redundant value
    else
      let value := (value ||| (byte.toNat &&& 0x7f) <<< shift) % 2 ^ bits
      if byte.toNat &&& 0x80 = 0 then .number value rest else scan bits (shift + 7) value rest

/-! ### One byte -/

theorem low_bits (n : Nat) : n &&& 0x7f = n % 128 := Nat.and_two_pow_sub_one_eq_mod n 7

theorem high_bit_eq_zero {byte : UInt8} : byte.toNat &&& 0x80 = 0 ↔ byte.toNat < 128 := by
  have every : ∀ n : Fin 256, n.val &&& 0x80 = 0 ↔ n.val < 128 := by decide +kernel
  exact every ⟨byte.toNat, byte.toNat_lt⟩

theorem low_or_high (n : Nat) : n &&& 0x7f ||| 0x80 = n % 128 + 128 := by
  have small : n % 128 < 2 ^ 7 := Nat.mod_lt _ (by decide)
  rw [low_bits, Nat.or_comm, ← Nat.two_pow_add_eq_or_of_lt small 1]
  omega

theorem encode_of_lt {n : Nat} (h : n < 128) : encode n = [UInt8.ofNat n] := by
  rw [encode, if_pos h]

theorem encode_of_le {n : Nat} (h : 128 ≤ n) :
    encode n = UInt8.ofNat (n % 128 + 128) :: encode (n / 128) := by
  rw [encode, if_neg (by omega), low_or_high, Nat.shiftRight_eq_div_pow]

theorem encode_ne_nil (n : Nat) : encode n ≠ [] := by
  rw [encode]
  split <;> simp

/-- The last byte has its highest bit clear. -/
theorem exists_mem_encode_lt (n : Nat) : ∃ byte ∈ encode n, byte.toNat < 128 := by
  induction n using Nat.strongRecOn with
  | ind n ih =>
    by_cases h : n < 128
    · refine ⟨UInt8.ofNat n, by simp [encode_of_lt h], ?_⟩
      rw [UInt8.toNat_ofNat']
      omega
    · obtain ⟨byte, mem, small⟩ := ih (n / 128) (by omega)
      exact ⟨byte, by simp [encode_of_le (by omega : 128 ≤ n), mem], small⟩

/-! ### One step of the reader -/

section Step

variable {bits shift value : Nat} {byte : UInt8} {rest : List UInt8}

section

variable (fits : value < 2 ^ shift)
include fits

/-- New bits go above the ones already read. -/
theorem or_shift (n : Nat) : value ||| n <<< shift = value + n * 2 ^ shift := by
  rw [Nat.or_comm, Nat.shiftLeft_eq, mul_comm, ← Nat.two_pow_add_eq_or_of_lt fits]
  omega

/-- Bits above the ones already read. -/
theorem add_digit_lt {digit count : Nat} (small : digit < count) :
    value + digit * 2 ^ shift < count * 2 ^ shift :=
  calc value + digit * 2 ^ shift
      < 2 ^ shift + digit * 2 ^ shift := by omega
    _ = (digit + 1) * 2 ^ shift := by ring
    _ ≤ count * 2 ^ shift := Nat.mul_le_mul_right _ small

/-- A byte without overflow leaves a number of the reader's width. -/
theorem add_lt_two_pow (inside : shift < bits)
    (room : ¬(bits ≤ shift + 7 ∧ 2 ^ (bits - shift) ≤ byte.toNat)) :
    value + byte.toNat % 128 * 2 ^ shift < 2 ^ bits := by
  have digit : byte.toNat % 128 < 2 ^ (bits - shift) := by
    by_cases near : bits ≤ shift + 7
    · have small : byte.toNat < 2 ^ (bits - shift) := by
        by_contra large
        exact room ⟨near, by omega⟩
      exact lt_of_le_of_lt (Nat.mod_le _ _) small
    · have pow : 2 ^ 7 ≤ 2 ^ (bits - shift) := Nat.pow_le_pow_right (by decide) (by omega)
      have := Nat.mod_lt byte.toNat (by decide : 128 > 0)
      omega
  have split : 2 ^ bits = 2 ^ (bits - shift) * 2 ^ shift := by
    rw [← pow_add]
    congr 1
    omega
  rw [split]
  exact add_digit_lt fits digit

/-- A last byte. -/
theorem scan_last (inside : shift < bits) (small : byte.toNat < 128)
    (room : ¬(bits ≤ shift + 7 ∧ 2 ^ (bits - shift) ≤ byte.toNat)) (adds : shift ≠ 0 → byte ≠ 0) :
    scan bits shift value (byte :: rest) = .number (value + byte.toNat * 2 ^ shift) rest := by
  have needed : ¬(byte = 0 ∧ shift ≠ 0) := fun h => adds h.2 h.1
  have whole : byte.toNat % 128 = byte.toNat := Nat.mod_eq_of_lt small
  have bound := add_lt_two_pow fits inside room
  rw [whole] at bound
  rw [scan, if_neg room, if_neg needed]
  simp only [low_bits, whole, or_shift fits, Nat.mod_eq_of_lt bound,
    if_pos (high_bit_eq_zero.2 small)]

/-- A byte that another one follows. -/
theorem scan_next (inside : shift < bits) (large : 128 ≤ byte.toNat)
    (room : ¬(bits ≤ shift + 7 ∧ 2 ^ (bits - shift) ≤ byte.toNat)) :
    scan bits shift value (byte :: rest) =
      scan bits (shift + 7) (value + byte.toNat % 128 * 2 ^ shift) rest := by
  have needed : ¬(byte = 0 ∧ shift ≠ 0) := by
    rintro ⟨rfl, -⟩
    exact absurd large (by decide)
  have more : ¬byte.toNat &&& 0x80 = 0 := by
    rw [high_bit_eq_zero]
    omega
  have bound := add_lt_two_pow fits inside room
  rw [scan, if_neg room, if_neg needed]
  simp only [low_bits, or_shift fits, Nat.mod_eq_of_lt bound, if_neg more]

/-- The bits read so far stay below the next byte's place. -/
theorem add_lt_next : value + byte.toNat % 128 * 2 ^ shift < 2 ^ (shift + 7) := by
  rw [add_comm shift, pow_add]
  exact add_digit_lt fits (Nat.mod_lt _ (by decide))

end

/-- A continued byte leaves room for one more: it is itself at least `2 ^ 7`. -/
theorem next_lt_bits (inside : shift < bits) (large : 128 ≤ byte.toNat)
    (room : ¬(bits ≤ shift + 7 ∧ 2 ^ (bits - shift) ≤ byte.toNat)) : shift + 7 < bits := by
  by_contra near
  refine room ⟨by omega, ?_⟩
  have pow : 2 ^ (bits - shift) ≤ 2 ^ 7 := Nat.pow_le_pow_right (by decide) (by omega)
  omega

end Step

/-! ### Whole numbers -/

section Whole

variable {bits : Nat}
  {n : Nat}

theorem toNat_ofNat (h : n < 256) : (UInt8.ofNat n).toNat = n := by
  rw [UInt8.toNat_ofNat']
  omega

/-- Reading goes through the bytes of a number, also above bits that are read already. -/
theorem scan_encode_from (n : Nat) : ∀ {shift value : Nat}, value < 2 ^ shift → shift < bits →
    n < 2 ^ (bits - shift) → (shift ≠ 0 → n ≠ 0) → ∀ rest : List UInt8,
    scan bits shift value (encode n ++ rest) = .number (value + n * 2 ^ shift) rest := by
  induction n using Nat.strongRecOn with
  | ind n ih =>
    intro shift value fits inside room adds rest
    by_cases small : n < 128
    · have byte : (UInt8.ofNat n).toNat = n := toNat_ofNat (by omega)
      rw [encode_of_lt small, singleton_append, scan_last fits inside, byte]
      · rw [byte]
        exact small
      · rw [byte]
        omega
      · intro shifted zero
        apply adds shifted
        rw [← byte, zero]
        rfl
    · have byte : (UInt8.ofNat (n % 128 + 128)).toNat = n % 128 + 128 := toNat_ofNat (by omega)
      -- the number has more than seven bits, so that the next byte is within the width
      have far : shift + 7 < bits := by
        by_contra near
        have pow : 2 ^ (bits - shift) ≤ 2 ^ 7 := Nat.pow_le_pow_right (by decide) (by omega)
        omega
      have quotient : n / 128 < 2 ^ (bits - (shift + 7)) := by
        have split : 2 ^ (bits - shift) = 2 ^ (bits - (shift + 7)) * 128 := by
          rw [show bits - shift = bits - (shift + 7) + 7 by omega, Nat.pow_add]
        rw [split] at room
        exact Nat.div_lt_of_lt_mul (by rwa [Nat.mul_comm])
      rw [encode_of_le (by omega), cons_append, scan_next fits inside (by omega) (by omega),
        ih (n / 128) (by omega) (add_lt_next fits) far quotient (by omega)]
      have digits : n = n % 128 + 128 * (n / 128) := (Nat.mod_add_div n 128).symm
      rw [byte, Nat.add_mod_right, Nat.mod_mod, pow_add]
      congr 1
      calc value + n % 128 * 2 ^ shift + n / 128 * (2 ^ shift * 2 ^ 7)
          = value + (n % 128 + 128 * (n / 128)) * 2 ^ shift := by ring
        _ = value + n * 2 ^ shift := by rw [← digits]

/-- A number is read back from its bytes, whatever follows them. -/
theorem scan_encode (wide : 0 < bits) (h : n < 2 ^ bits) (rest : List UInt8) :
    scan bits 0 0 (encode n ++ rest) = .number n rest := by
  rw [scan_encode_from n (by decide) wide (by simpa using h) (by simp) rest]
  simp

/-- A number ends where it ends, whatever follows. -/
theorem encode_append_inj {m : Nat} {left right : List UInt8}
    (same : encode m ++ left = encode n ++ right) : m = n ∧ left = right := by
  have wide : ∀ k : Nat, k < 2 ^ (k + 1) := fun k =>
    lt_trans (Nat.lt_succ_self k) (Nat.lt_two_pow_self)
  have m_lt : m < 2 ^ (m + n + 1) :=
    lt_of_lt_of_le (wide m) (Nat.pow_le_pow_right (by decide) (by omega))
  have n_lt : n < 2 ^ (m + n + 1) :=
    lt_of_lt_of_le (wide n) (Nat.pow_le_pow_right (by decide) (by omega))
  have read := scan_encode (Nat.succ_pos (m + n)) m_lt left
  rw [same, scan_encode (Nat.succ_pos (m + n)) n_lt right] at read
  cases read
  exact ⟨rfl, rfl⟩

/-- What is read above the bits read already is spelled as `encode` spells it. -/
theorem encode_of_scan_from {bytes rest : List UInt8} {shift value read : Nat}
    (fits : value < 2 ^ shift) (inside : shift < bits)
    (found : scan bits shift value bytes = .number read rest) :
    ∃ n, read = value + n * 2 ^ shift ∧ read < 2 ^ bits ∧ (shift ≠ 0 → n ≠ 0) ∧
      bytes = encode n ++ rest := by
  induction bytes generalizing shift value with
  | nil => exact absurd found (by simp [scan])
  | cons byte bytes ih =>
    by_cases room : bits ≤ shift + 7 ∧ 2 ^ (bits - shift) ≤ byte.toNat
    · exact absurd found (by rw [scan, if_pos room]; simp)
    have bound := add_lt_two_pow fits inside room
    by_cases small : byte.toNat < 128
    · by_cases adds : byte = 0 ∧ shift ≠ 0
      · exact absurd found (by rw [scan, if_neg room, if_pos adds]; simp)
      rw [scan_last fits inside small room (fun shifted zero => adds ⟨zero, shifted⟩)] at found
      cases found
      rw [Nat.mod_eq_of_lt small] at bound
      refine ⟨byte.toNat, rfl, bound, ?_, ?_⟩
      · intro shifted zero
        exact adds ⟨UInt8.toNat_inj.1 zero, shifted⟩
      · rw [encode_of_lt small, UInt8.ofNat_toNat, singleton_append]
    · rw [scan_next fits inside (by omega) room] at found
      obtain ⟨n, read_eq, read_lt, positive, rfl⟩ :=
        ih (add_lt_next fits) (next_lt_bits inside (by omega) room) found
      have n_pos : n ≠ 0 := positive (by omega)
      have byte_lt := byte.toNat_lt
      refine ⟨byte.toNat % 128 + 128 * n, ?_, read_lt, by omega, ?_⟩
      · rw [read_eq, pow_add]
        ring
      · have low : (byte.toNat % 128 + 128 * n) % 128 + 128 = byte.toNat := by omega
        have high : (byte.toNat % 128 + 128 * n) / 128 = n := by omega
        have two_bytes : 128 ≤ byte.toNat % 128 + 128 * n := by omega
        rw [encode_of_le two_bytes, low, high, UInt8.ofNat_toNat, cons_append]

/-- A number that is read was spelled as `encode` spells it. -/
theorem eq_encode_of_scan {bytes rest : List UInt8} (wide : 0 < bits)
    (found : scan bits 0 0 bytes = .number n rest) : n < 2 ^ bits ∧ bytes = encode n ++ rest := by
  obtain ⟨m, read_eq, read_lt, -, bytes_eq⟩ := encode_of_scan_from (by decide) wide found
  obtain rfl : n = m := by simpa using read_eq
  exact ⟨read_lt, bytes_eq⟩

/-- An input that ends inside a number holds only bytes that ask for another one. -/
theorem le_of_scan_ended {bytes : List UInt8} {shift value read : Nat}
    (ended : scan bits shift value bytes = .ended read) : ∀ byte ∈ bytes, 128 ≤ byte.toNat := by
  induction bytes generalizing shift value read with
  | nil => simp
  | cons byte bytes ih =>
    rw [scan] at ended
    split_ifs at ended with _ _ last
    have large : ¬byte.toNat < 128 := fun small => last (high_bit_eq_zero.2 small)
    exact forall_mem_cons.2 ⟨Nat.le_of_not_lt large, ih ended⟩

end Whole

end Varint
