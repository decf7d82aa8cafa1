import DeroGold.Lib.InputStream
import Mathlib.Data.Nat.Digits.Lemmas

/-!
Numerals of a fixed length, numbers as they lie in the memory of a little-endian machine, and a
number as the sum of its digits, each at its place: 1010 is 1000 and 10.
-/

namespace ByteOrder

open List

open Nat (ofDigits digitsAppend)

variable {b num size : Nat}

theorem digitsAppend_succ (base : 1 < b) (length n : Nat) :
    digitsAppend b (length + 1) n = n % b :: digitsAppend b length (n / b) := by
  rcases eq_zero_or_pos n with rfl | pos
  · simp [digitsAppend, replicate_succ]
  · simp [digitsAppend, Nat.digits_def' base pos, Nat.add_sub_add_right]

theorem digitsAppend_ofDigits (base : 1 < b) {digits : List Nat}
    (small : ∀ d ∈ digits, d < b) : digitsAppend b digits.length (ofDigits b digits) = digits :=
  (Nat.setInvOn_digitsAppend_ofDigits base digits.length).1 ⟨rfl, small⟩

theorem ofDigits_digitsAppend (base : 1 < b) {length n : Nat} (fits : n < b ^ length) :
    ofDigits b (digitsAppend b length n) = n :=
  (Nat.setInvOn_digitsAppend_ofDigits base length).2 fits

/-! ### Bytes in memory -/

/-- The bytes of a number, least significant first. -/
def littleEndian (size num : Nat) : Bytes :=
  (List.range size).map fun i => UInt8.ofNat (num >>> (8 * i) % 256)

/-- The number whose bytes these are. -/
def ofLittleEndian (bytes : Bytes) : Nat := ofDigits 256 (bytes.map UInt8.toNat)

@[simp]
theorem length_littleEndian (size num : Nat) : (littleEndian size num).length = size := by
  simp [littleEndian]

theorem lt_of_mem_bytes {bytes : Bytes} : ∀ d ∈ bytes.map UInt8.toNat, d < 256 := by
  intro d mem
  obtain ⟨byte, -, rfl⟩ := mem_map.1 mem
  exact byte.toNat_lt

theorem ofLittleEndian_lt (bytes : Bytes) : ofLittleEndian bytes < 256 ^ bytes.length := by
  have bound : ofDigits 256 (bytes.map UInt8.toNat) < _ :=
    Nat.ofDigits_lt_base_pow_length (by decide) lt_of_mem_bytes
  rwa [length_map] at bound

theorem range_map_shift (num size : Nat) : (List.range size).map (fun i => num >>> (8 * i) % 256) =
      digitsAppend 256 size (num % 256 ^ size) := by
  induction size generalizing num with
  | zero => simp [digitsAppend, Nat.mod_one]
  | succ size ih =>
    have low : num % 256 ^ (size + 1) % 256 = num % 256 := by
      rw [pow_succ, mul_comm, Nat.mod_mul_right_mod]
    have high : num % 256 ^ (size + 1) / 256 = num / 256 % 256 ^ size := by
      rw [pow_succ, mul_comm, Nat.mod_mul_right_div_self]
    rw [digitsAppend_succ (by decide), low, high, ← ih, range_succ_eq_map, map_cons, map_map]
    congr 1
    apply map_congr_left
    intro i _
    have shift : 2 ^ (8 * (i + 1)) = 256 * 2 ^ (8 * i) := by
      rw [Nat.mul_succ, Nat.pow_add, Nat.mul_comm]
    simp [Nat.shiftRight_eq_div_pow, Nat.div_div_eq_div_mul, shift]

theorem littleEndian_eq (fits : num < 256 ^ size) :
    littleEndian size num = (digitsAppend 256 size num).map UInt8.ofNat := by
  rw [littleEndian, ← Nat.mod_eq_of_lt fits, ← range_map_shift, map_map, Nat.mod_eq_of_lt fits]
  rfl

theorem littleEndian_ofLittleEndian (bytes : Bytes) :
    littleEndian bytes.length (ofLittleEndian bytes) = bytes := by
  have digits : digitsAppend 256 _ (ofDigits 256 (bytes.map UInt8.toNat)) = _ :=
    digitsAppend_ofDigits (by decide) lt_of_mem_bytes
  rw [length_map] at digits
  rw [littleEndian_eq (ofLittleEndian_lt bytes), ofLittleEndian, digits, map_map]
  exact map_id'' (fun _ => UInt8.ofNat_toNat) bytes

theorem ofLittleEndian_littleEndian (fits : num < 256 ^ size) :
    ofLittleEndian (littleEndian size num) = num := by
  have bytes : (digitsAppend 256 size num).map (UInt8.toNat ∘ UInt8.ofNat) =
      digitsAppend 256 size num := by
    conv_rhs => rw [← map_id (digitsAppend 256 size num)]
    apply map_congr_left
    intro d mem
    have small : d < 256 := Nat.lt_of_mem_digitsAppend (by decide) _ _ mem
    rw [Function.comp_apply, UInt8.toNat_ofNat', id]
    omega
  rw [ofLittleEndian, littleEndian_eq fits, map_map, bytes, ofDigits_digitsAppend (by decide) fits]

end ByteOrder

namespace Digits

/-- Digits, lowest first, at places from `order` on, without those that are zero. -/
def atPlaces (b : Nat) : Nat → List Nat → List Nat
  | _, [] => []
  | order, d :: digits =>
    if d = 0 then atPlaces b (order * b) digits else d * order :: atPlaces b (order * b) digits

/-- The parts of a number, smallest first. -/
def parts (b n : Nat) : List Nat := atPlaces b 1 (Nat.digits b n)

variable {b : Nat}

theorem sum_atPlaces (order : Nat) (digits : List Nat) :
    (atPlaces b order digits).sum = order * Nat.ofDigits b digits := by
  induction digits generalizing order with
  | nil => simp [atPlaces]
  | cons d digits ih =>
    have rest : order * Nat.ofDigits b (d :: digits) =
        d * order + order * b * Nat.ofDigits b digits := by
      rw [Nat.ofDigits_cons]
      ring
    rw [atPlaces, rest]
    split_ifs with zero
    · simp [ih, zero]
    · simp [ih]

/-- The parts add up to the number. -/
theorem sum_parts (b n : Nat) : (parts b n).sum = n := by
  rw [parts, sum_atPlaces, Nat.one_mul, Nat.ofDigits_digits]

end Digits
