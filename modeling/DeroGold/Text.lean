import DeroGold.Lib.InputStream
import Mathlib.Data.Nat.Bitwise

/-!
Letters and hexadecimal text (`common/StringTools.cpp`). A string is a list of bytes.
-/

namespace DeroGold

open List

/-- `::tolower` of the C locale. -/
def toLower (c : UInt8) : UInt8 := if 65 ≤ c && c ≤ 90 then c + 32 else c

/-- The value of a hexadecimal digit, which may be a small or a capital letter. -/
def characterValue (c : UInt8) : Option Nat :=
  if 48 ≤ c && c ≤ 57 then some (c.toNat - 48)
  else if 65 ≤ c && c ≤ 70 then some (c.toNat - 55)
  else if 97 ≤ c && c ≤ 102 then some (c.toNat - 87)
  else none

/-- Pairs of digits are written over the buffer up to the first character that is no digit. -/
def fillHex : Bytes → Bytes → Bytes × Bool
  | c1 :: c2 :: text, byte :: buffer =>
    match characterValue c1, characterValue c2 with
    | some value1, some value2 =>
      let filled := fillHex text buffer
      (UInt8.ofNat (value1 <<< 4 ||| value2) :: filled.1, filled.2)
    | _, _ => (byte :: buffer, false)
  | _, buffer => (buffer, true)

theorem length_fillHex (text buffer : Bytes) : (fillHex text buffer).1.length = buffer.length := by
  fun_induction fillHex text buffer with
  | case1 c1 c2 text byte buffer value1 value2 digit1 digit2 filled ih => simp [filled, ih]
  | case2 | case3 => rfl

/-- What is in the variable after `podFromHex`, and whether all of it was written. -/
def podFromHex {size : Nat} (text : Bytes) (initial : Pod size) : Pod size × Bool :=
  if text.length % 2 ≠ 0 ∨ size < text.length / 2 then (initial, false)
  else
    (⟨(fillHex text initial.val).1, by rw [length_fillHex, initial.property]⟩,
      (fillHex text initial.val).2 && text.length / 2 == size)

def hexDigit (value : Nat) : UInt8 :=
  ([48, 49, 50, 51, 52, 53, 54, 55, 56, 57, 97, 98, 99, 100, 101, 102] : Bytes).getD value 0

def toHex (bytes : Bytes) : Bytes :=
  bytes.flatMap fun byte => [hexDigit (byte.toNat >>> 4), hexDigit (byte.toNat &&& 15)]

def podToHex {size : Nat} (pod : Pod size) : Bytes := toHex pod.val

/-! ### Reading and printing -/

variable {c : UInt8} {value size : Nat} {text buffer : Bytes} {initial : Pod size}

theorem characterValue_lt (found : characterValue c = some value) : value < 16 :=
  forall_byte (P := fun c => ∀ v ∈ characterValue c, v < 16) (by decide +kernel) c value found

/-- A digit is printed as the small letter. -/
theorem hexDigit_of_characterValue (found : characterValue c = some value) :
    hexDigit value = toLower c :=
  forall_byte (P := fun c => ∀ v ∈ characterValue c, hexDigit v = toLower c) (by decide +kernel) c
    value found

/-- What is printed is read as a digit, also when it is lower-cased again. -/
theorem characterValue_isSome_toLower (c : UInt8) :
    (characterValue (toLower c)).isSome = (characterValue c).isSome := by
  revert c
  exact forall_byte (by decide +kernel)

theorem toHex_cons (byte : UInt8) (bytes : Bytes) :
    toHex (byte :: bytes) = hexDigit (byte.toNat >>> 4) :: hexDigit (byte.toNat &&& 15) :: toHex bytes :=
  rfl

theorem length_toHex (bytes : Bytes) : (toHex bytes).length = 2 * bytes.length := by
  induction bytes with
  | nil => rfl
  | cons byte bytes ih =>
    rw [toHex_cons, length_cons, length_cons, ih, length_cons]
    omega

/-- Every character that is printed is a digit. -/
theorem isSome_of_mem_toHex {bytes : Bytes} : ∀ c ∈ toHex bytes, (characterValue c).isSome = true := by
  have every : ∀ v : Fin 16, (characterValue (hexDigit v)).isSome = true := by decide +kernel
  induction bytes with
  | nil => simp [toHex]
  | cons byte bytes ih =>
    intro c mem
    have high : byte.toNat >>> 4 < 16 := by
      rw [Nat.shiftRight_eq_div_pow]
      have := byte.toNat_lt
      omega
    have low : byte.toNat &&& 15 < 16 := by
      rw [Nat.and_two_pow_sub_one_eq_mod byte.toNat 4]
      omega
    rw [toHex_cons, mem_cons, mem_cons] at mem
    rcases mem with rfl | rfl | mem
    · exact every ⟨_, high⟩
    · exact every ⟨_, low⟩
    · exact ih c mem

/-- Two digits make a byte that is printed as the two digits. -/
theorem toHex_pair {c1 c2 : UInt8} {value1 value2 : Nat} (digit1 : characterValue c1 = some value1)
    (digit2 : characterValue c2 = some value2) (bytes : Bytes) :
    toHex (UInt8.ofNat (value1 <<< 4 ||| value2) :: bytes) =
      toLower c1 :: toLower c2 :: toHex bytes := by
  have small1 := characterValue_lt digit1
  have small2 := characterValue_lt digit2
  have byte : value1 <<< 4 ||| value2 = value1 * 16 + value2 := by
    rw [Nat.shiftLeft_eq, mul_comm, ← Nat.two_pow_add_eq_or_of_lt small2, mul_comm]
  have byte_lt : value1 * 16 + value2 < 256 := by omega
  have number : (UInt8.ofNat (value1 * 16 + value2)).toNat = value1 * 16 + value2 := by
    rw [UInt8.toNat_ofNat']
    omega
  have high : (value1 * 16 + value2) >>> 4 = value1 := by
    rw [Nat.shiftRight_eq_div_pow]
    omega
  have low : (value1 * 16 + value2) &&& 15 = value2 := by
    rw [Nat.and_two_pow_sub_one_eq_mod _ 4]
    omega
  rw [toHex_cons, byte, number, high, low, hexDigit_of_characterValue digit1,
    hexDigit_of_characterValue digit2]

/-- Text of digits that fills the buffer is printed as it was, in small letters. -/
theorem toHex_fillHex (digits : ∀ c ∈ text, (characterValue c).isSome = true)
    (full : text.length = 2 * buffer.length) : toHex (fillHex text buffer).1 = text.map toLower := by
  induction buffer generalizing text with
  | nil =>
    obtain rfl := length_eq_zero_iff.1 full
    rfl
  | cons byte buffer ih =>
    obtain ⟨c1, rest, rfl⟩ : ∃ c1 rest, text = c1 :: rest :=
      exists_cons_of_length_pos (by rw [full, length_cons]; omega)
    obtain ⟨c2, text, rfl⟩ : ∃ c2 text, rest = c2 :: text :=
      exists_cons_of_length_pos (by simp only [length_cons] at full; omega)
    obtain ⟨value1, digit1⟩ := Option.isSome_iff_exists.1 (digits c1 (by simp))
    obtain ⟨value2, digit2⟩ := Option.isSome_iff_exists.1 (digits c2 (by simp))
    have rest := @ih text (fun c mem => digits c (by simp [mem])) (by simpa [mul_add] using full)
    simp only [fillHex, digit1, digit2]
    rw [toHex_pair digit1 digit2, rest]
    rfl

theorem toLower_toLower (c : UInt8) : toLower (toLower c) = toLower c := by
  revert c
  exact forall_byte (by decide +kernel)

/-- Text that is read to its end into the buffer has digits only. -/
theorem digits_of_fillHex (read : (fillHex text buffer).2 = true)
    (full : text.length = 2 * buffer.length) : ∀ c ∈ text, (characterValue c).isSome = true := by
  fun_induction fillHex text buffer with
  | case1 c1 c2 text byte buffer value1 value2 digit1 digit2 filled ih =>
    have rest := ih read (by simpa [mul_add] using full)
    simp only [forall_mem_cons, digit1, digit2, Option.isSome_some, true_and]
    exact rest
  | case2 => cases read
  | case3 text buffer no_pair =>
    cases buffer with
    | nil =>
      obtain rfl := length_eq_zero_iff.1 full
      simp
    | cons byte buffer =>
      rcases text with _ | ⟨c1, _ | ⟨c2, text⟩⟩
      · simp at full
      · simp only [length_cons, length_nil] at full
        omega
      · exact absurd rfl (no_pair c1 c2 text byte buffer rfl)

/-- A text of so many characters is printed back, in small letters, exactly when they are
digits. -/
theorem podToHex_podFromHex_iff (full : text.length = 2 * size) :
    (podToHex (podFromHex text initial).1).map toLower = text.map toLower ↔
      ∀ c ∈ text, (characterValue c).isSome = true := by
  have whole : ¬(text.length % 2 ≠ 0 ∨ size < text.length / 2) := by omega
  rw [podFromHex, if_neg whole]
  change (toHex (fillHex text initial.val).1).map toLower = _ ↔ _
  constructor
  · intro same c mem
    have printed : toLower c ∈ (toHex (fillHex text initial.val).1).map toLower :=
      same ▸ mem_map_of_mem mem
    obtain ⟨digit, digit_mem, digit_eq⟩ := mem_map.1 printed
    rw [← characterValue_isSome_toLower, ← digit_eq, characterValue_isSome_toLower]
    exact isSome_of_mem_toHex digit digit_mem
  · intro digits
    rw [toHex_fillHex digits (by rw [full, initial.property]), map_map]
    exact map_congr_left fun c _ => toLower_toLower c

theorem digits_of_podFromHex
    (read : (podFromHex text initial).2 = true) : ∀ c ∈ text, (characterValue c).isSome = true := by
  rw [podFromHex] at read
  split_ifs at read with fits
  obtain ⟨filled, length⟩ := Bool.and_eq_true_iff.1 read
  apply digits_of_fillHex filled
  have := beq_iff_eq.1 length
  rw [initial.property]
  omega

end DeroGold
