import DeroGold.Lib.Varint
import DeroGold.Lib.Wide
import DeroGold.Lib.ByteOrder
import DeroGold.Types

/-!
Addresses as text (`common/Base58.cpp`).

The data is cut into blocks of eight bytes. A block is a number, written with a fixed
count of letters in base 58; a shorter last block has a count of its own. In front of the
data goes a tag as a number of variable length, behind it the first bytes of a hash.

Results:
* `decode_encode` / `encode_of_decode`: the letters and the bytes determine each other;
* `decodeAddr_encodeAddr`: an address is read back;
* `addr_one_spelling`: an accepted text is the one the writer makes exactly when its tag ends
  within the data.
-/

namespace DeroGold.Base58

open List Varint ByteOrder Option

open Nat (ofDigits digitsAppend)
open ByteOrder (digitsAppend_succ digitsAppend_ofDigits ofDigits_digitsAppend)

def alphabet : Bytes :=
  ['1', '2', '3', '4', '5', '6', '7', '8', '9', 'A', 'B', 'C', 'D', 'E', 'F', 'G', 'H', 'J', 'K',
    'L', 'M', 'N', 'P', 'Q', 'R', 'S', 'T', 'U', 'V', 'W', 'X', 'Y', 'Z', 'a', 'b', 'c', 'd', 'e',
    'f', 'g', 'h', 'i', 'j', 'k', 'm', 'n', 'o', 'p', 'q', 'r', 's', 't', 'u', 'v', 'w', 'x', 'y',
    'z'].map fun letter => UInt8.ofNat letter.toNat

def alphabetSize : Nat := 58

def letter (digit : Nat) : UInt8 := alphabet.getD digit 0

/-- The digit a letter stands for, if it is one of the alphabet. -/
def reverseAlphabet (letter : UInt8) : Option Nat := alphabet.idxOf? letter

/-- How many letters a block of so many bytes takes. -/
def encodedBlockSizes : List Nat := [0, 2, 3, 5, 6, 7, 9, 10, 11]

def fullBlockSize : Nat := 8

def fullEncodedBlockSize : Nat := 11

def encodedBlockSize (size : Nat) : Nat := encodedBlockSizes.getD size 0

/-- How many bytes so many letters stand for, if any count of bytes takes them. -/
def decodedBlockSize (size : Nat) : Option Nat := encodedBlockSizes.idxOf? size

def addrChecksumSize : Nat := 4

/-- The number in a block, its first byte the most significant. -/
def uint8beTo64 (block : Bytes) : Nat := block.foldl (fun num byte => num <<< 8 ||| byte.toNat) 0

/-- The last `size` of the eight bytes of a number, most significant first. -/
def uint64To8be (num size : Nat) : Bytes := (littleEndian size num).reverse

/-- The digits of a number, written from position `i` down to the beginning of the block; `none`
when the digits would go beyond it. -/
def writeDigits : Nat → Nat → Bytes → Option Bytes
  | i, num, res =>
    if num = 0 then some res
    else match i with
      | 0 => none
      | i + 1 => writeDigits i (num / alphabetSize) (res.set i (letter (num % alphabetSize)))

def encodeBlock (block : Bytes) : Option Bytes :=
  let size := encodedBlockSize block.length
  writeDigits size (uint8beTo64 block) (List.replicate size (letter 0))

/-- The digits of a block from the last one on, added up in 64 bits. -/
def readDigits : Bytes → Nat → Nat → Option Nat
  | [], num, _ => some num
  | letter :: letters, num, order =>
    match reverseAlphabet letter with
    | none => none
    | some digit =>
      let product := Wide.mul128 order digit
      let sum := uint64 (num + product.2)
      if sum < num ∨ product.1 ≠ 0 then none
      else readDigits letters sum (uint64 (order * alphabetSize))

def decodeBlock (block : Bytes) : Option Bytes :=
  match decodedBlockSize block.length with
  | none => none
  | some size =>
    if size = 0 then none
    else match readDigits block.reverse 0 1 with
      | none => none
      | some num =>
        if size < fullBlockSize ∧ 2 ^ (8 * size) ≤ num then none else some (uint64To8be num size)

/-- So many full blocks, and what is left as the last one. -/
def encodeBlocks : Nat → Bytes → Option Bytes
  | 0, data => if data.isEmpty then some [] else encodeBlock data
  | count + 1, data => do
    let block ← encodeBlock (data.take fullBlockSize)
    let blocks ← encodeBlocks count (data.drop fullBlockSize)
    return block ++ blocks

def encode (data : Bytes) : Option Bytes :=
  if data.isEmpty then some [] else encodeBlocks (data.length / fullBlockSize) data

def decodeBlocks : Nat → Bytes → Option Bytes
  | 0, enc => if enc.isEmpty then some [] else decodeBlock enc
  | count + 1, enc => do
    let block ← decodeBlock (enc.take fullEncodedBlockSize)
    let blocks ← decodeBlocks count (enc.drop fullEncodedBlockSize)
    return block ++ blocks

def decode (enc : Bytes) : Option Bytes :=
  if enc.isEmpty then some []
  else if (decodedBlockSize (enc.length % fullEncodedBlockSize)).isNone then none
  else decodeBlocks (enc.length / fullEncodedBlockSize) enc

section Address

-- the hash, of whose bytes the first four are appended
variable (cnFastHash : Bytes → Pod 32)

def checksum (data : Bytes) : Bytes := (cnFastHash data).val.take addrChecksumSize

def encodeAddr (tag : Nat) (data : Bytes) : Option Bytes :=
  let buf := Varint.encode tag ++ data
  encode (buf ++ checksum cnFastHash buf)

/-- The data without its checksum, if the checksum is right. -/
def checkedData (addr : Bytes) : Option Bytes :=
  match decode addr with
  | none => none
  | some addrData =>
    if addrData.length ≤ addrChecksumSize then none
    else
      let payload := addrData.take (addrData.length - addrChecksumSize)
      if checksum cnFastHash payload ≠ addrData.drop (addrData.length - addrChecksumSize) then none
      else some payload

/-- The tag of an address and its data. An input that ends inside the tag is taken for a tag
without data. -/
def decodeAddr (addr : Bytes) : Option (Nat × Bytes) :=
  match checkedData cnFastHash addr with
  | none => none
  | some payload =>
    match scan 64 0 0 payload with
    | .number tag data => some (tag, data)
    | .ended tag => if payload.isEmpty then none else some (tag, [])
    | .overflow _ => none
    | .redundant _ => none

end Address

/-! ### Letters and block sizes -/

variable {d size num : Nat} {block : Bytes}

theorem reverseAlphabet_letter (h : d < 58) : reverseAlphabet (letter d) = some d := by
  have every : ∀ d : Fin 58, reverseAlphabet (letter d) = some d.val := by decide +kernel
  exact every ⟨d, h⟩

variable {c : UInt8} {letters enc : Bytes} {j count : Nat}

theorem eq_letter_of_reverseAlphabet (found : reverseAlphabet c = some d) : d < 58 ∧ c = letter d :=
  forall_byte (P := fun c => ∀ d ∈ reverseAlphabet c, d < 58 ∧ c = letter d) (by decide +kernel) c
    d found

theorem decodedBlockSize_encodedBlockSize (h : size ≤ 8) :
    decodedBlockSize (encodedBlockSize size) = some size := by
  have every : ∀ size : Fin 9, decodedBlockSize (encodedBlockSize size) = some size.val := by
    decide +kernel
  exact every ⟨size, by omega⟩

theorem encodedBlockSize_of_decodedBlockSize {length : Nat}
    (found : decodedBlockSize length = some size) : size ≤ 8 ∧ length = encodedBlockSize size := by
  obtain ⟨inside, same, -⟩ := findIdx?_eq_some_iff_getElem.1 found
  have bound : size < 9 := inside
  refine ⟨by omega, ?_⟩
  rw [encodedBlockSize, getD_eq_getElem _ _ inside]
  exact (beq_iff_eq.1 same).symm

/-- The letters of a block have room for every number in it. -/
theorem pow_le_pow_encodedBlockSize (h : size ≤ 8) : 256 ^ size ≤ 58 ^ encodedBlockSize size := by
  have every : ∀ size : Fin 9, 256 ^ size.val ≤ 58 ^ encodedBlockSize size := by decide +kernel
  exact every ⟨size, by omega⟩

theorem encodedBlockSize_le (h : size ≤ 8) : encodedBlockSize size ≤ 11 := by
  have every : ∀ size : Fin 9, encodedBlockSize size ≤ 11 := by decide +kernel
  exact every ⟨size, by omega⟩

theorem encodedBlockSize_lt (h : size < 8) : encodedBlockSize size < 11 := by
  have every : ∀ size : Fin 8, encodedBlockSize size < 11 := by decide +kernel
  exact every ⟨size, h⟩

theorem encodedBlockSize_eq_zero (h : size ≤ 8) : encodedBlockSize size = 0 ↔ size = 0 := by
  have every : ∀ size : Fin 9, encodedBlockSize size = 0 ↔ size.val = 0 := by decide +kernel
  exact every ⟨size, by omega⟩

/-! ### The number in a block -/

theorem uint8beTo64_eq (block : Bytes) : uint8beTo64 block = ofLittleEndian block.reverse := by
  induction block using reverseRecOn with
  | nil => rfl
  | append_singleton block byte ih =>
    have last : uint8beTo64 (block ++ [byte]) = uint8beTo64 block <<< 8 ||| byte.toNat := by
      simp [uint8beTo64]
    rw [last, ih, Nat.shiftLeft_eq, mul_comm, ← Nat.two_pow_add_eq_or_of_lt byte.toNat_lt,
      reverse_append, reverse_singleton, singleton_append,
      add_comm]
    exact Nat.ofDigits_cons.symm

theorem uint8beTo64_lt (block : Bytes) : uint8beTo64 block < 256 ^ block.length := by
  rw [uint8beTo64_eq, ← length_reverse]
  exact ofLittleEndian_lt block.reverse

theorem uint64To8be_uint8beTo64 (block : Bytes) :
    uint64To8be (uint8beTo64 block) block.length = block := by
  have back := littleEndian_ofLittleEndian block.reverse
  rw [length_reverse] at back
  rw [uint64To8be, uint8beTo64_eq, back, reverse_reverse]

theorem uint8beTo64_uint64To8be (fits : num < 256 ^ size) :
    uint8beTo64 (uint64To8be num size) = num := by
  rw [uint8beTo64_eq, uint64To8be, reverse_reverse, ofLittleEndian_littleEndian fits]

/-! ### Writing and reading a block -/

theorem writeDigits_eq {i : Nat} (fits : num < 58 ^ i) (written : Bytes) :
    writeDigits i num (List.replicate i (letter 0) ++ written) =
      some (((digitsAppend 58 i num).map letter).reverse ++ written) := by
  induction i generalizing num written with
  | zero =>
    obtain rfl : num = 0 := by simpa using fits
    simp [writeDigits, digitsAppend]
  | succ i ih =>
    have fits' : num / 58 < 58 ^ i := Nat.div_lt_of_lt_mul (by rwa [pow_succ, mul_comm] at fits)
    by_cases zero : num = 0
    · subst zero
      simp [writeDigits, digitsAppend]
    · have set_last : (replicate (i + 1) (letter 0) ++ written).set i (letter (num % 58)) =
          replicate i (letter 0) ++ letter (num % 58) :: written := by
        rw [replicate_succ', append_assoc, set_append_right _ _ (by simp)]
        simp
      rw [writeDigits, if_neg zero]
      simp only [alphabetSize, set_last]
      rw [ih fits', digitsAppend_succ (by decide)]
      simp

/-- The letters of a block are its digits in base 58. -/
theorem encodeBlock_eq (h : block.length ≤ 8) :
    encodeBlock block = some (((digitsAppend 58 (encodedBlockSize block.length)
      (uint8beTo64 block)).map letter).reverse) := by
  have fits : uint8beTo64 block < 58 ^ encodedBlockSize block.length :=
    lt_of_lt_of_le (uint8beTo64_lt block) (pow_le_pow_encodedBlockSize h)
  have written := writeDigits_eq fits []
  simpa [encodeBlock] using written

/-- One digit more, with the overflow of the product and of the sum. -/
theorem readDigits_cons {order : Nat} (num_lt : num < 2 ^ 64)
    (order_lt : order < 2 ^ 64) (found : reverseAlphabet c = some d) :
    readDigits (c :: letters) num order =
      if num + order * d < 2 ^ 64 then readDigits letters (num + order * d) (uint64 (order * 58))
      else none := by
  have digit_lt : d < 2 ^ 64 := lt_trans (eq_letter_of_reverseAlphabet found).1 (by decide)
  have product := Wide.mul128_spec order_lt digit_lt
  have low_lt : (Wide.mul128 order d).2 < 2 ^ 64 := Nat.mod_lt _ (by decide)
  simp only [readDigits, found, alphabetSize]
  by_cases fits : num + order * d < 2 ^ 64
  · have high : (Wide.mul128 order d).1 = 0 := by omega
    have low : (Wide.mul128 order d).2 = order * d := by omega
    have sum : uint64 (num + order * d) = num + order * d := Nat.mod_eq_of_lt fits
    have no_overflow : ¬(num + order * d < num ∨ (0 : Nat) ≠ 0) := by omega
    rw [if_pos fits, high, low, sum, if_neg no_overflow]
  · have overflow : uint64 (num + (Wide.mul128 order d).2) < num ∨ (Wide.mul128 order d).1 ≠ 0 := by
      unfold uint64
      omega
    rw [if_neg fits, if_pos overflow]

/-- The places of a block are exact: only the one above its eleventh letter is too large. -/
theorem place_lt (h : j < 11) : 58 ^ j < 2 ^ 64 := by
  have every : ∀ j : Fin 11, 58 ^ j.val < 2 ^ 64 := by decide +kernel
  exact every ⟨j, h⟩

/-- What can be read are the letters of digits, and the number read is theirs. -/
theorem readDigits_eq_some_iff {num order j read : Nat} (num_lt : num < 2 ^ 64)
    (short : j + letters.length ≤ 11) (place : letters ≠ [] → order = 58 ^ j) :
    readDigits letters num order = some read ↔ ∃ digits : List Nat,
      letters = digits.map letter ∧ (∀ d ∈ digits, d < 58) ∧
        read = num + 58 ^ j * ofDigits 58 digits ∧ read < 2 ^ 64 := by
  induction letters generalizing num order j read with
  | nil =>
    constructor
    · rintro ⟨⟩
      exact ⟨[], rfl, by simp, by simp, num_lt⟩
    · rintro ⟨digits, none, -, rfl, -⟩
      obtain rfl := map_eq_nil_iff.1 none.symm
      simp [readDigits]
  | cons c letters ih =>
    obtain rfl := place (by simp)
    rw [length_cons] at short
    have place' : letters ≠ [] → uint64 (58 ^ j * 58) = 58 ^ (j + 1) := by
      intro more
      have := length_pos_of_ne_nil more
      rw [← pow_succ]
      exact Nat.mod_eq_of_lt (place_lt (by omega))
    have value : ∀ d digits, num + 58 ^ j * ofDigits 58 (d :: digits) =
        num + 58 ^ j * d + 58 ^ (j + 1) * ofDigits 58 digits := by
      intro d digits
      rw [Nat.ofDigits_cons, pow_succ]
      ring
    constructor
    · intro found
      cases digit : reverseAlphabet c with
      | none =>
        rw [readDigits, digit] at found
        cases found
      | some d =>
        obtain ⟨small, rfl⟩ := eq_letter_of_reverseAlphabet digit
        rw [readDigits_cons num_lt (place_lt (by omega)) digit] at found
        split_ifs at found with fits
        obtain ⟨digits, rfl, rest, rfl, read_lt⟩ := (ih fits (by omega) place').1 found
        exact ⟨d :: digits, rfl, forall_mem_cons.2 ⟨small, rest⟩, (value d digits).symm, read_lt⟩
    · rintro ⟨_ | ⟨d, digits⟩, same, small, rfl, read_lt⟩
      · cases same
      · cases same
        obtain ⟨small, rest⟩ := forall_mem_cons.1 small
        rw [value d digits] at read_lt ⊢
        rw [readDigits_cons num_lt (place_lt (by omega)) (reverseAlphabet_letter small),
          if_pos (by omega)]
        exact (ih (by omega) (by omega) place').2 ⟨digits, rfl, rest, rfl, read_lt⟩

/-- A block is read back, and its letters are as many as its size asks for. -/
theorem decodeBlock_encodeBlock (nonempty : block ≠ []) (h : block.length ≤ 8) :
    ∃ enc, encodeBlock block = some enc ∧ enc.length = encodedBlockSize block.length ∧
      decodeBlock enc = some block := by
  have num_lt := uint8beTo64_lt block
  have fits : uint8beTo64 block < 58 ^ encodedBlockSize block.length :=
    lt_of_lt_of_le num_lt (pow_le_pow_encodedBlockSize h)
  have in_word : uint8beTo64 block < 2 ^ 64 := by
    have pow : 256 ^ block.length ≤ 256 ^ 8 := Nat.pow_le_pow_right (by decide) h
    have word : 256 ^ 8 = 2 ^ 64 := by decide
    omega
  have length_digits := Nat.length_digitsAppend (by decide : 1 < 58) _ fits
  have value := ofDigits_digitsAppend (by decide) fits
  have short : 0 + ((digitsAppend 58 (encodedBlockSize block.length)
      (uint8beTo64 block)).map letter).length ≤ 11 := by
    rw [length_map, length_digits, zero_add]
    exact encodedBlockSize_le h
  have read := (@readDigits_eq_some_iff _ 0 1 0 _ (by decide) short fun _ => rfl).2
    ⟨_, rfl, fun d mem => Nat.lt_of_mem_digitsAppend (by decide : 1 < 58) _ _ mem, rfl,
      by simpa [value] using in_word⟩
  refine ⟨_, encodeBlock_eq h, by simp [length_digits], ?_⟩
  have not_empty : ¬block.length = 0 := by simpa using nonempty
  have no_overflow : ¬(block.length < fullBlockSize ∧ 2 ^ (8 * block.length) ≤ uint8beTo64 block) := by
    have pow : 2 ^ (8 * block.length) = 256 ^ block.length := by rw [Nat.pow_mul]
    omega
  rw [decodeBlock, length_reverse, length_map, length_digits, decodedBlockSize_encodedBlockSize h]
  simp only [if_neg not_empty, reverse_reverse, read, value]
  simp only [pow_zero, one_mul, zero_add, if_neg no_overflow, uint64To8be_uint8beTo64]

/-- The bytes read from a block determine its letters. -/
theorem encodeBlock_of_decodeBlock (found : decodeBlock enc = some block) :
    block ≠ [] ∧ block.length ≤ 8 ∧ enc.length = encodedBlockSize block.length ∧
      encodeBlock block = some enc := by
  rw [decodeBlock] at found
  cases size_eq : decodedBlockSize enc.length with
  | none => simp [size_eq] at found
  | some size =>
    obtain ⟨size_le, length_eq⟩ := encodedBlockSize_of_decodedBlockSize size_eq
    simp only [size_eq] at found
    split_ifs at found with empty
    cases read : readDigits enc.reverse 0 1 with
    | none => simp [read] at found
    | some num =>
      have short : 0 + enc.reverse.length ≤ 11 := by
        rw [length_reverse, length_eq, zero_add]
        exact encodedBlockSize_le size_le
      obtain ⟨digits, letters, small, num_eq, num_lt⟩ :=
        (readDigits_eq_some_iff (by decide) short fun _ => rfl).1 read
      simp only [pow_zero, one_mul, zero_add] at num_eq
      simp only [read] at found
      split_ifs at found with overflow
      cases found
      have fits : num < 256 ^ size := by
        have word : (256 : Nat) ^ 8 = 2 ^ 64 := by decide
        rcases lt_or_ge size 8 with partial_block | full
        · have pow : 2 ^ (8 * size) = 256 ^ size := by rw [Nat.pow_mul]
          rw [← pow]
          by_contra large
          exact overflow ⟨partial_block, by omega⟩
        · obtain rfl : size = 8 := by omega
          omega
      have length_block : (uint64To8be num size).length = size := by
        rw [uint64To8be, length_reverse, length_littleEndian]
      have length_digits : digits.length = enc.length := by
        simpa using (congrArg length letters).symm
      have digits_eq : digitsAppend 58 enc.length num = digits := by
        rw [num_eq, ← length_digits]
        exact digitsAppend_ofDigits (by decide) small
      refine ⟨?_, by omega, by rw [length_block, length_eq], ?_⟩
      · intro nil
        rw [nil] at length_block
        exact empty length_block.symm
      · rw [encodeBlock_eq (by omega), length_block, uint8beTo64_uint64To8be fits, ← length_eq,
          digits_eq, ← letters, reverse_reverse]

/-! ### All blocks -/

theorem decodeBlocks_encodeBlocks {data : Bytes} (blocks : data.length / 8 = count) :
    ∃ enc, encodeBlocks count data = some enc ∧
      enc.length = 11 * count + encodedBlockSize (data.length % 8) ∧
      decodeBlocks count enc = some data := by
  induction count generalizing data with
  | zero =>
    by_cases empty : data = []
    · subst empty
      exact ⟨[], rfl, rfl, rfl⟩
    · have short : data.length < 8 := by omega
      obtain ⟨enc, enc_eq, length_eq, back⟩ := decodeBlock_encodeBlock empty (by omega)
      have enc_ne : enc.isEmpty = false := by
        have pos : ¬enc.length = 0 := by
          rw [length_eq, encodedBlockSize_eq_zero (by omega)]
          simpa using empty
        simpa using pos
      refine ⟨enc, by simpa [encodeBlocks, empty] using enc_eq, ?_, ?_⟩
      · rw [Nat.mod_eq_of_lt short, length_eq, Nat.mul_zero, zero_add]
      · simpa [decodeBlocks, enc_ne] using back
  | succ count ih =>
    have full : (data.take 8).length = 8 := by
      rw [length_take]
      omega
    have rest_length : (data.drop 8).length = data.length - 8 := length_drop
    have first_ne : data.take 8 ≠ [] := ne_nil_of_length_pos (by omega)
    obtain ⟨first, first_eq, first_length, first_back⟩ := decodeBlock_encodeBlock first_ne (by omega)
    obtain ⟨enc, enc_eq, enc_length, back⟩ := ih (by omega : (data.drop 8).length / 8 = count)
    have first_full : first.length = 11 := by
      rw [first_length, full]
      rfl
    refine ⟨first ++ enc, ?_, ?_, ?_⟩
    · simp [encodeBlocks, fullBlockSize, first_eq, enc_eq]
    · have mod_eq : (data.length - 8) % 8 = data.length % 8 := by omega
      rw [length_append, first_full, enc_length, rest_length, mod_eq]
      omega
    · rw [decodeBlocks]
      simp [fullEncodedBlockSize, ← first_full, first_back, back]

theorem encodeBlocks_of_decodeBlocks {enc data : Bytes} (blocks : enc.length / 11 = count)
    (found : decodeBlocks count enc = some data) :
    data.length / 8 = count ∧ encodeBlocks count data = some enc := by
  induction count generalizing enc data with
  | zero =>
    by_cases empty : enc = []
    · subst empty
      cases found
      exact ⟨rfl, rfl⟩
    · rw [decodeBlocks, if_neg (by simpa using empty)] at found
      obtain ⟨nonempty, length_le, length_eq, back⟩ := encodeBlock_of_decodeBlock found
      have not_full : data.length ≠ 8 := by
        intro full
        have letters : encodedBlockSize 8 = 11 := rfl
        rw [full, letters] at length_eq
        omega
      exact ⟨by omega, by rw [encodeBlocks, if_neg (by simpa using nonempty), back]⟩
  | succ count ih =>
    rw [decodeBlocks] at found
    simp only [fullEncodedBlockSize, bind_eq_bind, bind_eq_some_iff] at found
    obtain ⟨first, first_eq, rest, rest_eq, data_eq⟩ := found
    cases data_eq
    have full : (enc.take 11).length = 11 := by
      rw [length_take]
      omega
    obtain ⟨-, length_le, length_eq, back⟩ := encodeBlock_of_decodeBlock first_eq
    have first_full : first.length = 8 := by
      by_contra partial_block
      have := encodedBlockSize_lt (by omega : first.length < 8)
      omega
    have rest_blocks : (enc.drop 11).length / 11 = count := by
      rw [length_drop]
      omega
    obtain ⟨rest_count, rest_back⟩ := ih rest_blocks rest_eq
    constructor
    · rw [length_append]
      omega
    · rw [encodeBlocks]
      simp [fullBlockSize, ← first_full, back, rest_back]

/-- Bytes are read back from their letters. -/
theorem decode_encode (data : Bytes) : ∃ enc, encode data = some enc ∧ decode enc = some data := by
  by_cases empty : data = []
  · subst empty
    exact ⟨[], rfl, rfl⟩
  obtain ⟨enc, enc_eq, length_eq, back⟩ := decodeBlocks_encodeBlocks (rfl : data.length / 8 = _)
  have last_lt := encodedBlockSize_lt (Nat.mod_lt data.length (by decide : 8 > 0))
  have last_zero := encodedBlockSize_eq_zero (Nat.mod_lt data.length (by decide : 8 > 0)).le
  have pos : 0 < data.length := length_pos_of_ne_nil empty
  have enc_ne : enc ≠ [] := ne_nil_of_length_pos (by omega)
  have blocks : enc.length / 11 = data.length / 8 := by omega
  have last : enc.length % 11 = encodedBlockSize (data.length % 8) := by omega
  refine ⟨enc, ?_, ?_⟩
  · rw [encode, if_neg (by simpa using empty)]
    exact enc_eq
  · rw [decode, if_neg (by simpa using enc_ne), fullEncodedBlockSize, blocks, last,
      decodedBlockSize_encodedBlockSize (Nat.mod_lt _ (by decide : 8 > 0)).le]
    exact back

/-- Accepted letters are the ones the writer makes. -/
theorem encode_of_decode {data : Bytes} (found : decode enc = some data) :
    encode data = some enc := by
  rw [decode] at found
  by_cases empty : enc = []
  · subst empty
    cases found
    rfl
  rw [if_neg (by simpa using empty)] at found
  split_ifs at found
  obtain ⟨count, back⟩ := encodeBlocks_of_decodeBlocks rfl found
  have data_ne : data ≠ [] := by
    rintro rfl
    have no_blocks : enc.length / 11 = 0 := count.symm
    have written : encodeBlocks 0 [] = some enc := by
      rw [← no_blocks]
      exact back
    cases written
    exact empty rfl
  rw [encode, if_neg (by simpa using data_ne), fullBlockSize, count]
  exact back

/-! ### Addresses -/

section Address

variable {cnFastHash : Bytes → Pod 32}

theorem length_checksum (data : Bytes) : (checksum cnFastHash data).length = 4 := by
  rw [checksum, length_take, (cnFastHash data).property]
  rfl

variable {addr payload : Bytes} {tag : Nat}

/-- What stands in front of a right checksum. -/
theorem checkedData_eq_some_iff : checkedData cnFastHash addr = some payload ↔
      payload ≠ [] ∧ decode addr = some (payload ++ checksum cnFastHash payload) := by
  constructor
  · intro found
    rw [checkedData] at found
    cases decoded : decode addr with
    | none => simp [decoded] at found
    | some addrData =>
      simp only [decoded] at found
      split_ifs at found with short wrong
      cases found
      constructor
      · apply ne_nil_of_length_pos
        simp only [addrChecksumSize] at short ⊢
        rw [length_take]
        omega
      · rw [not_not] at wrong
        rw [wrong, take_append_drop]
  · rintro ⟨nonempty, decoded⟩
    have length_eq : (payload ++ checksum cnFastHash payload).length = payload.length + 4 := by
      rw [length_append, length_checksum]
    have pos : 0 < payload.length := length_pos_of_ne_nil nonempty
    have long : ¬payload.length + 4 ≤ 4 := by omega
    rw [checkedData, decoded]
    simp [length_eq, addrChecksumSize, long]

/-- An address is read back. -/
theorem decodeAddr_encodeAddr (h : tag < 2 ^ 64) (data : Bytes) :
    ∃ addr, encodeAddr cnFastHash tag data = some addr ∧
      decodeAddr cnFastHash addr = some (tag, data) := by
  obtain ⟨addr, addr_eq, back⟩ := decode_encode (Varint.encode tag ++ data ++
    checksum cnFastHash (Varint.encode tag ++ data))
  refine ⟨addr, addr_eq, ?_⟩
  have payload : checkedData cnFastHash addr = some (Varint.encode tag ++ data) :=
    checkedData_eq_some_iff.2 ⟨by simp [Varint.encode_ne_nil], back⟩
  rw [decodeAddr, payload]
  simp only [scan_encode (by decide) h]

/-- Two different data never have the same letters: lengths and checksums agree. -/
theorem eq_of_encode_eq {left right : Bytes}
    (left_eq : encode (left ++ checksum cnFastHash left) = some addr)
    (right_eq : encode (right ++ checksum cnFastHash right) = some addr) : left = right := by
  obtain ⟨_, written, left_back⟩ := decode_encode (left ++ checksum cnFastHash left)
  obtain rfl := some.inj (written.symm.trans left_eq)
  obtain ⟨_, written', right_back⟩ := decode_encode (right ++ checksum cnFastHash right)
  obtain rfl := some.inj (written'.symm.trans right_eq)
  have same := some.inj (left_back.symm.trans right_back)
  exact (append_inj' same (by rw [length_checksum, length_checksum])).1

/-- The tag of an accepted text either ends within the data, which it then precedes, or every
byte of the data asks for another one. -/
theorem payload_of_decodeAddr {data : Bytes}
    (found : decodeAddr cnFastHash addr = some (tag, data)) :
    ∃ payload, encode (payload ++ checksum cnFastHash payload) = some addr ∧
      decode addr = some (payload ++ checksum cnFastHash payload) ∧
      (payload = Varint.encode tag ++ data ∨ data = [] ∧ ∀ byte ∈ payload, 128 ≤ byte.toNat) := by
  rw [decodeAddr] at found
  cases checked : checkedData cnFastHash addr with
  | none => simp [checked] at found
  | some payload =>
    obtain ⟨-, decoded⟩ := checkedData_eq_some_iff.1 checked
    refine ⟨payload, encode_of_decode decoded, decoded, ?_⟩
    simp only [checked] at found
    cases scanned : scan 64 0 0 payload with
    | number read rest =>
      simp only [scanned, some.injEq, Prod.mk.injEq] at found
      obtain ⟨rfl, rfl⟩ := found
      exact .inl (eq_encode_of_scan (by decide) scanned).2
    | ended read =>
      simp only [scanned] at found
      split_ifs at found
      cases found
      exact .inr ⟨rfl, le_of_scan_ended scanned⟩
    | overflow value | redundant value => simp [scanned] at found

/-- Some byte in front of the checksum ends a number, so that the tag is complete. -/
def TagEnds (addr : Bytes) : Prop :=
  ∃ bytes, decode addr = some bytes ∧
    ∃ byte ∈ bytes.take (bytes.length - addrChecksumSize), byte.toNat < 0x80

theorem tagEnds_iff (decoded : decode addr = some (payload ++ checksum cnFastHash payload)) :
    TagEnds addr ↔ ∃ byte ∈ payload, byte.toNat < 0x80 := by
  have front : (payload ++ checksum cnFastHash payload).take
      ((payload ++ checksum cnFastHash payload).length - addrChecksumSize) = payload := by
    rw [length_append, length_checksum, addrChecksumSize, Nat.add_sub_cancel]
    exact take_left
  constructor
  · rintro ⟨bytes, bytes_eq, byte, mem, small⟩
    obtain rfl := some.inj (decoded.symm.trans bytes_eq)
    rw [front] at mem
    exact ⟨byte, mem, small⟩
  · rintro ⟨byte, mem, small⟩
    exact ⟨_, decoded, byte, by rwa [front], small⟩

/-- Addresses have one spelling: what the writer makes is read back, and an accepted text is what
the writer makes exactly when its tag ends within the data. -/
theorem addr_one_spelling (cnFastHash : Bytes → Pod 32) :
    (∀ tag < 2 ^ 64, ∀ data, ∃ addr, encodeAddr cnFastHash tag data = some addr ∧
      decodeAddr cnFastHash addr = some (tag, data)) ∧
    ∀ addr tag data, decodeAddr cnFastHash addr = some (tag, data) →
      (encodeAddr cnFastHash tag data = some addr ↔ TagEnds addr) := by
  refine ⟨fun tag h data => decodeAddr_encodeAddr h data, ?_⟩
  intro addr tag data found
  obtain ⟨payload, written, decoded, rfl | ⟨rfl, continued⟩⟩ := payload_of_decodeAddr found
  · obtain ⟨byte, mem, small⟩ := exists_mem_encode_lt tag
    rw [tagEnds_iff decoded]
    exact iff_of_true written ⟨byte, mem_append_left _ mem, small⟩
  · rw [tagEnds_iff decoded]
    apply iff_of_false
    · intro same
      -- the writer ends the tag, every byte of this payload continues it
      obtain rfl := eq_of_encode_eq same written
      obtain ⟨byte, mem, small⟩ := exists_mem_encode_lt tag
      have := continued byte (mem_append_left _ mem)
      omega
    · rintro ⟨byte, mem, small⟩
      have := continued byte mem
      omega

namespace Sample

/-- A hash function of no strength. -/
def noHash : Bytes → Pod 32 := fun _ => ⟨List.replicate 32 0, rfl⟩

/-- A tag of two bytes and three bytes of data. -/
theorem addr_one_spelling_here : ∃ addr, encodeAddr noHash 300 [1, 2, 3] = some addr ∧
    decodeAddr noHash addr = some (300, [1, 2, 3]) ∧
    (encodeAddr noHash 300 [1, 2, 3] = some addr ↔ TagEnds addr) := by
  obtain ⟨addr, written, read⟩ := (addr_one_spelling noHash).1 300 (by decide) [1, 2, 3]
  exact ⟨addr, written, read, (addr_one_spelling noHash).2 addr 300 [1, 2, 3] read⟩

/-- Data of the single byte `0x80` in front of a right checksum is accepted as tag 0 without
data, which the writer spells with the byte 0. -/
theorem unfinished_tag_accepted (cnFastHash : Bytes → Pod 32) : ∃ addr,
    encode ([0x80] ++ checksum cnFastHash [0x80]) = some addr ∧
    decodeAddr cnFastHash addr = some (0, []) ∧ encodeAddr cnFastHash 0 [] ≠ some addr := by
  obtain ⟨addr, written, back⟩ := decode_encode ([0x80] ++ checksum cnFastHash [0x80])
  refine ⟨addr, written, ?_, ?_⟩
  · have payload : checkedData cnFastHash addr = some [0x80] :=
      checkedData_eq_some_iff.2 ⟨by simp, back⟩
    rw [decodeAddr, payload]
    rfl
  · intro same
    have tag : Varint.encode 0 ++ [] = [0x80] := eq_of_encode_eq same written
    rw [Varint.encode_of_lt (by decide)] at tag
    exact absurd tag (by decide)

theorem unfinished_tag : ∃ addr, decodeAddr noHash addr = some (0, []) ∧
    encodeAddr noHash 0 [] ≠ some addr := by
  obtain ⟨addr, -, read, other⟩ := unfinished_tag_accepted noHash
  exact ⟨addr, read, other⟩

end Sample

end Address

end DeroGold.Base58
