import Mathlib.Algebra.Order.Ring.Int
import Mathlib.Data.List.TakeWhile

/-!
Reading a file of bytes: the formatted and unformatted reads of a standard input stream,
and decimal numbers as they are printed and read back.

A stream keeps the bytes that are left and two flags. Once one of the flags is set, every
further read fails and takes nothing.
-/

abbrev Bytes := List UInt8

/-- A byte is one of 256 cases. -/
theorem forall_byte {P : UInt8 → Prop} (every : ∀ c : Fin 256, P (UInt8.ofNat c)) (c : UInt8) :
    P c := by
  have here := every ⟨c.toNat, c.toNat_lt⟩
  rwa [UInt8.ofNat_toNat] at here

/-- A value that takes a fixed number of bytes. -/
abbrev Pod (size : Nat) := { bytes : Bytes // bytes.length = size }

/-- The value whose bytes are all the same. -/
def Pod.filled (size : Nat) (byte : UInt8) : Pod size :=
  ⟨List.replicate size byte, List.length_replicate⟩

/-- The bytes left, whether their end was met, and whether a read failed. -/
structure InputStream where
  rest : Bytes
  eof : Bool
  fail : Bool
  deriving DecidableEq

namespace InputStream

open List

/-- Blank, tabulator, line feed, vertical tabulator, form feed or carriage return. -/
def isSpace (byte : UInt8) : Bool := byte == 32 || (9 ≤ byte && byte ≤ 13)

def isDigit (byte : UInt8) : Bool := 48 ≤ byte && byte ≤ 57

/-- A file just opened. -/
def ofBytes (bytes : Bytes) : InputStream := ⟨bytes, false, false⟩

def good (stream : InputStream) : Bool := !stream.eof && !stream.fail

/-- Read a word: white space is skipped, and the word ends before the next white space. -/
def readToken (stream : InputStream) : Bytes × InputStream :=
  if stream.good then
    let bytes := stream.rest.dropWhile isSpace
    let token := bytes.takeWhile (!isSpace ·)
    let rest := bytes.dropWhile (!isSpace ·)
    (token, ⟨rest, rest.isEmpty, token.isEmpty⟩)
  else ([], { stream with fail := true })

/-- Skip one byte. At the end only the end is noted. -/
def ignore (stream : InputStream) : InputStream :=
  if stream.good then ⟨stream.rest.tail, stream.rest.isEmpty, false⟩
  else { stream with fail := true }

/-- Read exactly so many bytes. -/
def read (count : Nat) (stream : InputStream) : Option Bytes × InputStream :=
  if stream.good then
    if count ≤ stream.rest.length then
      (some (stream.rest.take count), { stream with rest := stream.rest.drop count })
    else (none, ⟨[], true, true⟩)
  else (none, { stream with fail := true })

/-! ### What a read leaves -/

/-- After a failure there are no words. -/
theorem readToken_of_fail {stream : InputStream} (failed : stream.fail = true) :
    readToken stream = ([], stream) := by
  obtain ⟨rest, eof, fail⟩ := stream
  obtain rfl : fail = true := failed
  cases eof <;> rfl

/-- Without a word the stream has failed. -/
theorem fail_of_readToken_nil {stream : InputStream} (no_word : (readToken stream).1 = []) :
    (readToken stream).2.fail = true := by
  unfold readToken at no_word ⊢
  split
  · rename_i good
    simp only [if_pos good] at no_word
    simp [no_word]
  · rfl

/-! ### Decimal numbers -/

/-- The number a row of digits stands for. -/
def value (digits : Bytes) : Nat := digits.foldl (fun n digit => 10 * n + (digit.toNat - 48)) 0

/-- Read a number off the front of a word: a sign, then digits; what follows is not looked
at, and a minus sign wraps around. `none` is an exception: no digits, or too large. -/
def stoull (word : Bytes) : Option Nat :=
  let word := word.dropWhile isSpace
  let digits := (if word.head? = some 45 ∨ word.head? = some 43 then word.tail else word).takeWhile
    isDigit
  if digits = [] ∨ 2 ^ 64 ≤ value digits then none
  else some (if word.head? = some 45 then (2 ^ 64 - value digits) % 2 ^ 64 else value digits)

theorem stoull_lt {word : Bytes} {n : Nat} (parsed : stoull word = some n) : n < 2 ^ 64 := by
  unfold stoull at parsed
  extract_lets trimmed digits at parsed
  by_cases unfit : digits = [] ∨ 2 ^ 64 ≤ value digits
  · cases (if_pos unfit).symm.trans parsed
  · cases (if_neg unfit).symm.trans parsed
    split
    · exact Nat.mod_lt _ (Nat.two_pow_pos 64)
    · omega

end InputStream
