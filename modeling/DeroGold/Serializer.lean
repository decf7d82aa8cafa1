import DeroGold.Lib.Codec
import DeroGold.Lib.Varint
import DeroGold.Types

/-!
The binary serialiser (`common/StreamTools.cpp`, `serialization/Binary*StreamSerializer.cpp`,
`serialization/SerializationOverloads.h`, `serialization/SerializationTools.h`).

Numbers of every width are written with a variable length, values of a fixed size as they lie
in memory, strings and vectors behind their length. In the source one function serves both
directions; here the two directions are a reader and a writer.
-/

namespace DeroGold

open List Varint

open Codec (Canonical Writes fail take put readMany writeAll)

/-- What the serialisation functions throw. -/
inductive SerializationError where
  | endOfStream
  | valueOverflow
  | invalidRepresentation
  | unknownVariantTag
  | wrongTransactionVersion
  | unexpectedSignaturesSize
  | signaturesNotExpected
  | wrongTransactionsNumber
  | wrongMinerTransactionBranchSize
  | noMergeMiningTag
  | wrongMergeMiningTagDepth
  | wrongBlockchainBranchSize
  | wrongMajorVersion
  | failedToUnpack
  deriving DecidableEq

abbrev InputSerializer := ByteReader SerializationError

abbrev OutputSerializer := ByteWriter SerializationError Unit

/-- `readVarint` for a number of this many bits. -/
def readVarint (bits : Nat) : InputSerializer Nat := fun bytes =>
  match scan bits 0 0 bytes with
  | .number value rest => .ok (value, rest)
  | .ended _ => .error .endOfStream
  | .overflow _ => .error .valueOverflow
  | .redundant _ => .error .invalidRepresentation

def writeVarint (value : Nat) : OutputSerializer := put (encode value)

/-- `binary` of a value that has this many bytes. -/
def readBinary (size : Nat) : InputSerializer (Pod size) := take .endOfStream size

def writeBinary {size : Nat} (value : Pod size) : OutputSerializer := put value.val

/-- The largest string that is kept for a field of the name `mm_tag`. -/
def maxExtraSize : Nat := 140000

/-- A string. One for a merge mining tag that is too long is read and thrown away. -/
def readString (name : String) : InputSerializer Bytes := do
  let size ← readVarint 64
  let value ← readBinary size
  if maxExtraSize < size ∧ name = "mm_tag" then return []
  else return value.val

def writeString (value : Bytes) : OutputSerializer := do
  writeVarint value.length
  put value

/-- A vector, behind the number of its elements. -/
def readVector {α : Type} (read : InputSerializer α) : InputSerializer (List α) := do
  let size ← readVarint 64
  readMany read size

def writeVector {α : Type} (write : α → OutputSerializer) (values : List α) : OutputSerializer := do
  writeVarint values.length
  writeAll write values

/-- All bytes are read, and none is left. -/
def fromBinaryArray {α : Type} (read : InputSerializer α) (bytes : Bytes) :
    Except SerializationError α :=
  match read bytes with
  | .error error => .error error
  | .ok (value, rest) => if rest.isEmpty then .ok value else .error .failedToUnpack

def toBinaryArray (write : OutputSerializer) : Except SerializationError Bytes :=
  match write [] with
  | .error error => .error error
  | .ok (_, bytes) => .ok bytes

/-! ### One spelling for each value -/

variable {bytes : Bytes} {α : Type} {read : InputSerializer α}
  {bits : Nat} {value : α} {write : α → OutputSerializer}

theorem eq_encode_of_readVarint (wide : 0 < bits) {rest : Bytes} {value : Nat}
    (found : readVarint bits bytes = .ok (value, rest)) : bytes = encode value ++ rest := by
  rw [readVarint] at found
  cases scanned : scan bits 0 0 bytes with
  | number read left =>
    simp only [scanned, Except.ok.injEq, Prod.mk.injEq] at found
    obtain ⟨rfl, rfl⟩ := found
    exact (eq_encode_of_scan wide scanned).2
  | ended read | overflow value | redundant value => simp [scanned] at found

theorem writes_writeVarint (value : Nat) : Writes (writeVarint value) (encode value) :=
  Codec.writes_put _

theorem canonical_readVarint (wide : 0 < bits) : Canonical (readVarint bits) writeVarint := by
  intro bytes value rest found
  exact ⟨_, eq_encode_of_readVarint wide found, writes_writeVarint value⟩

theorem canonical_readBinary (size : Nat) : Canonical (readBinary size) writeBinary :=
  Codec.canonical_take SerializationError.endOfStream size

theorem canonical_readString {name : String} (kept : name ≠ "mm_tag") :
    Canonical (readString name) writeString := by
  intro bytes value rest found
  obtain ⟨size, front, _, rfl, front_written, found⟩ :=
    (canonical_readVarint (by decide)).of_bind found
  obtain ⟨pod, left, pod_read, found⟩ := Codec.bind_eq_ok_iff.1 found
  rw [if_neg (fun h => kept h.2)] at found
  obtain ⟨rfl, rfl⟩ := Codec.pure_eq_ok_iff.1 found
  obtain rfl := Codec.take_eq_ok_iff.1 pod_read
  refine ⟨front ++ pod.val, (append_assoc _ _ _).symm, ?_⟩
  rw [writeString, pod.property]
  exact front_written.bind (Codec.writes_put pod.val)

theorem canonical_readVector (h : Canonical read write) :
    Canonical (readVector read) (writeVector write) := by
  intro bytes values rest found
  obtain ⟨size, front, _, rfl, front_written, values_read⟩ :=
    (canonical_readVarint (by decide)).of_bind found
  obtain ⟨rfl, back, rfl, back_written⟩ := h.readMany values_read
  exact ⟨front ++ back, (append_assoc _ _ _).symm, front_written.bind back_written⟩

theorem toBinaryArray_of_writes {write : OutputSerializer} (h : Writes write bytes) :
    toBinaryArray write = .ok bytes := by
  rw [toBinaryArray, h []]
  rfl

theorem fromBinaryArray_eq_ok_iff :
    fromBinaryArray read bytes = .ok value ↔ read bytes = .ok (value, []) := by
  rw [fromBinaryArray]
  cases read bytes with
  | error error => simp
  | ok result =>
    obtain ⟨read_value, rest⟩ := result
    cases rest <;> simp

/-- What is accepted is what is written for it. -/
theorem toBinaryArray_of_fromBinaryArray (h : Canonical read write)
    (found : fromBinaryArray read bytes = .ok value) :
    toBinaryArray (write value) = .ok bytes := by
  obtain ⟨front, rfl, written⟩ := h (fromBinaryArray_eq_ok_iff.1 found)
  rw [toBinaryArray_of_writes written, append_nil]

end DeroGold
