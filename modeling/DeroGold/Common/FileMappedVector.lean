import DeroGold.Lib.ByteOrder
import DeroGold.Lib.Checked
import DeroGold.Types

/-!
A vector mapped from a file: the prefix, the capacity and the size in a word each, the cells of the
elements, the suffix. The checks of `open` add and multiply in 64 bits; `open_inside_iff` says for
which headers a file that passes them holds all it tells.
-/

namespace DeroGold.Common

open List ByteOrder Checked

/-- A file in memory. Its size is that of a file, an `off_t`; a read that leaves it finds what
lies there. -/
structure MemoryMappedFile where
  bytes : Bytes
  stray : Nat → Nat
  size_lt : bytes.length < 2 ^ 63

namespace MemoryMappedFile

def size (file : MemoryMappedFile) : Nat := file.bytes.length

/-- `none` is a read that leaves the mapping. -/
def read (file : MemoryMappedFile) (offset count : Nat) : Option Bytes :=
  if offset + count ≤ file.size then some ((file.bytes.drop offset).take count) else none

/-- The word a pointer into the mapping points to. -/
def word (file : MemoryMappedFile) (offset : Nat) : Nat :=
  ((file.read offset 8).map ofLittleEndian).getD (uint64 (file.stray offset))

theorem isSome_read {file : MemoryMappedFile} {offset count : Nat} :
    (file.read offset count).isSome = true ↔ offset + count ≤ file.size := by
  unfold read
  split <;> simp [*]

end MemoryMappedFile

/-- An opened vector of elements of `valueSize` bytes. -/
structure FileMappedVector where
  file : MemoryMappedFile
  valueSize : Nat
  prefixSize : Nat
  suffixSize : Nat

/-- The exceptions of `open`, the first one that of mapping the file. -/
inductive OpenFailure where
  | notMapped
  | fileTooSmall
  | sizeGreaterThanCapacity
  | invalidFileSize
deriving DecidableEq

namespace FileMappedVector

variable (v : FileMappedVector)

def metadataSize : Nat := 16

def capacityOffset : Nat := v.prefixSize

def sizeOffset : Nat := v.capacityOffset + 8

def dataOffset : Nat := v.sizeOffset + 8

def capacity : Nat := v.file.word v.capacityOffset

def size : Nat := v.file.word v.sizeOffset

def suffixOffset : Nat := v.dataOffset + v.capacity * v.valueSize

def vectorDataSize : Nat := uint64 (v.capacity * v.valueSize)

/-- The element at an index, which `operator[]` does not check. -/
def get (index : Nat) : Option Bytes :=
  v.file.read (v.dataOffset + index * v.valueSize) v.valueSize

/-- The private `open`. Empty files cannot be mapped. -/
def openMapped (valueSize prefixSize : Nat) (file : MemoryMappedFile) :
    Except OpenFailure FileMappedVector := do
  let v : FileMappedVector := ⟨file, valueSize, prefixSize, 0⟩
  require (file.size ≠ 0) .notMapped
  require (uint64 (prefixSize + metadataSize) ≤ file.size) .fileTooSmall
  require (v.size ≤ v.capacity) .sizeGreaterThanCapacity
  let minRequiredFileSize := uint64 (uint64 (prefixSize + metadataSize) + v.vectorDataSize)
  require (minRequiredFileSize ≤ file.size) .invalidFileSize
  .ok { v with suffixSize := file.size - minRequiredFileSize }

/-- The parts of the vector lie in its file. -/
structure Inside (v : FileMappedVector) : Prop where
  counted : v.size ≤ v.capacity
  front : (v.file.read 0 v.prefixSize).isSome
  elements : ∀ index < v.size, (v.get index).isSome
  suffix : (v.file.read v.suffixOffset v.suffixSize).isSome

/-- What is checked is inside as long as the sum of the sizes does not wrap. -/
theorem open_inside_iff {valueSize prefixSize : Nat} {file : MemoryMappedFile}
    {v : FileMappedVector} (opened : openMapped valueSize prefixSize file = .ok v) :
    v.Inside ↔ prefixSize + metadataSize + file.word prefixSize * valueSize < 2 ^ 64 := by
  obtain ⟨-, opened⟩ := of_require_bind.1 opened
  obtain ⟨-, opened⟩ := of_require_bind.1 opened
  obtain ⟨counted, opened⟩ := of_require_bind.1 opened
  obtain ⟨enough, opened⟩ := of_require_bind.1 opened
  cases opened
  have size_lt : file.size < 2 ^ 63 := file.size_lt
  have data : prefixSize + 8 + 8 = prefixSize + metadataSize := rfl
  simp only [vectorDataSize, capacity, capacityOffset] at counted enough ⊢
  constructor
  · intro inside
    have suffix := MemoryMappedFile.isSome_read.1 inside.suffix
    simp only [suffixOffset, dataOffset, sizeOffset, capacityOffset, capacity] at suffix
    omega
  · intro small
    have required : uint64 (uint64 (prefixSize + metadataSize) +
        uint64 (file.word prefixSize * valueSize)) =
          prefixSize + metadataSize + file.word prefixSize * valueSize := by
      unfold uint64
      omega
    rw [required] at enough ⊢
    refine ⟨counted, MemoryMappedFile.isSome_read.2 ?_, fun index below => ?_, ?_⟩
    · simp only
      omega
    · have cells : (index + 1) * valueSize ≤ file.word prefixSize * valueSize :=
        Nat.mul_le_mul_right _ (below.trans_le counted)
      rw [Nat.succ_mul] at cells
      refine MemoryMappedFile.isSome_read.2 ?_
      simp only [dataOffset, sizeOffset, capacityOffset]
      omega
    · refine MemoryMappedFile.isSome_read.2 ?_
      simp only [suffixOffset, dataOffset, sizeOffset, capacityOffset, capacity]
      omega

namespace Sample

/-- One element of four bytes between a prefix of two and a suffix of one. -/
def single : MemoryMappedFile where
  bytes := [5, 6] ++ [1, 0, 0, 0, 0, 0, 0, 0] ++ [1, 0, 0, 0, 0, 0, 0, 0] ++ [1, 2, 3, 4] ++ [9]
  stray _ := 0
  size_lt := by decide

theorem single_inside : ∃ v, openMapped 4 2 single = .ok v ∧ v.Inside :=
  ⟨_, rfl, (@open_inside_iff 4 2 single _ rfl).2 (by decide)⟩

/-- A prefix and a header that tells one element in a capacity of 2^62, with nothing behind it. -/
def headerOnly : MemoryMappedFile where
  bytes := [5, 6] ++ [0, 0, 0, 0, 0, 0, 0, 64] ++ [1, 0, 0, 0, 0, 0, 0, 0]
  stray _ := 0
  size_lt := by decide

/-- The capacity times four is 0 in 64 bits, so that the header is enough. -/
theorem headerOnly_opened : ∃ v, openMapped 4 2 headerOnly = .ok v ∧ v.size = 1 ∧ v.get 0 = none :=
  ⟨_, rfl, by decide, by decide⟩

end Sample

end FileMappedVector

end DeroGold.Common
