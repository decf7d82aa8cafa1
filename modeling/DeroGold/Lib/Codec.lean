import DeroGold.Lib.InputStream

/-!
Readers and writers of bytes, and when the two agree.

A reader takes a value off the front of the bytes or fails; a writer appends to what is
written already or fails. A reader is `Canonical` for a writer when the bytes it takes are
the ones the writer appends for the value, so that an accepted value has one spelling.
Programs are put together with the monad operations; `bind_eq_ok_iff` takes a successful
read apart and `Writes.bind` puts what is written together.
-/

/-- A value of type `α` off the front of the bytes, and what is left of them. -/
abbrev ByteReader (ε α : Type) := StateT Bytes (Except ε) α

/-- More bytes behind the ones that are written already. -/
abbrev ByteWriter (ε α : Type) := StateT Bytes (Except ε) α

namespace Codec

open List

variable {ε α β : Type}

def fail (error : ε) : StateT Bytes (Except ε) α := fun _ => .error error

/-- Exactly `size` bytes. -/
def take (ended : ε) (size : Nat) : ByteReader ε (Pod size) := fun bytes =>
  if h : size ≤ bytes.length then
    .ok (⟨bytes.take size, length_take_of_le h⟩, bytes.drop size)
  else .error ended

def put (bytes : Bytes) : ByteWriter ε Unit := fun out => .ok ((), out ++ bytes)

/-- So many values one behind the other. -/
def readMany (read : ByteReader ε α) : Nat → ByteReader ε (List α)
  | 0 => pure []
  | count + 1 => do
    let first ← read
    let others ← readMany read count
    return first :: others

/-- One value for each element of a list, read as the element asks. -/
def readFor (read : α → ByteReader ε β) : List α → ByteReader ε (List β)
  | [] => pure []
  | a :: as => do
    let first ← read a
    let others ← readFor read as
    return first :: others

def writeAll (write : α → ByteWriter ε Unit) : List α → ByteWriter ε Unit
  | [] => pure ()
  | a :: as => do
    write a
    writeAll write as

/-! ### Taking a read apart -/

variable {bytes rest : Bytes}
  {read : ByteReader ε α} {next : α → ByteReader ε β} {b : β} {write : α → ByteWriter ε Unit}

theorem bind_eq_ok_iff : (read >>= next) bytes = .ok (b, rest) ↔
      ∃ a mid, read bytes = .ok (a, mid) ∧ next a mid = .ok (b, rest) := by
  change Except.bind (read bytes) _ = _ ↔ _
  cases read bytes with
  | error error => simp [Except.bind]
  | ok result =>
    constructor
    · intro found
      exact ⟨result.1, result.2, rfl, found⟩
    · rintro ⟨a, mid, first, found⟩
      cases first
      exact found

theorem pure_eq_ok_iff {a b : α} :
    (pure a : ByteReader ε α) bytes = .ok (b, rest) ↔ a = b ∧ bytes = rest := by
  change Except.ok (a, bytes) = _ ↔ _
  simp

theorem fail_ne_ok {error : ε} {result : α × Bytes} :
    (fail error : ByteReader ε α) bytes ≠ .ok result := by
  simp [fail]

theorem take_eq_ok_iff {ended : ε} {size : Nat} {value : Pod size} :
    take ended size bytes = .ok (value, rest) ↔ bytes = value.val ++ rest := by
  rw [take]
  constructor
  · intro found
    split_ifs at found
    cases found
    exact (take_append_drop size bytes).symm
  · rintro rfl
    have length_eq := value.property
    have enough : size ≤ (value.val ++ rest).length := by
      rw [length_append]
      omega
    rw [dif_pos enough]
    have front : (value.val ++ rest).take size = value.val := take_left' length_eq
    have back : (value.val ++ rest).drop size = rest := drop_left' length_eq
    simp only [front, back]

/-! ### What is written -/

/-- The writer succeeds and appends exactly these bytes. -/
def Writes (write : ByteWriter ε Unit) (bytes : Bytes) : Prop := ∀ out, write out = .ok ((), out ++ bytes)

theorem writes_pure : Writes (pure () : ByteWriter ε Unit) [] := by
  intro out
  change Except.ok ((), out) = _
  rw [append_nil]

theorem writes_put (bytes : Bytes) : Writes (put bytes : ByteWriter ε Unit) bytes := fun _ => rfl

theorem Writes.bind {first second : ByteWriter ε Unit} {front back : Bytes} (h : Writes first front)
    (h' : Writes second back) : Writes (first >>= fun _ => second) (front ++ back) := by
  intro out
  change Except.bind (first out) _ = _
  rw [h out]
  change second (out ++ front) = _
  rw [h' (out ++ front), append_assoc]

/-! ### Canonical readers -/

/-- The bytes taken for a value are the bytes written for it. -/
def Canonical (read : ByteReader ε α) (write : α → ByteWriter ε Unit) : Prop :=
  ∀ ⦃bytes : Bytes⦄ ⦃a : α⦄ ⦃rest : Bytes⦄, read bytes = .ok (a, rest) →
    ∃ front, bytes = front ++ rest ∧ Writes (write a) front

/-- A read that goes on takes the bytes of its first value off the front. -/
theorem Canonical.of_bind (h : Canonical read write)
    (found : (read >>= next) bytes = .ok (b, rest)) : ∃ a front mid,
      bytes = front ++ mid ∧ Writes (write a) front ∧ next a mid = .ok (b, rest) := by
  obtain ⟨a, mid, first_read, found⟩ := bind_eq_ok_iff.1 found
  obtain ⟨front, same, written⟩ := h first_read
  exact ⟨a, front, mid, same, written, found⟩

theorem canonical_take (ended : ε) (size : Nat) :
    Canonical (take ended size) fun value => put value.val := by
  intro bytes value rest found
  exact ⟨value.val, take_eq_ok_iff.1 found, writes_put value.val⟩

theorem Canonical.readMany (h : Canonical read write) {count : Nat} {bytes : Bytes}
    {values : List α} {rest : Bytes} (found : Codec.readMany read count bytes = .ok (values, rest)) :
    values.length = count ∧ ∃ front, bytes = front ++ rest ∧ Writes (writeAll write values) front := by
  induction count generalizing bytes values rest with
  | zero =>
    obtain ⟨rfl, rfl⟩ := pure_eq_ok_iff.1 found
    exact ⟨rfl, [], rfl, writes_pure⟩
  | succ count ih =>
    obtain ⟨first, mid, first_read, found⟩ := bind_eq_ok_iff.1 found
    obtain ⟨others, left, others_read, found⟩ := bind_eq_ok_iff.1 found
    obtain ⟨rfl, rfl⟩ := pure_eq_ok_iff.1 found
    obtain ⟨front, rfl, front_written⟩ := h first_read
    obtain ⟨rfl, back, rfl, back_written⟩ := ih others_read
    exact ⟨rfl, front ++ back, (append_assoc _ _ _).symm, front_written.bind back_written⟩

/-- Readers that depend on an element: each value is written as its element asks. -/
theorem canonical_readFor {read : α → ByteReader ε β} {write : α × β → ByteWriter ε Unit}
    (h : ∀ a, Canonical (read a) fun b => write (a, b)) {as : List α} {bytes : Bytes}
    {values : List β} {rest : Bytes} (found : readFor read as bytes = .ok (values, rest)) :
    values.length = as.length ∧
      ∃ front, bytes = front ++ rest ∧ Writes (writeAll write (as.zip values)) front := by
  induction as generalizing bytes values rest with
  | nil =>
    obtain ⟨rfl, rfl⟩ := pure_eq_ok_iff.1 found
    exact ⟨rfl, [], rfl, writes_pure⟩
  | cons a as ih =>
    obtain ⟨first, mid, first_read, found⟩ := bind_eq_ok_iff.1 found
    obtain ⟨others, left, others_read, found⟩ := bind_eq_ok_iff.1 found
    obtain ⟨rfl, rfl⟩ := pure_eq_ok_iff.1 found
    obtain ⟨front, rfl, front_written⟩ := h a first_read
    obtain ⟨length_eq, back, rfl, back_written⟩ := ih others_read
    refine ⟨congrArg (· + 1) length_eq, front ++ back, (append_assoc _ _ _).symm, ?_⟩
    exact front_written.bind back_written

end Codec
