import DeroGold.Serializer

/-!
Transactions as bytes (`serialization/CryptoNoteSerialization.cpp`).

The signatures stand behind the transaction without any length: how many there are for an
input is the number of outputs the input refers to, and a transaction with a single base
input has none. `canonical_readTransaction` says that a transaction that is read was
spelled as it is written, so that the hash of a transaction does not depend on whether it is
taken from the bytes received or from the transaction read from them.
-/

namespace DeroGold.Wire

open List

open Codec (Canonical Writes fail put readMany readFor writeAll bind_eq_ok_iff pure_eq_ok_iff fail_ne_ok)

structure KeyInput where
  amount : Nat
  outputIndexes : List Nat
  keyImage : Pod 32
  deriving DecidableEq

inductive TransactionInput where
  | base (blockIndex : Nat)
  | key (input : KeyInput)
  deriving DecidableEq

/-- A key is the only target there is. -/
inductive TransactionOutputTarget where
  | key (key : Pod 32)
  deriving DecidableEq

structure TransactionOutput where
  amount : Nat
  target : TransactionOutputTarget
  deriving DecidableEq

structure TransactionPrefix where
  version : Nat
  unlockTime : Nat
  inputs : List TransactionInput
  outputs : List TransactionOutput
  extra : Bytes
  deriving DecidableEq

structure Transaction extends TransactionPrefix where
  signatures : List (List (Pod 64))
  deriving DecidableEq

def currentTransactionVersion : Nat := 1

/-! ### Reading and writing -/

def readByte : InputSerializer UInt8 := do
  let byte ← readBinary 1
  return byte.val.headD 0

def writeByte (byte : UInt8) : OutputSerializer := put [byte]

def readKeyInput : InputSerializer KeyInput := do
  let amount ← readVarint 64
  let outputIndexes ← readVector (readVarint 32)
  let keyImage ← readBinary 32
  return ⟨amount, outputIndexes, keyImage⟩

def writeKeyInput (input : KeyInput) : OutputSerializer := do
  writeVarint input.amount
  writeVector writeVarint input.outputIndexes
  writeBinary input.keyImage

def readTransactionInput : InputSerializer TransactionInput := do
  let tag ← readByte
  if tag = 0xff then
    let blockIndex ← readVarint 32
    return .base blockIndex
  else if tag = 0x2 then
    let input ← readKeyInput
    return .key input
  else fail .unknownVariantTag

def writeTransactionInput : TransactionInput → OutputSerializer
  | .base blockIndex => do
    writeByte 0xff
    writeVarint blockIndex
  | .key input => do
    writeByte 0x2
    writeKeyInput input

def readTransactionOutputTarget : InputSerializer TransactionOutputTarget := do
  let tag ← readByte
  if tag = 0x2 then
    let key ← readBinary 32
    return .key key
  else fail .unknownVariantTag

def writeTransactionOutputTarget : TransactionOutputTarget → OutputSerializer
  | .key key => do
    writeByte 0x2
    writeBinary key

def readTransactionOutput : InputSerializer TransactionOutput := do
  let amount ← readVarint 64
  let target ← readTransactionOutputTarget
  return ⟨amount, target⟩

def writeTransactionOutput (output : TransactionOutput) : OutputSerializer := do
  writeVarint output.amount
  writeTransactionOutputTarget output.target

/-- What follows the version of a transaction. -/
def readTransactionBody (version : Nat) : InputSerializer TransactionPrefix := do
  let unlockTime ← readVarint 64
  let inputs ← readVector readTransactionInput
  let outputs ← readVector readTransactionOutput
  let extra ← readString "extra"
  return ⟨version, unlockTime, inputs, outputs, extra⟩

def writeTransactionBody (tx : TransactionPrefix) : OutputSerializer := do
  writeVarint tx.unlockTime
  writeVector writeTransactionInput tx.inputs
  writeVector writeTransactionOutput tx.outputs
  writeString tx.extra

def readTransactionPrefix : InputSerializer TransactionPrefix := do
  let version ← readVarint 8
  if currentTransactionVersion < version then fail .wrongTransactionVersion
  else readTransactionBody version

def writeTransactionPrefix (tx : TransactionPrefix) : OutputSerializer := do
  writeVarint tx.version
  writeTransactionBody tx

/-- How many signatures an input has. -/
def getSignaturesCount : TransactionInput → Nat
  | .base _ => 0
  | .key input => input.outputIndexes.length

def isBase : TransactionInput → Bool
  | .base _ => true
  | .key _ => false

/-- No input may ask for signatures when there are none. -/
def noSignatures (inputs : List TransactionInput) : OutputSerializer :=
  if inputs.all (getSignaturesCount · = 0) then pure () else fail .signaturesNotExpected

/-- Signatures for each input, unless the only input is a base input. -/
def readSignatures (inputs : List TransactionInput) : InputSerializer (List (List (Pod 64))) :=
  let size := if inputs.length = 1 ∧ inputs.all isBase then 0 else inputs.length
  if size = 0 then do
    noSignatures inputs
    return []
  else readFor (fun input => readMany (readBinary 64) (getSignaturesCount input)) inputs

def writeInputSignatures (entry : TransactionInput × List (Pod 64)) : OutputSerializer :=
  if getSignaturesCount entry.1 ≠ entry.2.length then fail .unexpectedSignaturesSize
  else writeAll writeBinary entry.2

def writeSignatures (inputs : List TransactionInput) (signatures : List (List (Pod 64))) :
    OutputSerializer :=
  if signatures.isEmpty then noSignatures inputs
  else if inputs.length ≠ signatures.length then fail .unexpectedSignaturesSize
  else writeAll writeInputSignatures (inputs.zip signatures)

def readTransaction : InputSerializer Transaction := do
  let tx ← readTransactionPrefix
  let signatures ← readSignatures tx.inputs
  return { tx with signatures }

def writeTransaction (tx : Transaction) : OutputSerializer := do
  writeTransactionPrefix tx.toTransactionPrefix
  writeSignatures tx.inputs tx.signatures

/-! ### One spelling for each transaction -/

theorem canonical_readByte : Canonical readByte writeByte := by
  intro bytes byte rest found
  obtain ⟨pod, mid, pod_read, found⟩ := bind_eq_ok_iff.1 found
  obtain ⟨rfl, rfl⟩ := pure_eq_ok_iff.1 found
  obtain rfl := Codec.take_eq_ok_iff.1 pod_read
  obtain ⟨byte, single⟩ := length_eq_one_iff.1 pod.property
  refine ⟨pod.val, rfl, ?_⟩
  rw [single]
  exact Codec.writes_put [byte]

theorem canonical_readKeyInput : Canonical readKeyInput writeKeyInput := by
  intro bytes input rest found
  obtain ⟨amount, front1, _, rfl, written1, found⟩ :=
    (canonical_readVarint (by decide)).of_bind found
  obtain ⟨indexes, front2, _, rfl, written2, found⟩ :=
    (canonical_readVector (canonical_readVarint (by decide))).of_bind found
  obtain ⟨keyImage, front3, _, rfl, written3, found⟩ := (canonical_readBinary 32).of_bind found
  obtain ⟨rfl, rfl⟩ := pure_eq_ok_iff.1 found
  exact ⟨front1 ++ (front2 ++ front3), by simp, written1.bind (written2.bind written3)⟩

theorem canonical_readTransactionInput : Canonical readTransactionInput writeTransactionInput := by
  intro bytes input rest found
  obtain ⟨tag, front1, _, rfl, written1, value_read⟩ := canonical_readByte.of_bind found
  split_ifs at value_read with base key
  · obtain ⟨index, front2, _, rfl, written2, made⟩ :=
      (canonical_readVarint (by decide)).of_bind value_read
    obtain ⟨rfl, rfl⟩ := pure_eq_ok_iff.1 made
    subst base
    exact ⟨front1 ++ front2, by simp, written1.bind written2⟩
  · obtain ⟨keyInput, front2, _, rfl, written2, made⟩ := canonical_readKeyInput.of_bind value_read
    obtain ⟨rfl, rfl⟩ := pure_eq_ok_iff.1 made
    subst key
    exact ⟨front1 ++ front2, by simp, written1.bind written2⟩
  · exact absurd value_read fail_ne_ok

theorem canonical_readTransactionOutputTarget :
    Canonical readTransactionOutputTarget writeTransactionOutputTarget := by
  intro bytes target rest found
  obtain ⟨tag, front1, _, rfl, written1, value_read⟩ := canonical_readByte.of_bind found
  split_ifs at value_read with key
  · obtain ⟨pod, front2, _, rfl, written2, made⟩ := (canonical_readBinary 32).of_bind value_read
    obtain ⟨rfl, rfl⟩ := pure_eq_ok_iff.1 made
    subst key
    exact ⟨front1 ++ front2, by simp, written1.bind written2⟩
  · exact absurd value_read fail_ne_ok

theorem canonical_readTransactionOutput : Canonical readTransactionOutput writeTransactionOutput := by
  intro bytes output rest found
  obtain ⟨amount, front1, _, rfl, written1, found⟩ :=
    (canonical_readVarint (by decide)).of_bind found
  obtain ⟨target, front2, _, rfl, written2, found⟩ :=
    canonical_readTransactionOutputTarget.of_bind found
  obtain ⟨rfl, rfl⟩ := pure_eq_ok_iff.1 found
  exact ⟨front1 ++ front2, by simp, written1.bind written2⟩

theorem canonical_readTransactionBody {version : Nat} {bytes rest : Bytes} {tx : TransactionPrefix}
    (found : readTransactionBody version bytes = .ok (tx, rest)) :
    tx.version = version ∧ ∃ front, bytes = front ++ rest ∧ Writes (writeTransactionBody tx) front := by
  obtain ⟨unlockTime, front1, _, rfl, written1, found⟩ :=
    (canonical_readVarint (by decide)).of_bind found
  obtain ⟨inputs, front2, _, rfl, written2, found⟩ :=
    (canonical_readVector canonical_readTransactionInput).of_bind found
  obtain ⟨outputs, front3, _, rfl, written3, found⟩ :=
    (canonical_readVector canonical_readTransactionOutput).of_bind found
  obtain ⟨extra, front4, _, rfl, written4, found⟩ :=
    (canonical_readString (by decide)).of_bind found
  obtain ⟨rfl, rfl⟩ := pure_eq_ok_iff.1 found
  refine ⟨rfl, front1 ++ (front2 ++ (front3 ++ front4)), by simp, ?_⟩
  exact written1.bind (written2.bind (written3.bind written4))

theorem canonical_readTransactionPrefix : Canonical readTransactionPrefix writeTransactionPrefix := by
  intro bytes tx rest found
  obtain ⟨version, front1, _, rfl, written1, body_read⟩ :=
    (canonical_readVarint (by decide)).of_bind found
  split_ifs at body_read
  · exact absurd body_read fail_ne_ok
  · obtain ⟨rfl, front2, rfl, written2⟩ := canonical_readTransactionBody body_read
    exact ⟨front1 ++ front2, by simp, written1.bind written2⟩

theorem canonical_readSignatures (inputs : List TransactionInput) :
    Canonical (readSignatures inputs) (writeSignatures inputs) := by
  intro bytes signatures rest found
  simp only [readSignatures] at found
  by_cases none_expected : (if inputs.length = 1 ∧ inputs.all isBase then 0 else inputs.length) = 0
  · rw [if_pos none_expected] at found
    obtain ⟨_, mid, checked, found⟩ := bind_eq_ok_iff.1 found
    obtain ⟨rfl, rfl⟩ := pure_eq_ok_iff.1 found
    unfold noSignatures at checked
    split_ifs at checked with zero
    · obtain ⟨-, rfl⟩ := pure_eq_ok_iff.1 checked
      refine ⟨[], rfl, ?_⟩
      rw [writeSignatures, if_pos isEmpty_nil, noSignatures, if_pos zero]
      exact Codec.writes_pure
    · exact absurd checked fail_ne_ok
  · rw [if_neg none_expected] at found
    have single : ∀ input : TransactionInput,
        Canonical (readMany (readBinary 64) (getSignaturesCount input))
          fun signatures => writeInputSignatures (input, signatures) := by
      intro input bytes signatures rest found
      obtain ⟨count, front, rfl, written⟩ := (canonical_readBinary 64).readMany found
      refine ⟨front, rfl, ?_⟩
      change Writes (if getSignaturesCount input ≠ signatures.length then _ else _) front
      rw [if_neg (by simp [count])]
      exact written
    obtain ⟨length_eq, front, rfl, written⟩ := Codec.canonical_readFor single found
    have some_inputs : inputs ≠ [] := by
      rintro rfl
      exact none_expected rfl
    have some_signatures : ¬signatures.isEmpty = true := by
      rw [isEmpty_iff_length_eq_zero, length_eq]
      simpa using some_inputs
    refine ⟨front, rfl, ?_⟩
    rw [writeSignatures, if_neg some_signatures, if_neg (by simp [length_eq])]
    exact written

/-- A transaction that is read was spelled as it is written. -/
theorem canonical_readTransaction : Canonical readTransaction writeTransaction := by
  intro bytes tx rest found
  obtain ⟨txPrefix, front1, _, rfl, written1, found⟩ :=
    canonical_readTransactionPrefix.of_bind found
  obtain ⟨signatures, front2, _, rfl, written2, found⟩ :=
    (canonical_readSignatures txPrefix.inputs).of_bind found
  obtain ⟨rfl, rfl⟩ := pure_eq_ok_iff.1 found
  exact ⟨front1 ++ front2, by simp, written1.bind written2⟩

/-! ### The hash of a transaction -/

/-- A transaction, with its bytes if it was made from them. -/
structure CachedTransaction where
  transaction : Transaction
  transactionBinaryArray : Option Bytes

namespace CachedTransaction

def ofTransaction (transaction : Transaction) : CachedTransaction := ⟨transaction, none⟩

def ofBinaryArray (blob : Bytes) : Except SerializationError CachedTransaction :=
  match fromBinaryArray readTransaction blob with
  | .error error => .error error
  | .ok transaction => .ok ⟨transaction, some blob⟩

def getTransactionBinaryArray (cached : CachedTransaction) : Except SerializationError Bytes :=
  match cached.transactionBinaryArray with
  | some blob => .ok blob
  | none => toBinaryArray (writeTransaction cached.transaction)

def getTransactionHash (cnFastHash : Bytes → Pod 32) (cached : CachedTransaction) :
    Except SerializationError (Pod 32) :=
  match cached.getTransactionBinaryArray with
  | .error error => .error error
  | .ok blob => .ok (cnFastHash blob)

end CachedTransaction

/-- Transactions have one encoding: an accepted transaction is written as it was read, its hash
does not depend on where it is taken from, and no other bytes are read as it. -/
theorem transaction_one_encoding (cnFastHash : Bytes → Pod 32) {blob : Bytes} {tx : Transaction}
    (accepted : fromBinaryArray readTransaction blob = .ok tx) :
    toBinaryArray (writeTransaction tx) = .ok blob ∧
    (∃ cached, CachedTransaction.ofBinaryArray blob = .ok cached ∧
      (CachedTransaction.ofTransaction tx).getTransactionHash cnFastHash =
        cached.getTransactionHash cnFastHash) ∧
    ∀ blob', fromBinaryArray readTransaction blob' = .ok tx → blob' = blob := by
  have written := toBinaryArray_of_fromBinaryArray canonical_readTransaction accepted
  refine ⟨written, ⟨⟨tx, some blob⟩, by simp [CachedTransaction.ofBinaryArray, accepted], ?_⟩, ?_⟩
  · simp [CachedTransaction.getTransactionHash, CachedTransaction.getTransactionBinaryArray,
      CachedTransaction.ofTransaction, written]
  · intro blob' accepted'
    have written' := toBinaryArray_of_fromBinaryArray canonical_readTransaction accepted'
    exact Except.ok.inj (written'.symm.trans written)

namespace Sample

def pod (size : Nat) (byte : UInt8) : Pod size := ⟨List.replicate size byte, length_replicate⟩

/-- One input with a ring of one output, one output, and extra data of two bytes. -/
def payment : Transaction where
  version := 1
  unlockTime := 300
  inputs := [.key ⟨100, [7], pod 32 1⟩]
  outputs := [⟨90, .key (pod 32 2)⟩]
  extra := [1, 2]
  signatures := [[pod 64 3]]

def paymentBlob : Bytes :=
  [1, 172, 2, 1, 2, 100, 1, 7] ++ List.replicate 32 1 ++ [1, 90, 2] ++ List.replicate 32 2 ++
    [2, 1, 2] ++ List.replicate 64 3

theorem payment_accepted : fromBinaryArray readTransaction paymentBlob = .ok payment := by
  decide +kernel

theorem transaction_one_encoding_here : toBinaryArray (writeTransaction payment) = .ok paymentBlob ∧
    ∀ blob', fromBinaryArray readTransaction blob' = .ok payment → blob' = paymentBlob :=
  have encoded := transaction_one_encoding (fun _ => pod 32 0) payment_accepted
  ⟨encoded.1, encoded.2.2⟩

end Sample

end DeroGold.Wire
