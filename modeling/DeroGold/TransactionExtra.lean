import DeroGold.Serializer

/-!
The extra field of a transaction as the node reads it (`common/TransactionExtra.cpp`).

A field begins with a tag. The reader goes through the bytes and skips those that are no tag;
at a second public key or nonce it stops, and at a second merge mining tag it goes on with
the next byte. It reports whether it met an error, and the fields it found until then.
-/

namespace DeroGold.Extra

open Codec (fail)

inductive TransactionExtraField where
  | padding (size : Nat)
  | publicKey (key : Pod 32)
  | nonce (data : Bytes)
  | mergeMiningTag (depth : Nat) (merkleRoot : Pod 32)
  deriving DecidableEq

def txExtraPaddingMaxCount : Nat := 255

def tagPadding : UInt8 := 0x00

def tagPubkey : UInt8 := 0x01

def tagNonce : UInt8 := 0x02

def tagMergeMining : UInt8 := 0x03

def noncePaymentId : UInt8 := 0x00

def nullKey : Pod 32 := ⟨List.replicate 32 0, List.length_replicate⟩

/-- Which kinds of fields were met. -/
structure Seen where
  padding : Bool := false
  pubkey : Bool := false
  nonce : Bool := false
  mergeMiningTag : Bool := false
  deriving DecidableEq

/-- The size of a padding of which `size` bytes are read: zeros up to the end, not too many. -/
def paddingSize : Nat → Bytes → Option Nat
  | size, [] => if txExtraPaddingMaxCount < size then none else some size
  | size, byte :: bytes =>
    if txExtraPaddingMaxCount < size then none
    else if byte ≠ 0 then none
    else paddingSize (size + 1) bytes

/-- A nonce, behind its length in one byte. -/
def readNonce : InputSerializer Bytes := do
  let size ← readBinary 1
  let nonce ← readBinary (size.val.headD 0).toNat
  return nonce.val

/-- Depth and root, in a string of their own; what follows them in the string is ignored. -/
def readMergeMiningTag : InputSerializer (Nat × Pod 32) := do
  let field ← readString "mm_tag"
  let inner : InputSerializer (Nat × Pod 32) := do
    let depth ← readVarint 64
    let merkleRoot ← readBinary 32
    return (depth, merkleRoot)
  match inner field with
  | .error error => fail error
  | .ok (tag, _) => return tag

/-- The loop over the tags: whether no error was met, and the fields. The first argument bounds
the number of rounds; every round takes a byte. -/
def parseFields : Nat → Seen → List TransactionExtraField → Bytes →
    Bool × List TransactionExtraField
  | 0, _, fields, _ => (true, fields)
  | _, _, fields, [] => (true, fields)
  | rounds + 1, seen, fields, c :: bytes =>
    if c = tagPadding then
      if seen.padding then (true, fields)
      else match paddingSize 1 bytes with
        | none => (false, fields)
        | some size => (true, fields ++ [.padding size])
    else if c = tagPubkey then
      if seen.pubkey then (true, fields)
      else match readBinary 32 bytes with
        | .error _ => (false, fields)
        | .ok (publicKey, rest) =>
          parseFields rounds { seen with pubkey := true } (fields ++ [.publicKey publicKey]) rest
    else if c = tagNonce then
      if seen.nonce then (true, fields)
      else match readNonce bytes with
        | .error _ => (false, fields)
        | .ok (nonce, rest) =>
          parseFields rounds { seen with nonce := true } (fields ++ [.nonce nonce]) rest
    else if c = tagMergeMining ∧ seen.mergeMiningTag = false then
      match readMergeMiningTag bytes with
      | .error _ => (false, fields)
      | .ok ((depth, merkleRoot), rest) =>
        parseFields rounds { seen with mergeMiningTag := true }
          (fields ++ [.mergeMiningTag depth merkleRoot]) rest
    else parseFields rounds seen fields bytes

def parseTransactionExtra (extra : Bytes) : Bool × List TransactionExtraField :=
  parseFields extra.length {} [] extra

def TransactionExtraField.publicKey? : TransactionExtraField → Option (Pod 32)
  | .publicKey key => some key
  | _ => none

def TransactionExtraField.nonce? : TransactionExtraField → Option Bytes
  | .nonce data => some data
  | _ => none

def TransactionExtraField.mergeMiningTag? : TransactionExtraField → Option (Nat × Pod 32)
  | .mergeMiningTag depth merkleRoot => some (depth, merkleRoot)
  | _ => none

/-- The first public key; a key of zeros when there is none. An error is not looked at. -/
def getTransactionPublicKeyFromExtra (extra : Bytes) : Pod 32 :=
  ((parseTransactionExtra extra).2.findSome? (·.publicKey?)).getD nullKey

def getMergeMiningTagFromExtra (extra : Bytes) : Option (Nat × Pod 32) :=
  (parseTransactionExtra extra).2.findSome? (·.mergeMiningTag?)

/-- The payment id of a nonce that holds nothing else. -/
def getPaymentIdFromTransactionExtraNonce (nonce : Bytes) : Option (Pod 32) :=
  if h : nonce.length = 33 then
    if nonce.headD 0 = noncePaymentId then some ⟨nonce.tail, by rw [List.length_tail, h]⟩ else none
  else none

def getPaymentIdFromTxExtra (extra : Bytes) : Option (Pod 32) :=
  let parsed := parseTransactionExtra extra
  if parsed.1 then
    match parsed.2.findSome? (·.nonce?) with
    | none => none
    | some nonce => getPaymentIdFromTransactionExtraNonce nonce
  else none

end DeroGold.Extra
