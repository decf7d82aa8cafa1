import DeroGold.Text
import DeroGold.Lib.ByteOrder
import DeroGold.TransactionExtra

/-!
The extra field of a transaction as the wallet reads it (`utilities/ParseExtra.cpp`).

The parser moves iterators by sizes that it reads from the bytes. A size that could not be
read is a negative number kept in a `size_t`, so that an iterator may move backwards; positions
are integers here, and a parse that reads outside of the bytes has no result. A field that
is not complete is skipped byte by byte, as is any byte that is no tag.
-/

namespace DeroGold.Extra

open List Option Varint

def arbitraryDataIdentifier : UInt8 := 0x7f

def transactionPowNonceIdentifier : UInt8 := 0x04

structure MergedMiningTag where
  depth : UInt8 := 0
  merkleRoot : Pod 32 := nullKey
  deriving DecidableEq

/-- `paymentID` is text, all other fields are bytes and numbers. -/
structure ParsedExtra where
  transactionPublicKey : Pod 32 := nullKey
  paymentID : Bytes := []
  mergedMiningTag : MergedMiningTag := {}
  extraData : Bytes := []
  transactionPowNonce : Nat := 0
  deriving DecidableEq

/-- What is parsed so far, and which fields were met. -/
structure Parse where
  parsed : ParsedExtra := {}
  seenPubKey : Bool := false
  seenNonce : Bool := false
  seenExtraData : Bool := false
  seenPaymentID : Bool := false
  seenMergedMiningTag : Bool := false
  seenPowNonce : Bool := false
  deriving DecidableEq

/-- `size_t` arithmetic. -/
def wrap (size : Nat) : Nat := size % 2 ^ 64

/-- An iterator is moved by a `size_t` as a signed number. -/
def signed (size : Nat) : Int := if size < 2 ^ 63 then size else size - 2 ^ 64

/-- What follows a position. -/
def bytesFrom (bytes : Bytes) (position : Int) : Option Bytes :=
  if 0 ≤ position ∧ position ≤ bytes.length then some (bytes.drop position.toNat) else none

/-- What stands between two positions. -/
def copyRange (bytes : Bytes) (first last : Int) : Option Bytes :=
  if 0 ≤ first ∧ first ≤ last ∧ last ≤ bytes.length then
    some ((bytes.drop first.toNat).take (last - first).toNat)
  else none

def podOf (size : Nat) (bytes : Bytes) : Option (Pod size) :=
  if h : size ≤ bytes.length then some ⟨bytes.take size, length_take_of_le h⟩ else none

/-- `read_varint` with its result in a `size_t`, and the number. -/
def scanSize (bytes : Bytes) : Nat × Nat :=
  match scan 64 0 0 bytes with
  | .number value rest => (bytes.length - rest.length, value)
  | .ended value => (bytes.length, value)
  | .overflow value => (2 ^ 64 - 1, value)
  | .redundant value => (2 ^ 64 - 2, value)

/-- The loop over the nonce data: how far the outer iterator is to move, and the parse. The
first argument bounds the number of rounds. -/
def parseNonceData (nonceData : Bytes) : Nat → Int → Nat → Parse → Option (Nat × Parse)
  | 0, _, _, _ => none
  | rounds + 1, is, advanceIterator, parse =>
    if is = nonceData.length then some (advanceIterator, parse)
    else do
      let remaining ← bytesFrom nonceData is
      let s := remaining.headD 0
      if s = noncePaymentId ∧ 32 < remaining.length ∧ parse.seenPaymentID = false then
        let paymentIDHash ← podOf 32 remaining.tail
        parseNonceData nonceData rounds (is + 32 + 1) (wrap (advanceIterator + (1 + 32)))
          { parse with
            parsed := { parse.parsed with paymentID := podToHex paymentIDHash }
            seenPaymentID := true }
      else if s = arbitraryDataIdentifier ∧ 1 < remaining.length ∧ parse.seenExtraData = false then
        let (readDataSize, dataSize) := scanSize remaining.tail
        if wrap (1 + readDataSize + dataSize) ≤ remaining.length then
          let dataBegin := is + 1 + signed readDataSize
          let data ← copyRange nonceData dataBegin (dataBegin + signed dataSize)
          parseNonceData nonceData rounds (is + signed (wrap (readDataSize + dataSize)) + 1)
            (wrap (advanceIterator + (1 + readDataSize + dataSize)))
            { parse with
              parsed := { parse.parsed with extraData := parse.parsed.extraData ++ data }
              seenExtraData := true }
        else parseNonceData nonceData rounds (is + 1) advanceIterator parse
      else parseNonceData nonceData rounds (is + 1) advanceIterator parse

/-- The nonce field at a position: how far to move, and the parse. -/
def parseNonce (extra : Bytes) (it : Int) (remaining : Bytes) (parse : Parse) :
    Option (Nat × Parse) := do
  let (readNonceSize, nonceSize) := scanSize remaining.tail
  if wrap (readNonceSize + nonceSize) < remaining.length then
    let nonceBegin := it + 1 + signed readNonceSize
    let nonceData ← copyRange extra nonceBegin (nonceBegin + signed nonceSize)
    parseNonceData nonceData (nonceData.length + 3) 0 readNonceSize parse
  else some (readNonceSize, parse)

/-- The merge mining tag at a position, when it is complete: how far to move, and the tag. -/
def parseMergedMiningTag (extra : Bytes) (it : Int) (remaining : Bytes) :
    Option (Option (Int × MergedMiningTag)) := do
  let (readDataSize, dataSize) := scanSize remaining.tail
  if wrap (dataSize + readDataSize) < remaining.length ∧ 33 ≤ dataSize then
    let afterSize ← bytesFrom extra (it + 1 + signed readDataSize)
    let (readDepthSize, depth) := scanSize afterSize
    let dataBegin := it + 1 + signed readDataSize + signed readDepthSize
    let data ← copyRange extra dataBegin (dataBegin + 32)
    let merkleRoot ← podOf 32 data
    return some (signed readDepthSize + 32, { depth := UInt8.ofNat depth, merkleRoot })
  else return none

def parseLoop (extra : Bytes) : Nat → Int → Parse → Option ParsedExtra
  | 0, _, _ => none
  | rounds + 1, it, parse =>
    if extra.length ≤ it then some parse.parsed
    else if parse.seenPubKey && parse.seenPaymentID && parse.seenMergedMiningTag &&
        parse.seenExtraData && parse.seenPowNonce then some parse.parsed
    else do
      let remaining ← bytesFrom extra it
      let c := remaining.headD 0
      if c = tagPubkey ∧ 32 < remaining.length ∧ parse.seenPubKey = false then
        let transactionPublicKey ← podOf 32 remaining.tail
        parseLoop extra rounds (it + 32 + 1)
          { parse with parsed := { parse.parsed with transactionPublicKey }, seenPubKey := true }
      else if c = tagNonce ∧ 1 < remaining.length ∧ parse.seenNonce = false then
        let (advanceIterator, parse) ← parseNonce extra it remaining parse
        parseLoop extra rounds (it + signed advanceIterator + 1) { parse with seenNonce := true }
      else
        let tag ← if c = tagMergeMining ∧ 1 < remaining.length ∧ parse.seenMergedMiningTag = false
          then parseMergedMiningTag extra it remaining else some none
        match tag with
        | some (advance, mergedMiningTag) =>
          parseLoop extra rounds (it + advance + 1)
            { parse with parsed := { parse.parsed with mergedMiningTag }, seenMergedMiningTag := true }
        | none =>
          if c = transactionPowNonceIdentifier ∧ 8 < remaining.length ∧ parse.seenPowNonce = false then
            let transactionPowNonce := ByteOrder.ofLittleEndian (remaining.tail.take 8)
            parseLoop extra rounds (it + 8 + 1)
              { parse with parsed := { parse.parsed with transactionPowNonce }, seenPowNonce := true }
          else parseLoop extra rounds (it + 1) parse

/-- An iterator may stay where it is, or go back a byte, a few times. -/
def parseExtra (extra : Bytes) : Option ParsedExtra := parseLoop extra (extra.length + 5) 0 {}

/-! ### The extra of a payment -/

/-- A tag, the length and the content; nothing when there is no content. -/
def sizedField (tag : UInt8) (content : Bytes) : Bytes :=
  if content = [] then [] else tag :: (encode content.length ++ content)

def paymentIDField : Option (Pod 32) → Bytes
  | some paymentIDBin => noncePaymentId :: paymentIDBin.val
  | none => []

/-- The nonce of a payment: a payment id and data, each when there is one
(`makeTransaction`). -/
def extraNonce (paymentID : Option (Pod 32)) (extraData : Bytes) : Bytes :=
  paymentIDField paymentID ++ sizedField arbitraryDataIdentifier extraData

/-- The key of the transaction and the nonce of its proof of work, with which an extra ends. -/
def keyFields (publicKey : Pod 32) (powNonce : Pod 8) : Bytes :=
  tagPubkey :: (publicKey.val ++ transactionPowNonceIdentifier :: powNonce.val)

/-- The whole extra; `generateTransactionPoW` puts its nonce at the end. -/
def makeExtra (paymentID : Option (Pod 32)) (extraData : Bytes) (publicKey : Pod 32)
    (powNonce : Pod 8) : Bytes :=
  sizedField tagNonce (extraNonce paymentID extraData) ++ keyFields publicKey powNonce

/-! ### Reading at a position -/

variable {size : Nat} {nonceData left right data extraData extra : Bytes} {parse : Parse}
  {paymentID : Option (Pod 32)} {powNonce : Pod 8}

theorem signed_of_lt (small : size < 2 ^ 63) : signed size = size := if_pos small

theorem wrap_of_lt (small : size < 2 ^ 63) : wrap size = size := Nat.mod_eq_of_lt (by omega)

theorem bytesFrom_append (left right : Bytes) :
    bytesFrom (left ++ right) left.length = some right := by
  simp [bytesFrom]

theorem copyRange_append (left middle right : Bytes) :
    copyRange (left ++ (middle ++ right)) left.length (left.length + middle.length) =
      some middle := by
  have inside : (0 : Int) ≤ left.length ∧ (left.length : Int) ≤ left.length + middle.length ∧
      (left.length : Int) + middle.length ≤ (left ++ (middle ++ right)).length := by
    simp only [length_append]
    omega
  rw [copyRange, if_pos inside]
  simp

theorem podOf_append (pod : Pod size) (rest : Bytes) : podOf size (pod.val ++ rest) = some pod := by
  have enough : size ≤ (pod.val ++ rest).length := by simp [pod.property]
  simp only [podOf, enough, ↓reduceDIte, some.injEq]
  exact Subtype.ext (take_left' pod.property)

theorem scanSize_encode (small : size < 2 ^ 63) (rest : Bytes) :
    scanSize (encode size ++ rest) = ((encode size).length, size) := by
  rw [scanSize, scan_encode (by decide) (by omega)]
  simp

/-! ### One field of the nonce -/

theorem parseNonceData_paymentID {paymentID : Pod 32}
    (spelled : nonceData = left ++ (noncePaymentId :: (paymentID.val ++ right)))
    (unseen : parse.seenPaymentID = false) (rounds advance : Nat) :
    parseNonceData nonceData (rounds + 1) left.length advance parse =
      parseNonceData nonceData rounds (left ++ noncePaymentId :: paymentID.val).length
        (wrap (advance + 33))
        { parse with
          parsed := { parse.parsed with paymentID := podToHex paymentID }
          seenPaymentID := true } := by
  have before_end : (left.length : Int) ≠ nonceData.length := by
    simp only [spelled, length_append, length_cons]
    omega
  have complete : 32 < (noncePaymentId :: (paymentID.val ++ right)).length := by
    simp only [length_append, length_cons, paymentID.property]
    omega
  have next : ((left ++ noncePaymentId :: paymentID.val).length : Int) = left.length + 32 + 1 := by
    simp only [length_append, length_cons, paymentID.property]
    omega
  have rest_read : bytesFrom nonceData left.length =
      some (noncePaymentId :: (paymentID.val ++ right)) := by
    rw [spelled, bytesFrom_append]
  rw [parseNonceData, if_neg before_end, next, rest_read]
  simp only [bind_eq_bind, bind_some, headD_cons, tail_cons, complete, unseen,
    and_self, ↓reduceIte, podOf_append]

/-- Arbitrary data that is spelled as the bytes at a position say. -/
theorem parseNonceData_of_data {remaining : Bytes} {is : Int} {readDataSize dataSize : Nat}
    (before_end : is ≠ nonceData.length) (at_is : bytesFrom nonceData is = some remaining)
    (tag : remaining.headD 0 = arbitraryDataIdentifier) (more : 1 < remaining.length)
    (unseen : parse.seenExtraData = false)
    (size : scanSize remaining.tail = (readDataSize, dataSize))
    (inside : wrap (1 + readDataSize + dataSize) ≤ remaining.length)
    (copied : copyRange nonceData (is + 1 + signed readDataSize)
      (is + 1 + signed readDataSize + signed dataSize) = some data) (rounds advance : Nat) :
    parseNonceData nonceData (rounds + 1) is advance parse =
      parseNonceData nonceData rounds (is + signed (wrap (readDataSize + dataSize)) + 1)
        (wrap (advance + (1 + readDataSize + dataSize)))
        { parse with
          parsed := { parse.parsed with extraData := parse.parsed.extraData ++ data }
          seenExtraData := true } := by
  have no_paymentID : ¬(arbitraryDataIdentifier = noncePaymentId) := by decide
  rw [parseNonceData, if_neg before_end, at_is]
  simp only [bind_eq_bind, bind_some, tag, more, unseen, size, inside, copied,
    no_paymentID, false_and, and_self, ↓reduceIte]

theorem parseNonceData_data
    (spelled : nonceData = left ++ (arbitraryDataIdentifier :: (encode data.length ++ data)))
    (unseen : parse.seenExtraData = false) (fits : nonceData.length < 2 ^ 63) (rounds advance : Nat) :
    parseNonceData nonceData (rounds + 2) left.length advance parse =
      some (wrap (advance + (1 + (encode data.length).length + data.length)),
        { parse with
          parsed := { parse.parsed with extraData := parse.parsed.extraData ++ data }
          seenExtraData := true }) := by
  have size : nonceData.length = left.length + (1 + (encode data.length).length + data.length) := by
    simp only [spelled, length_append, length_cons]
    omega
  have some_size : 0 < (encode data.length).length := length_pos_of_ne_nil (encode_ne_nil _)
  have remaining_length : (arbitraryDataIdentifier :: (encode data.length ++ data)).length =
      1 + (encode data.length).length + data.length := by
    simp only [length_append, length_cons]
    omega
  have at_left : bytesFrom nonceData left.length =
      some (arbitraryDataIdentifier :: (encode data.length ++ data)) := by
    rw [spelled, bytesFrom_append]
  have small_size := signed_of_lt (by omega : (encode data.length).length < 2 ^ 63)
  have small_data := signed_of_lt (by omega : data.length < 2 ^ 63)
  have copied : copyRange nonceData (left.length + 1 + signed (encode data.length).length)
      (left.length + 1 + signed (encode data.length).length + signed data.length) =
      some data := by
    have read := copyRange_append (left ++ arbitraryDataIdentifier :: encode data.length) data []
    have position : ((left ++ arbitraryDataIdentifier :: encode data.length).length : Int) =
        left.length + 1 + (encode data.length).length := by
      simp only [length_append, length_cons]
      omega
    rw [position] at read
    rw [small_size, small_data, ← read, spelled]
    simp
  have at_end : (left.length : Int) +
      signed (wrap ((encode data.length).length + data.length)) + 1 = nonceData.length := by
    rw [wrap_of_lt (by omega), signed_of_lt (by omega), size]
    omega
  have inside : wrap (1 + (encode data.length).length + data.length) ≤
      (arbitraryDataIdentifier :: (encode data.length ++ data)).length := by
    rw [wrap_of_lt (by omega), remaining_length]
  rw [parseNonceData_of_data (by omega) at_left rfl (by omega) unseen
    (scanSize_encode (by omega) data) inside copied, at_end]
  simp [parseNonceData]

/-- What the wallet finds in the nonce of a payment. -/
def Parse.withNonce (parse : Parse) (paymentID : Option (Pod 32)) (extraData : Bytes) : Parse :=
  { parse with
    parsed :=
      { parse.parsed with
        paymentID := (paymentID.map podToHex).getD parse.parsed.paymentID
        extraData := parse.parsed.extraData ++ extraData }
    seenPaymentID := parse.seenPaymentID || paymentID.isSome
    seenExtraData := parse.seenExtraData || decide (extraData ≠ []) }

/-- After the payment id there is the data, or nothing. -/
theorem parseNonceData_sizedField {advance : Nat} (unseen : parse.seenExtraData = false)
    (fits : (left ++ sizedField arbitraryDataIdentifier data).length < 2 ^ 63)
    (advance_fits : advance + (sizedField arbitraryDataIdentifier data).length < 2 ^ 63)
    (rounds : Nat) :
    parseNonceData (left ++ sizedField arbitraryDataIdentifier data) (rounds + 2) left.length advance
        parse =
      some (advance + (sizedField arbitraryDataIdentifier data).length, parse.withNonce none data) := by
  by_cases empty : data = []
  · simp [sizedField, Parse.withNonce, empty, parseNonceData]
  · have field : sizedField arbitraryDataIdentifier data =
        arbitraryDataIdentifier :: (encode data.length ++ data) := if_neg empty
    have length : 1 + (encode data.length).length + data.length =
        (sizedField arbitraryDataIdentifier data).length := by
      simp only [field, length_append, length_cons]
      omega
    rw [parseNonceData_data (by rw [field]) unseen fits, length, wrap_of_lt advance_fits]
    simp [Parse.withNonce, empty]

/-- The nonce of a payment is read to its end. -/
theorem parseNonceData_extraNonce (no_paymentID : parse.seenPaymentID = false)
    (no_data : parse.seenExtraData = false) {advance : Nat}
    (fits : advance + (extraNonce paymentID extraData).length < 2 ^ 63) (rounds : Nat) :
    parseNonceData (extraNonce paymentID extraData) (rounds + 3) 0 advance parse =
      some (advance + (extraNonce paymentID extraData).length, parse.withNonce paymentID extraData) := by
  cases paymentID with
  | none =>
    exact @parseNonceData_sizedField [] extraData parse advance no_data
      (lt_of_le_of_lt (Nat.le_add_left _ _) fits) fits (rounds + 1)
  | some paymentID =>
    have length : (extraNonce (some paymentID) extraData).length =
        33 + (sizedField arbitraryDataIdentifier extraData).length := by
      simp only [extraNonce, paymentIDField, length_append, length_cons, paymentID.property]
    have first := @parseNonceData_paymentID (extraNonce (some paymentID) extraData) [] _ parse
      paymentID rfl no_paymentID (rounds + 2) advance
    rw [nil_append, wrap_of_lt (by omega)] at first
    have second := @parseNonceData_sizedField (noncePaymentId :: paymentID.val) extraData
      { parse with
        parsed := { parse.parsed with paymentID := podToHex paymentID }
        seenPaymentID := true }
      (advance + 33) no_data (lt_of_le_of_lt (Nat.le_add_left _ _) fits) (by omega) rounds
    refine first.trans (second.trans ?_)
    rw [length, Nat.add_assoc]
    simp [Parse.withNonce]

/-! ### One field of the extra -/

/-- The loop is at the beginning of `right`, and no merge mining tag was met. -/
structure At (extra left right : Bytes) (parse : Parse) : Prop where
  spelled : extra = left ++ right
  no_tag : parse.seenMergedMiningTag = false

theorem At.before_end {c : UInt8} (here : At extra left (c :: right) parse) :
    ¬(extra.length : Int) ≤ left.length := by
  simp only [here.spelled, length_append, length_cons]
  omega

/-- A round of the loop begins with the byte at its position. -/
theorem At.round {c : UInt8} (here : At extra left (c :: right) parse) :
    bytesFrom extra left.length = some (c :: right) := by
  rw [here.spelled, bytesFrom_append]

theorem parseLoop_pubkey {key : Pod 32}
    (here : At extra left (tagPubkey :: (key.val ++ right)) parse)
    (unseen : parse.seenPubKey = false) (rounds : Nat) :
    parseLoop extra (rounds + 1) left.length parse =
      parseLoop extra rounds (left ++ tagPubkey :: key.val).length
        { parse with
          parsed := { parse.parsed with transactionPublicKey := key }, seenPubKey := true } := by
  have complete : 32 < (tagPubkey :: (key.val ++ right)).length := by
    simp only [length_append, length_cons, key.property]
    omega
  have next : ((left ++ tagPubkey :: key.val).length : Int) = left.length + 32 + 1 := by
    simp only [length_append, length_cons, key.property]
    omega
  rw [parseLoop, if_neg here.before_end, here.round, next]
  simp only [here.no_tag, unseen, complete, Bool.and_false, Bool.false_and, Bool.false_eq_true,
    ↓reduceIte, bind_eq_bind, bind_some, headD_cons, tail_cons, and_self,
    podOf_append]

theorem parseLoop_powNonce
    (here : At extra left (transactionPowNonceIdentifier :: powNonce.val) parse)
    (unseen : parse.seenPowNonce = false) (rounds : Nat) :
    parseLoop extra (rounds + 2) left.length parse =
      some { parse.parsed with transactionPowNonce := ByteOrder.ofLittleEndian powNonce.val } := by
  have complete : 8 < (transactionPowNonceIdentifier :: powNonce.val).length := by
    simp only [length_cons, powNonce.property]
    omega
  have whole : powNonce.val.take 8 = powNonce.val := take_of_length_le powNonce.property.le
  have at_end : (extra.length : Int) ≤ left.length + 8 + 1 := by
    simp only [here.spelled, length_append, length_cons, powNonce.property]
    omega
  have no_pubkey : ¬(transactionPowNonceIdentifier = tagPubkey) := by decide
  have no_nonce : ¬(transactionPowNonceIdentifier = tagNonce) := by decide
  have no_mergeMining : ¬(transactionPowNonceIdentifier = tagMergeMining) := by decide
  rw [parseLoop, if_neg here.before_end, here.round]
  simp only [here.no_tag, unseen, complete, whole, Bool.and_false, Bool.false_eq_true, no_pubkey,
    no_nonce, no_mergeMining, false_and, ↓reduceIte, bind_eq_bind, bind_some,
    headD_cons, tail_cons, and_self]
  rw [parseLoop, if_pos at_end]

/-- The field of a payment's nonce. -/
theorem parseNonce_extraNonce {size : Bytes} (spelled : extra = tagNonce :: (size ++
      (extraNonce paymentID extraData ++ right)))
    (size_eq : size = encode (extraNonce paymentID extraData).length)
    (no_paymentID : parse.seenPaymentID = false) (no_data : parse.seenExtraData = false)
    (fits : extra.length < 2 ^ 63) : parseNonce extra 0 extra parse =
      some (size.length + (extraNonce paymentID extraData).length,
        parse.withNonce paymentID extraData) := by
  have length : extra.length =
      1 + size.length + (extraNonce paymentID extraData).length + right.length := by
    simp only [spelled, length_append, length_cons]
    omega
  have size_read : scanSize extra.tail = (size.length, (extraNonce paymentID extraData).length) := by
    rw [spelled, tail_cons, size_eq]
    exact scanSize_encode (by omega) _
  have inside : wrap (size.length + (extraNonce paymentID extraData).length) < extra.length := by
    rw [wrap_of_lt (by omega)]
    omega
  have copied : copyRange extra (0 + 1 + signed size.length)
      (0 + 1 + signed size.length + signed (extraNonce paymentID extraData).length) =
        some (extraNonce paymentID extraData) := by
    have read := copyRange_append (tagNonce :: size) (extraNonce paymentID extraData) right
    have position : ((tagNonce :: size).length : Int) = 0 + 1 + size.length := by
      simp only [length_cons]
      omega
    rw [position] at read
    rw [signed_of_lt (by omega), signed_of_lt (by omega), ← read, spelled]
    rfl
  simp only [parseNonce, size_read, inside, ↓reduceIte, copied, bind_eq_bind, bind_some]
  exact parseNonceData_extraNonce no_paymentID no_data (by omega) _

theorem parseLoop_keyFields {publicKey : Pod 32}
    (here : At extra left (keyFields publicKey powNonce) parse) (no_key : parse.seenPubKey = false)
    (no_pow : parse.seenPowNonce = false) (rounds : Nat) :
    parseLoop extra (rounds + 3) left.length parse =
      some
        { parse.parsed with
          transactionPublicKey := publicKey
          transactionPowNonce := ByteOrder.ofLittleEndian powNonce.val } := by
  have behind_key : extra = (left ++ tagPubkey :: publicKey.val) ++
      transactionPowNonceIdentifier :: powNonce.val := by
    rw [here.spelled, keyFields, append_assoc]
    rfl
  rw [parseLoop_pubkey here no_key]
  exact @parseLoop_powNonce _ _
    { parse with
      parsed := { parse.parsed with transactionPublicKey := publicKey }, seenPubKey := true }
    _ ⟨behind_key, here.no_tag⟩ no_pow rounds

theorem extraNonce_eq_nil :
    extraNonce paymentID extraData = [] ↔ paymentID = none ∧ extraData = [] := by
  cases paymentID <;> simp [extraNonce, paymentIDField, sizedField]

theorem parseLoop_nonce (some_nonce : extraNonce paymentID extraData ≠ [])
    (spelled : extra = sizedField tagNonce (extraNonce paymentID extraData) ++ right)
    (fits : extra.length < 2 ^ 63) (rounds : Nat) : parseLoop extra (rounds + 1) 0 {} =
      parseLoop extra rounds (sizedField tagNonce (extraNonce paymentID extraData)).length
        { ({} : Parse).withNonce paymentID extraData with seenNonce := true } := by
  let nonce := extraNonce paymentID extraData
  have field : sizedField tagNonce nonce = tagNonce :: (encode nonce.length ++ nonce) :=
    if_neg some_nonce
  have spelled_out : extra = tagNonce :: (encode nonce.length ++ (nonce ++ right)) := by
    rw [spelled, field, cons_append, append_assoc]
  have length : extra.length = 1 + (encode nonce.length).length + nonce.length + right.length := by
    simp only [spelled_out, length_append, length_cons]
    omega
  have some_size : 0 < (encode nonce.length).length := length_pos_of_ne_nil (encode_ne_nil _)
  have next : ((sizedField tagNonce nonce).length : Int) =
      0 + signed ((encode nonce.length).length + nonce.length) + 1 := by
    rw [signed_of_lt (by omega), field]
    simp only [length_append, length_cons]
    omega
  have before_end : ¬(extra.length : Int) ≤ 0 := by omega
  have at_start : bytesFrom extra 0 = some extra := bytesFrom_append [] extra
  have tag : extra.headD 0 = tagNonce := by rw [spelled_out, headD_cons]
  have more : 1 < extra.length := by omega
  have no_key : ¬(tagNonce = tagPubkey) := by decide
  have read := @parseNonce_extraNonce _ _ _ {} _ _ spelled_out rfl rfl rfl fits
  rw [parseLoop, if_neg before_end, at_start, next]
  simp only [Bool.false_and, Bool.false_eq_true, ↓reduceIte, bind_eq_bind, bind_some,
    tag, no_key, more, read, false_and, and_self, nonce]

/-- The wallet finds what the extra was made of. -/
theorem parseExtra_makeExtra {publicKey : Pod 32}
    (fits : (makeExtra paymentID extraData publicKey powNonce).length < 2 ^ 63) :
    parseExtra (makeExtra paymentID extraData publicKey powNonce) =
      some
        { transactionPublicKey := publicKey
          paymentID := (paymentID.map podToHex).getD []
          extraData
          transactionPowNonce := ByteOrder.ofLittleEndian powNonce.val } := by
  by_cases empty : extraNonce paymentID extraData = []
  · obtain ⟨rfl, rfl⟩ := extraNonce_eq_nil.1 empty
    exact @parseLoop_keyFields [] _ {} powNonce publicKey ⟨rfl, rfl⟩ rfl rfl _
  · have spelled : makeExtra paymentID extraData publicKey powNonce =
        sizedField tagNonce (extraNonce paymentID extraData) ++ keyFields publicKey powNonce := rfl
    rw [parseExtra, parseLoop_nonce empty spelled fits]
    exact parseLoop_keyFields ⟨rfl, rfl⟩ rfl rfl _

end DeroGold.Extra
