import DeroGold.TransactionEncoding
import DeroGold.TransactionExtra

/-!
Blocks as bytes (`serialization/CryptoNoteSerialization.cpp`).

From major version 2 on a block carries the block of another chain that it was mined with:
its header, the branch from its base transaction to its root, the base transaction itself,
whose extra field names the depth of a second branch, and that branch. Two numbers of the
parent block are read and not kept as they are: the number of its transactions is cut to 16
bits, and a number behind a base transaction of version 2 or higher is ignored.

`block_one_encoding`: an accepted block is written as it was read exactly when the first number
fits and the second one is 0.
-/

namespace DeroGold.Wire

open List Varint

open Codec (Canonical Writes fail put readMany writeAll bind_eq_ok_iff pure_eq_ok_iff fail_ne_ok)

/-- The base transaction has the fields of any transaction but no signatures. -/
structure ParentBlock where
  majorVersion : Nat
  minorVersion : Nat
  previousBlockHash : Pod 32
  transactionCount : Nat
  baseTransactionBranch : List (Pod 32)
  baseTransaction : TransactionPrefix
  blockchainBranch : List (Pod 32)
  deriving DecidableEq

structure BlockHeader where
  majorVersion : Nat
  minorVersion : Nat
  nonce : Pod 4
  timestamp : Nat
  previousBlockHash : Pod 32
  deriving DecidableEq

structure BlockTemplate extends BlockHeader where
  parentBlock : ParentBlock
  baseTransaction : Transaction
  transactionHashes : List (Pod 32)
  deriving DecidableEq

def zeros (size : Nat) : Pod size := ⟨List.replicate size 0, length_replicate⟩

/-- A parent block that nothing was read into. -/
def ParentBlock.empty : ParentBlock where
  majorVersion := 0
  minorVersion := 0
  previousBlockHash := zeros 32
  transactionCount := 0
  baseTransactionBranch := []
  baseTransaction := ⟨0, 0, [], [], []⟩
  blockchainBranch := []

def transactionVersion2 : Nat := 2

def lastMajorVersion : Nat := 7

/-- `Crypto::tree_depth`: shifts of 32, 16, 8, 4, 2 and 1 bits while something remains. -/
def treeDepth (count : Nat) : Nat :=
  ([32, 16, 8, 4, 2, 1].foldl
    (fun (state : Nat × Nat) shift =>
      if 0 < state.1 >>> shift then (state.1 >>> shift, state.2 + shift) else state)
    (count, 0)).2

/-- The deepest branch a merge mining tag may name. -/
def maxMergeMiningDepth : Nat := 8 * 32

/-! ### Reading and writing -/

/-- The base transaction of a parent block, and the number behind it that is ignored. -/
def readBaseTransaction : InputSerializer (TransactionPrefix × Nat) := do
  let version ← readVarint 8
  let tx ← readTransactionBody version
  if transactionVersion2 ≤ version then
    let ignored ← readVarint 64
    return (tx, ignored)
  else return (tx, 0)

/-- A base transaction with a number behind it; the source writes 0. -/
def writeBaseTransaction (ignored : Nat) (tx : TransactionPrefix) : OutputSerializer := do
  writeVarint tx.version
  writeTransactionBody tx
  if transactionVersion2 ≤ tx.version then writeVarint ignored else pure ()

/-- What is read for a parent block: the time and nonce that belong to the block itself, the
parent block, and the two numbers as they were spelled. -/
structure ParentFields where
  timestamp : Nat
  nonce : Pod 4
  parentBlock : ParentBlock
  numberOfTransactions : Nat
  ignored : Nat
  deriving DecidableEq

def readParentBlock : InputSerializer ParentFields := do
  let majorVersion ← readVarint 8
  let minorVersion ← readVarint 8
  let timestamp ← readVarint 64
  let previousBlockHash ← readBinary 32
  let nonce ← readBinary 4
  let txNum ← readVarint 64
  let transactionCount := txNum % 2 ^ 16
  if transactionCount < 1 then fail .wrongTransactionsNumber
  else
    let baseTransactionBranch ← readMany (readBinary 32) (treeDepth transactionCount)
    let base ← readBaseTransaction
    match Extra.getMergeMiningTagFromExtra base.1.extra with
    | none => fail .noMergeMiningTag
    | some mmTag =>
      if maxMergeMiningDepth < mmTag.1 then fail .wrongMergeMiningTagDepth
      else
        let blockchainBranch ← readMany (readBinary 32) mmTag.1
        return {
          timestamp := timestamp
          nonce := nonce
          parentBlock := ⟨majorVersion, minorVersion, previousBlockHash, transactionCount,
            baseTransactionBranch, base.1, blockchainBranch⟩
          numberOfTransactions := txNum
          ignored := base.2 }

/-- A parent block with the two numbers given; the source writes the transaction count and 0. -/
def writeParentBlock (txNum ignored timestamp : Nat) (nonce : Pod 4) (parent : ParentBlock) :
    OutputSerializer := do
  writeVarint parent.majorVersion
  writeVarint parent.minorVersion
  writeVarint timestamp
  writeBinary parent.previousBlockHash
  writeBinary nonce
  writeVarint txNum
  if parent.transactionCount < 1 then fail .wrongTransactionsNumber
  else if parent.baseTransactionBranch.length ≠ treeDepth parent.transactionCount then
    fail .wrongMinerTransactionBranchSize
  else
    writeAll writeBinary parent.baseTransactionBranch
    writeBaseTransaction ignored parent.baseTransaction
    match Extra.getMergeMiningTagFromExtra parent.baseTransaction.extra with
    | none => fail .noMergeMiningTag
    | some mmTag =>
      if maxMergeMiningDepth < mmTag.1 then fail .wrongMergeMiningTagDepth
      else if mmTag.1 ≠ parent.blockchainBranch.length then fail .wrongBlockchainBranchSize
      else writeAll writeBinary parent.blockchainBranch

/-- The header. From version 2 on, time and nonce come with the parent block. -/
def readBlockHeader : InputSerializer BlockHeader := do
  let majorVersion ← readVarint 8
  if lastMajorVersion < majorVersion then fail .wrongMajorVersion
  else
    let minorVersion ← readVarint 8
    if majorVersion = 1 then
      let timestamp ← readVarint 64
      let previousBlockHash ← readBinary 32
      let nonce ← readBinary 4
      return ⟨majorVersion, minorVersion, nonce, timestamp, previousBlockHash⟩
    else if 2 ≤ majorVersion then
      let previousBlockHash ← readBinary 32
      return ⟨majorVersion, minorVersion, zeros 4, 0, previousBlockHash⟩
    else fail .wrongMajorVersion

def writeBlockHeader (header : BlockHeader) : OutputSerializer := do
  writeVarint header.majorVersion
  if lastMajorVersion < header.majorVersion then fail .wrongMajorVersion
  else
    writeVarint header.minorVersion
    if header.majorVersion = 1 then
      writeVarint header.timestamp
      writeBinary header.previousBlockHash
      writeBinary header.nonce
    else if 2 ≤ header.majorVersion then writeBinary header.previousBlockHash
    else fail .wrongMajorVersion

/-- What stands behind the header and the parent block. -/
def readBlockBody : InputSerializer (Transaction × List (Pod 32)) := do
  let baseTransaction ← readTransaction
  let transactionHashes ← readVector (readBinary 32)
  return (baseTransaction, transactionHashes)

def writeBlockBody (body : Transaction × List (Pod 32)) : OutputSerializer := do
  writeTransaction body.1
  writeVector writeBinary body.2

/-- A block, and the two numbers of its parent block as they were spelled, if it has one. -/
def readSpelledBlock : InputSerializer (BlockTemplate × Option (Nat × Nat)) := do
  let header ← readBlockHeader
  if 2 ≤ header.majorVersion then
    let parent ← readParentBlock
    let body ← readBlockBody
    return ({ header with
      timestamp := parent.timestamp
      nonce := parent.nonce
      parentBlock := parent.parentBlock
      baseTransaction := body.1
      transactionHashes := body.2 }, some (parent.numberOfTransactions, parent.ignored))
  else
    let body ← readBlockBody
    return ({ header with
      parentBlock := .empty
      baseTransaction := body.1
      transactionHashes := body.2 }, none)

def readBlockTemplate : InputSerializer BlockTemplate := do
  let spelled ← readSpelledBlock
  return spelled.1

/-- A block with the two numbers of its parent block given. -/
def writeSpelledBlock (txNum ignored : Nat) (block : BlockTemplate) : OutputSerializer := do
  writeBlockHeader block.toBlockHeader
  if 2 ≤ block.majorVersion then
    writeParentBlock txNum ignored block.timestamp block.nonce block.parentBlock
    writeBlockBody (block.baseTransaction, block.transactionHashes)
  else writeBlockBody (block.baseTransaction, block.transactionHashes)

def writeBlockTemplate (block : BlockTemplate) : OutputSerializer :=
  writeSpelledBlock block.parentBlock.transactionCount 0 block

/-! ### What the two numbers leave open -/

/-- The bytes of the ignored number, which only some versions have. -/
def ignoredBytes (version ignored : Nat) : Bytes :=
  if transactionVersion2 ≤ version then encode ignored else []

variable {bytes rest : Bytes}

/-- Everything but the ignored number is written as it was read. -/
theorem readBaseTransaction_spec {base : TransactionPrefix × Nat}
    (found : readBaseTransaction bytes = .ok (base, rest)) :
    (base.1.version < transactionVersion2 → base.2 = 0) ∧
    ∃ front, bytes = front ++ (ignoredBytes base.1.version base.2 ++ rest) ∧
      ∀ ignored, Writes (writeBaseTransaction ignored base.1)
        (front ++ ignoredBytes base.1.version ignored) := by
  obtain ⟨version, front1, _, rfl, written1, found⟩ :=
    (canonical_readVarint (by decide)).of_bind found
  obtain ⟨tx, left2, body_read, number_read⟩ := bind_eq_ok_iff.1 found
  obtain ⟨rfl, front2, rfl, written2⟩ := canonical_readTransactionBody body_read
  have written : ∀ ignored, Writes (writeBaseTransaction ignored tx)
      ((front1 ++ front2) ++ ignoredBytes tx.version ignored) := by
    intro ignored
    rw [ignoredBytes, append_assoc]
    apply written1.bind
    apply written2.bind
    split_ifs
    · exact writes_writeVarint ignored
    · exact Codec.writes_pure
  by_cases numbered : transactionVersion2 ≤ tx.version
  · rw [if_pos numbered] at number_read
    obtain ⟨ignored, left3, ignored_read, made⟩ := bind_eq_ok_iff.1 number_read
    obtain ⟨rfl, rfl⟩ := pure_eq_ok_iff.1 made
    obtain rfl := eq_encode_of_readVarint (by decide) ignored_read
    refine ⟨fun small => absurd numbered (not_le.2 small), front1 ++ front2, ?_, written⟩
    simp [ignoredBytes, numbered]
  · rw [if_neg numbered] at number_read
    obtain ⟨rfl, rfl⟩ := pure_eq_ok_iff.1 number_read
    refine ⟨fun _ => rfl, front1 ++ front2, ?_, written⟩
    simp [ignoredBytes, numbered]

/-- Three pieces of a parent block are written as they were read; the two numbers stand between
them. -/
theorem readParentBlock_spec {fields : ParentFields}
    (found : readParentBlock bytes = .ok (fields, rest)) :
    fields.parentBlock.transactionCount = fields.numberOfTransactions % 2 ^ 16 ∧
    (fields.parentBlock.baseTransaction.version < transactionVersion2 → fields.ignored = 0) ∧
    ∃ front mid back,
      bytes = front ++ (encode fields.numberOfTransactions ++ (mid ++
        (ignoredBytes fields.parentBlock.baseTransaction.version fields.ignored ++ (back ++ rest)))) ∧
      ∀ txNum ignored, Writes
        (writeParentBlock txNum ignored fields.timestamp fields.nonce fields.parentBlock)
        (front ++ (encode txNum ++ (mid ++
          (ignoredBytes fields.parentBlock.baseTransaction.version ignored ++ back)))) := by
  obtain ⟨majorVersion, front1, _, rfl, written1, found⟩ :=
    (canonical_readVarint (by decide)).of_bind found
  obtain ⟨minorVersion, front2, _, rfl, written2, found⟩ :=
    (canonical_readVarint (by decide)).of_bind found
  obtain ⟨timestamp, front3, _, rfl, written3, found⟩ :=
    (canonical_readVarint (by decide)).of_bind found
  obtain ⟨previousBlockHash, front4, _, rfl, written4, found⟩ :=
    (canonical_readBinary 32).of_bind found
  obtain ⟨nonce, front5, _, rfl, written5, found⟩ := (canonical_readBinary 4).of_bind found
  obtain ⟨txNum, left6, number_read, found⟩ := bind_eq_ok_iff.1 found
  by_cases few : txNum % 2 ^ 16 < 1
  · rw [if_pos few] at found
    exact absurd found fail_ne_ok
  rw [if_neg few] at found
  obtain ⟨branch, left7, branch_read, found⟩ := bind_eq_ok_iff.1 found
  obtain ⟨base, left8, base_read, found⟩ := bind_eq_ok_iff.1 found
  cases tag : Extra.getMergeMiningTagFromExtra base.1.extra with
  | none =>
    rw [tag] at found
    exact absurd found fail_ne_ok
  | some mmTag =>
    simp only [tag] at found
    by_cases deep : maxMergeMiningDepth < mmTag.1
    · rw [if_pos deep] at found
      exact absurd found fail_ne_ok
    rw [if_neg deep] at found
    obtain ⟨blockchainBranch, left9, blockchain_read, found⟩ := bind_eq_ok_iff.1 found
    obtain ⟨rfl, rfl⟩ := pure_eq_ok_iff.1 found
    obtain rfl := eq_encode_of_readVarint (by decide) number_read
    obtain ⟨branch_length, front7, rfl, written7⟩ := (canonical_readBinary 32).readMany branch_read
    obtain ⟨unnumbered, front8, rfl, written8⟩ := readBaseTransaction_spec base_read
    obtain ⟨blockchain_length, front9, rfl, written9⟩ :=
      (canonical_readBinary 32).readMany blockchain_read
    refine ⟨rfl, unnumbered, front1 ++ (front2 ++ (front3 ++ (front4 ++ front5))), front7 ++ front8,
      front9, by simp, ?_⟩
    intro other ignored
    have pieces := written1.bind (written2.bind (written3.bind (written4.bind (written5.bind
      ((writes_writeVarint other).bind (written7.bind ((written8 ignored).bind written9)))))))
    simp only [writeParentBlock, if_neg few, branch_length, ne_eq, not_true_eq_false, if_false, tag,
      if_neg deep, blockchain_length]
    simpa only [append_assoc] using pieces

/-- A header is written as it was read; from version 2 on its time and nonce are not written. -/
theorem readBlockHeader_spec {header : BlockHeader}
    (found : readBlockHeader bytes = .ok (header, rest)) :
    ∃ front, bytes = front ++ rest ∧ Writes (writeBlockHeader header) front ∧
      (2 ≤ header.majorVersion → ∀ timestamp nonce,
        Writes (writeBlockHeader { header with timestamp := timestamp, nonce := nonce }) front) := by
  obtain ⟨majorVersion, front1, _, rfl, written1, found⟩ :=
    (canonical_readVarint (by decide)).of_bind found
  by_cases unknown : lastMajorVersion < majorVersion
  · rw [if_pos unknown] at found
    exact absurd found fail_ne_ok
  rw [if_neg unknown] at found
  obtain ⟨minorVersion, front2, _, rfl, written2, found⟩ :=
    (canonical_readVarint (by decide)).of_bind found
  by_cases first : majorVersion = 1
  · rw [if_pos first] at found
    obtain ⟨timestamp, front3, _, rfl, written3, found⟩ :=
      (canonical_readVarint (by decide)).of_bind found
    obtain ⟨previousBlockHash, front4, _, rfl, written4, found⟩ :=
      (canonical_readBinary 32).of_bind found
    obtain ⟨nonce, front5, _, rfl, written5, found⟩ := (canonical_readBinary 4).of_bind found
    obtain ⟨rfl, rfl⟩ := pure_eq_ok_iff.1 found
    refine ⟨front1 ++ (front2 ++ (front3 ++ (front4 ++ front5))), by simp, ?_, ?_⟩
    · simp only [writeBlockHeader, if_neg unknown, if_pos first]
      exact written1.bind (written2.bind (written3.bind (written4.bind written5)))
    · intro later
      exact absurd later (by simp [first])
  · rw [if_neg first] at found
    by_cases later : 2 ≤ majorVersion
    · rw [if_pos later] at found
      obtain ⟨previousBlockHash, front4, _, rfl, written4, found⟩ :=
        (canonical_readBinary 32).of_bind found
      obtain ⟨rfl, rfl⟩ := pure_eq_ok_iff.1 found
      have written : ∀ timestamp nonce, Writes (writeBlockHeader
          ⟨majorVersion, minorVersion, nonce, timestamp, previousBlockHash⟩)
          (front1 ++ (front2 ++ front4)) := by
        intro timestamp nonce
        simp only [writeBlockHeader, if_neg unknown, if_neg first, if_pos later]
        exact written1.bind (written2.bind written4)
      exact ⟨front1 ++ (front2 ++ front4), by simp, written 0 (zeros 4),
        fun _ timestamp nonce => written timestamp nonce⟩
    · rw [if_neg later] at found
      exact absurd found fail_ne_ok

theorem canonical_readBlockBody : Canonical readBlockBody writeBlockBody := by
  intro bytes body rest found
  obtain ⟨baseTransaction, front1, _, rfl, written1, found⟩ :=
    canonical_readTransaction.of_bind found
  obtain ⟨transactionHashes, front2, _, rfl, written2, found⟩ :=
    (canonical_readVector (canonical_readBinary 32)).of_bind found
  obtain ⟨rfl, rfl⟩ := pure_eq_ok_iff.1 found
  exact ⟨front1 ++ front2, by simp, written1.bind written2⟩

/-- What is written for a block that was read, for each choice of the two numbers: if it has a
parent block, the bytes read with the two numbers replaced. -/
theorem readSpelledBlock_spec {block : BlockTemplate} {numbers : Option (Nat × Nat)}
    (found : readSpelledBlock bytes = .ok ((block, numbers), rest)) :
    (numbers = none ∧ ∃ front, bytes = front ++ rest ∧
      ∀ txNum ignored, Writes (writeSpelledBlock txNum ignored block) front) ∨
    ∃ count number front mid back, numbers = some (count, number) ∧
      block.parentBlock.transactionCount = count % 2 ^ 16 ∧
      (block.parentBlock.baseTransaction.version < transactionVersion2 → number = 0) ∧
      bytes = front ++ (encode count ++ (mid ++
        (ignoredBytes block.parentBlock.baseTransaction.version number ++ (back ++ rest)))) ∧
      ∀ txNum ignored, Writes (writeSpelledBlock txNum ignored block)
        (front ++ (encode txNum ++ (mid ++
          (ignoredBytes block.parentBlock.baseTransaction.version ignored ++ back)))) := by
  obtain ⟨header, left1, header_read, content_read⟩ := bind_eq_ok_iff.1 found
  obtain ⟨front1, rfl, written1, written1'⟩ := readBlockHeader_spec header_read
  by_cases later : 2 ≤ header.majorVersion
  · right
    rw [if_pos later] at content_read
    obtain ⟨parent, left2, parent_read, content_read⟩ := bind_eq_ok_iff.1 content_read
    obtain ⟨body, front3, _, rfl, written3, made⟩ := canonical_readBlockBody.of_bind content_read
    obtain ⟨same, rfl⟩ := pure_eq_ok_iff.1 made
    cases same
    obtain ⟨count_eq, unnumbered, front, mid, back, rfl, written2⟩ := readParentBlock_spec parent_read
    refine ⟨parent.numberOfTransactions, parent.ignored, front1 ++ front, mid, back ++ front3, rfl,
      count_eq, unnumbered, by simp, ?_⟩
    intro txNum ignored
    have pieces := (written1' later parent.timestamp parent.nonce).bind
      ((written2 txNum ignored).bind written3)
    simp only [writeSpelledBlock, if_pos later]
    simpa only [append_assoc] using pieces
  · left
    rw [if_neg later] at content_read
    obtain ⟨body, front2, _, rfl, written2, made⟩ := canonical_readBlockBody.of_bind content_read
    obtain ⟨same, rfl⟩ := pure_eq_ok_iff.1 made
    cases same
    refine ⟨rfl, front1 ++ front2, by simp, ?_⟩
    intro txNum ignored
    simp only [writeSpelledBlock, if_neg later]
    exact written1.bind written2

/-- The two numbers of the parent block, if the bytes have one: the number of transactions fits 16
bits, and the number that is ignored is 0. -/
def NumbersKept (bytes : Bytes) : Prop :=
  ∀ block count ignored, fromBinaryArray readSpelledBlock bytes = .ok (block, some (count, ignored)) →
    count < 2 ^ 16 ∧ ignored = 0

/-- The ignored number is written as it was read only if it is 0. -/
theorem ignored_eq_zero {version number : Nat} {back : Bytes}
    (unnumbered : version < transactionVersion2 → number = 0)
    (same : ignoredBytes version 0 ++ back = ignoredBytes version number ++ back) : number = 0 := by
  by_cases numbered : transactionVersion2 ≤ version
  · rw [ignoredBytes, ignoredBytes, if_pos numbered, if_pos numbered] at same
    exact (encode_append_inj same).1.symm
  · exact unnumbered (not_le.1 numbered)

/-- Blocks have one encoding as far as the two numbers of the parent block are kept: an accepted
block is written as it was read exactly when they are. -/
theorem block_one_encoding {bytes : Bytes} {block : BlockTemplate}
    (accepted : fromBinaryArray readBlockTemplate bytes = .ok block) :
    toBinaryArray (writeBlockTemplate block) = .ok bytes ↔ NumbersKept bytes := by
  obtain ⟨⟨_, numbers⟩, _, spelled, made⟩ := bind_eq_ok_iff.1 (fromBinaryArray_eq_ok_iff.1 accepted)
  obtain ⟨rfl, rfl⟩ := pure_eq_ok_iff.1 made
  obtain ⟨rfl, front, rfl, written⟩ | ⟨count, number, front, mid, back, rfl, count_eq, unnumbered,
    rfl, written⟩ := readSpelledBlock_spec spelled
  · apply iff_of_true
    · rw [append_nil]
      exact toBinaryArray_of_writes (written _ _)
    · intro other count ignored found
      rw [fromBinaryArray_eq_ok_iff, spelled] at found
      cases found
  · rw [append_nil] at spelled ⊢
    rw [writeBlockTemplate, toBinaryArray_of_writes (written _ _), Except.ok.injEq,
      append_cancel_left_eq, count_eq]
    constructor
    · intro same other count' ignored' found
      rw [fromBinaryArray_eq_ok_iff, spelled] at found
      cases found
      -- both spellings begin with the number of transactions and go on with the same piece
      obtain ⟨fits, same⟩ := encode_append_inj same
      rw [append_cancel_left_eq] at same
      refine ⟨?_, ignored_eq_zero unnumbered same⟩
      rw [← fits]
      exact Nat.mod_lt _ (by decide)
    · intro kept
      obtain ⟨fits, rfl⟩ := kept _ count number (fromBinaryArray_eq_ok_iff.2 spelled)
      rw [Nat.mod_eq_of_lt fits]

namespace Sample

/-- The base transaction of a parent block, with a merge mining tag of depth 0. -/
def parentTransaction (version : Nat) : TransactionPrefix where
  version := version
  unlockTime := 0
  inputs := [.base 0]
  outputs := []
  extra := [3, 33, 0] ++ List.replicate 32 9

/-- A block of version 2 whose parent block has one transaction. -/
def mergeMined (version : Nat) : BlockTemplate where
  majorVersion := 2
  minorVersion := 0
  nonce := pod 4 6
  timestamp := 5
  previousBlockHash := pod 32 4
  parentBlock := {
    majorVersion := 1
    minorVersion := 0
    previousBlockHash := pod 32 5
    transactionCount := 1
    baseTransactionBranch := []
    baseTransaction := parentTransaction version
    blockchainBranch := [] }
  baseTransaction := ⟨⟨1, 10, [.base 1], [], []⟩, []⟩
  transactionHashes := []

/-- Its bytes, with the number of parent transactions and the ignored number given. -/
def mergeMinedBlob (count : Bytes) (version : UInt8) (ignored : Bytes) : Bytes :=
  [2, 0] ++ List.replicate 32 4 ++ [1, 0, 5] ++ List.replicate 32 5 ++ List.replicate 4 6 ++ count ++
    [version, 0, 1, 255, 0, 0, 35, 3, 33, 0] ++ List.replicate 32 9 ++ ignored ++
    [1, 10, 1, 255, 1, 0, 0, 0]

theorem block_one_encoding_here :
    toBinaryArray (writeBlockTemplate (mergeMined 2)) = .ok (mergeMinedBlob [1] 2 [0]) := by
  refine (block_one_encoding (by decide +kernel)).2 fun block count ignored found => ?_
  have read : (fromBinaryArray readSpelledBlock (mergeMinedBlob [1] 2 [0])).map (·.2) =
      .ok (some (1, 0)) := by decide +kernel
  rw [found] at read
  cases read
  decide

/-- The number 65537 of parent transactions is taken for 1, and a 1 behind a parent transaction of
version 2 for 0: both blocks are accepted and written with other bytes. -/
theorem numbers_lost :
    (fromBinaryArray readBlockTemplate (mergeMinedBlob [129, 128, 4] 1 []) = .ok (mergeMined 1) ∧
      toBinaryArray (writeBlockTemplate (mergeMined 1)) ≠ .ok (mergeMinedBlob [129, 128, 4] 1 [])) ∧
    fromBinaryArray readBlockTemplate (mergeMinedBlob [1] 2 [1]) = .ok (mergeMined 2) ∧
      toBinaryArray (writeBlockTemplate (mergeMined 2)) ≠ .ok (mergeMinedBlob [1] 2 [1]) := by
  decide +kernel

end Sample

end DeroGold.Wire
