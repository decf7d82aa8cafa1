import DeroGold.Import
import DeroGold.Sync

/-!
Importing a dump: a file of records, each a height, the length of a block and the block's
bytes. The reader mixes words and raw bytes of one stream; the import skips heights it has
and pushes the other blocks on the main leaf.

When an import succeeds, it has not always read the file: a record that cannot be read has
height 0, and on a database with more than the genesis block this height is skipped like
any other. `restored_iff_clear` says for which files success means what it seems to mean.

The texts of the messages are left out.
-/

namespace DeroGold

open InputStream SegmentTree List Option Prod Lineage

/-! ### Reading a record -/

/-- What the import is given: how bytes are read as a block, the longest string that can
be allocated, and what an uninitialised hash happens to hold. Block bytes may be readable
as a raw block whose template is not readable, `some none`. -/
structure DumpEnv where
  fromBinaryArray : Bytes → Option (Option RawBlock)
  maxSize : Nat
  uninitialised : Hash

/-- A height and the block after it. -/
abbrev DumpRecord := Nat × Option RawBlock

/-- Why a record cannot be read. The first is the end of the file, and also a height
without a length. -/
inductive ReadError where
  | empty (blockIndexStr : Bytes)
  | wrongHeight (blockIndex prevBlockHeight : Nat)
  | pastEnd (blockIndex rawBlockLen : Nat)
  | notParsed (blockIndex : Nat)
  | exception (prevBlockHeight : Nat) (blockIndexStr rawBlockLenStr : Bytes)
  deriving DecidableEq

/-- Read the record at the front. The height is compared with the previous one unless that
is 0. -/
def readRawBlock (dump : DumpEnv) (prevBlockHeight : Nat) (stream : InputStream) :
    Except ReadError DumpRecord × InputStream :=
  let blockIndexStr := stream.readToken.1
  let rawBlockLenStr := stream.readToken.2.readToken.1
  let stream := stream.readToken.2.readToken.2
  if blockIndexStr = [] ∨ rawBlockLenStr = [] then (.error (.empty blockIndexStr), stream)
  else
    match stoull blockIndexStr, stoull rawBlockLenStr with
    | some blockIndex, some rawBlockLen =>
      if blockIndex ≠ uint64 (prevBlockHeight + 1) ∧ prevBlockHeight ≠ 0 then
        (.error (.wrongHeight blockIndex prevBlockHeight), stream)
      else if dump.maxSize < rawBlockLen then
        (.error (.exception prevBlockHeight blockIndexStr rawBlockLenStr), stream)
      else
        match stream.ignore.read rawBlockLen with
        | (none, stream) => (.error (.pastEnd blockIndex rawBlockLen), stream)
        | (some bytes, stream) =>
          match dump.fromBinaryArray bytes with
          | none => (.error (.notParsed blockIndex), stream)
          | some block => (.ok (blockIndex, block), stream.ignore)
    | _, _ => (.error (.exception prevBlockHeight blockIndexStr rawBlockLenStr), stream)

/-! ### The import -/

inductive ImportError where
  | notOpened
  | read (error : ReadError)
  | gap (startHeight currentIndex : Nat)
  | imported (failure : ImportFailure)
  | rejected (outcome : AddBlockOutcome)
  | unread
  deriving DecidableEq

abbrev ImportOutcome := Core × Except ImportError Unit

/-- State of the loop over the records. -/
structure ImportState where
  core : Core
  stream : InputStream
  blockHeight : Nat
  previousBlockHash : Hash

namespace Core

def nullHash : Hash := 0

def getBlockHashByIndex (core : Core) (blockIndex : Nat) : Hash :=
  if core.getTopBlockIndex < blockIndex then nullHash
  else (core.mainLineage.getBlockHash blockIndex).getD nullHash

/-- The block index below a height of 64 bits. -/
def indexBelow (height : Nat) : Nat := uint32 (subUInt64 height 1)

/-- `importRawBlock` at any height. The height is tested and reported as it is, but block
indexes have 32 bits. A template that cannot be read throws, and so does an index above the
top, whose totals are asked for. -/
def importRecord (core : Core) (block : Option RawBlock) (previousBlockHash : Hash)
    (height : Nat) : Except ImportFailure (Core × Hash) :=
  match block with
  | none => .error .threw
  | some raw =>
    if raw.block.previousBlockHash ≠ previousBlockHash ∧ height ≠ 0 then
      .error (.previousHashMismatch height)
    else
      match extractTransactions raw.transactions with
      | .error _ => .error (.unparsedTransactions height)
      | .ok _ =>
        if core.getTopBlockIndex < indexBelow height then .error .threw
        else core.importRawBlock raw raw.block.previousBlockHash (indexBelow height + 1)

/-- Behind the loop only the end of the file is success. -/
def importFinished (stream : InputStream) : Except ImportError Unit :=
  if stream.eof then .ok () else .error .unread

section

variable (env : Env) (dump : DumpEnv) (order : HashOrder) (now : Nat)
  (performExpensiveValidation : Bool) (currentIndex : Nat)

/-- What becomes of a record that is not skipped. Every code of `addBlock`, that of success
too, is different from 0 and taken for an error. -/
def importNext (state : ImportState) (record : DumpRecord) (stream : InputStream) :
    ImportState ⊕ ImportOutcome :=
  if performExpensiveValidation then
    match record.2 with
    | none => .inr (state.core, .error (.rejected (.failed .deserializationFailed)))
    | some raw =>
      let added := state.core.addBlock env order now raw
      .inr (added.1, .error (.rejected added.2))
  else
    match state.core.importRecord record.2 state.previousBlockHash record.1 with
    | .ok (core, hash) => .inl ⟨core, stream, record.1, hash⟩
    | .error failure => .inr (state.core, .error (.imported failure))

/-- One round of the loop: the state of the next round, or the outcome. A record that
cannot be read has height 0. -/
def importRound (state : ImportState) : ImportState ⊕ ImportOutcome :=
  if state.stream.fail then .inr (state.core, importFinished state.stream)
  else
    match readRawBlock dump state.blockHeight state.stream with
    | (result, stream) =>
      let blockHeight := (result.map fst).toOption.getD 0
      if blockHeight ≤ currentIndex - 1 ∧ currentIndex ≠ 1 then
        match state.core.mainLineage.getBlockHash blockHeight with
        | some hash => .inl ⟨state.core, stream, blockHeight, hash⟩
        -- the exception is caught and the loop left
        | none => .inr (state.core, importFinished stream)
      else
        match result with
        | .error (.empty _) => .inr (state.core, .ok ())
        | .error error => .inr (state.core, .error (.read error))
        | .ok record => importNext env order now performExpensiveValidation state record stream

def importLoop : Nat → ImportState → Option ImportOutcome
  | 0, _ => none
  | rounds + 1, state =>
    match importRound env dump order now performExpensiveValidation currentIndex state with
    | .inl next => importLoop rounds next
    | .inr outcome => some outcome

end

/-- `none` for the file is one that cannot be opened. Every round takes bytes or is the
last but one, so the loop has enough rounds. -/
def importBlockchain (env : Env) (dump : DumpEnv) (order : HashOrder) (now : Nat)
    (performExpensiveValidation : Bool) (core : Core) (file : Option Bytes) :
    Option ImportOutcome :=
  match file with
  | none => some (core, .error .notOpened)
  | some bytes =>
    let currentIndex := core.getTopBlockIndex + 1
    let loop := importLoop env dump order now performExpensiveValidation currentIndex
      (bytes.length + 1)
    match readRawBlock dump 0 (ofBytes bytes) with
    | (.error error, _) => some (core, .error (.read error))
    | (.ok (startHeight, block), stream) =>
      if currentIndex < startHeight ∧ currentIndex ≠ 1 then
        some (core, .error (.gap startHeight currentIndex))
      else if currentIndex = 1 then
        match core.importRecord block (core.getBlockHashByIndex (indexBelow startHeight))
          startHeight with
        | .ok (core, hash) => loop ⟨core, stream, startHeight, hash⟩
        | .error failure => some (core, .error (.imported failure))
      else loop ⟨core, stream, startHeight, dump.uninitialised⟩

end Core

/-! ### What stands at the front of a stream -/

section Front

variable {dump : DumpEnv} {stream : InputStream}

/-- The height follows the previous one, or there is none to follow. -/
def HeightFollows (prevBlockHeight blockIndex : Nat) : Prop :=
  prevBlockHeight = 0 ∨ blockIndex = uint64 (prevBlockHeight + 1)

/-- What the reader finds at the front, whatever height came before: no two words, something
that is not a record, or a record, of which only the height may be wrong. -/
inductive Front (dump : DumpEnv) (stream : InputStream) : Prop
  | blank (word : Bytes) (rest : InputStream) (failed : rest.fail = true)
      (read : ∀ prev, readRawBlock dump prev stream = (.error (.empty word), rest))
  | garbage (read : ∀ prev, ∃ error rest, readRawBlock dump prev stream = (.error error, rest) ∧
      ∀ word, error ≠ .empty word)
  | record (found : DumpRecord) (rest : InputStream) (small : found.1 < 2 ^ 64)
      (read : ∀ prev, HeightFollows prev found.1 →
        readRawBlock dump prev stream = (.ok found, rest))
      (wrong : ∀ prev, ¬ HeightFollows prev found.1 → ∃ left,
        readRawBlock dump prev stream = (.error (.wrongHeight found.1 prev), left))

variable {prev index : Nat}

theorem not_heightFollows_iff :
    ¬ HeightFollows prev index ↔ index ≠ uint64 (prev + 1) ∧ prev ≠ 0 := by
  rw [HeightFollows, not_or, and_comm]

theorem heightFollows_iff :
    HeightFollows prev index ↔ ¬ (index ≠ uint64 (prev + 1) ∧ prev ≠ 0) := by
  rw [← not_heightFollows_iff, not_not]

theorem front (dump : DumpEnv) (stream : InputStream) : Front dump stream := by
  by_cases words : stream.readToken.1 = [] ∨ stream.readToken.2.readToken.1 = []
  · refine .blank _ stream.readToken.2.readToken.2 ?_ fun prev => if_pos words
    rcases words with none | none
    · -- the stream has failed with the first word and stays so
      have failed := fail_of_readToken_nil none
      rwa [readToken_of_fail failed]
    · exact fail_of_readToken_nil none
  · have shape : ∀ prev, readRawBlock dump prev stream = _ := fun prev => if_neg words
    cases index : stoull stream.readToken.1 with
    | none =>
      simp only [index] at shape
      exact .garbage fun prev => ⟨_, _, shape prev, by simp⟩
    | some blockIndex =>
      cases length : stoull stream.readToken.2.readToken.1 with
      | none =>
        simp only [index, length] at shape
        exact .garbage fun prev => ⟨_, _, shape prev, by simp⟩
      | some rawBlockLen =>
        simp only [index, length] at shape
        by_cases large : dump.maxSize < rawBlockLen
        · refine .garbage fun prev => ?_
          by_cases follows : HeightFollows prev blockIndex
          · have read := shape prev
            rw [if_neg (heightFollows_iff.1 follows), if_pos large] at read
            exact ⟨_, _, read, by simp⟩
          · exact ⟨_, _, (shape prev).trans (if_pos (not_heightFollows_iff.1 follows)), by simp⟩
        · simp only [if_neg large] at shape
          rcases taken : stream.readToken.2.readToken.2.ignore.read rawBlockLen with ⟨bytes, left⟩
          simp only [taken] at shape
          -- a record that cannot be parsed may have a wrong height as well
          have garbage : ∀ error, (∀ word, error ≠ ReadError.empty word) →
              (∀ prev, HeightFollows prev blockIndex →
                readRawBlock dump prev stream = (.error error, left)) → Front dump stream := by
            intro error other read
            refine .garbage fun prev => ?_
            by_cases follows : HeightFollows prev blockIndex
            · exact ⟨_, _, read prev follows, other⟩
            · exact ⟨_, _, (shape prev).trans (if_pos (not_heightFollows_iff.1 follows)), by simp⟩
          cases bytes with
          | none =>
            refine garbage (.pastEnd blockIndex rawBlockLen) (by simp) fun prev follows => ?_
            rw [shape, if_neg (heightFollows_iff.1 follows)]
          | some bytes =>
            cases parsed : dump.fromBinaryArray bytes with
            | none =>
              refine garbage (.notParsed blockIndex) (by simp) fun prev follows => ?_
              rw [shape, if_neg (heightFollows_iff.1 follows)]
              simp only [parsed]
            | some block =>
              refine .record (blockIndex, block) left.ignore (stoull_lt index) ?_ ?_
              · intro prev follows
                rw [shape, if_neg (heightFollows_iff.1 follows)]
                simp only [parsed]
              · intro prev wrong
                exact ⟨_, (shape prev).trans (if_pos (not_heightFollows_iff.1 wrong))⟩

theorem readRawBlock_of_fail (dump : DumpEnv) (prev : Nat) (failed : stream.fail = true) :
    readRawBlock dump prev stream = (.error (.empty []), stream) := by
  simp [readRawBlock, readToken_of_fail failed]

end Front

/-! ### The contents of a file -/

/-- What follows the last record that can be read: white space, a height alone, or something
that is not a record. -/
inductive Ending where
  | clean
  | dangling
  | broken
  deriving DecidableEq

theorem Ending.eq_clean {ending : Ending} (nothing : ending ≠ dangling) (readable : ending ≠ broken) :
    ending = clean := by
  cases ending with
  | clean => rfl
  | dangling => exact absurd rfl nothing
  | broken => exact absurd rfl readable

namespace DumpEnv

variable (dump : DumpEnv)

/-- The records at the front of a stream and what follows them. -/
def recordsOf : Nat → InputStream → List DumpRecord × Ending
  | 0, _ => ([], .broken)
  | reads + 1, stream =>
    match readRawBlock dump 0 stream with
    | (.ok record, rest) => (record :: (recordsOf reads rest).1, (recordsOf reads rest).2)
    | (.error (.empty word), _) => ([], if word = [] then .clean else .dangling)
    | (.error _, _) => ([], .broken)

def contents (file : Bytes) : List DumpRecord × Ending :=
  dump.recordsOf (file.length + 2) (ofBytes file)

end DumpEnv

/-! ### Growth of the main chain -/

namespace Core

/-- What an append to the main leaf needs. -/
structure Appendable (core : Core) : Prop where
  wellFormed : core.chainsStorage.WellFormed
  childless : core.chainsStorage.childrenOf core.mainLeaf = []
  aligned : ∃ nd, core.chainsStorage.node? core.mainLeaf = some nd ∧
    nd.value.rawBlocks.length = nd.value.blockInfos.length

theorem Shape.appendable {core : Core} (shape : core.Shape) : core.Appendable where
  wellFormed := shape.tree.wellFormed
  childless := shape.leaves.childless _ shape.mainLeaf_mem
  aligned := by
    obtain ⟨nd, found⟩ := lt_size_iff.1 shape.mainLeaf_lt
    exact ⟨nd, found, (shape.tree.sound found).aligned⟩

/-- Block indexes below a bound that the main leaf knows. -/
def KnowsBelow (bound : Nat) (core : Core) : Prop :=
  ∀ i < bound, (core.mainLineage.getBlockHash i).isSome = true

variable {core : Core} {pushed : PushedBlockInfo}

section

variable (ok : core.Appendable)
include ok

theorem Appendable.exists_lineage : ∃ nd parents, core.chainsStorage.node? core.mainLeaf = some nd ∧
      nd.value.rawBlocks.length = nd.value.blockInfos.length ∧
      core.mainLineage = nd.value :: parents := by
  obtain ⟨nd, found, aligned⟩ := ok.aligned
  exact ⟨nd, _, found, aligned, ok.wellFormed.lineage_eq found⟩

theorem Appendable.mainLineage_pushBlock (pushed : PushedBlockInfo) :
    ∃ cache parents, core.mainLineage = cache :: parents ∧
      cache.rawBlocks.length = cache.blockInfos.length ∧
      (core.pushBlock core.mainLeaf pushed).mainLineage =
        cache.pushBlock parents pushed :: parents := by
  obtain ⟨nd, parents, found, aligned, lineage_eq⟩ := ok.exists_lineage
  refine ⟨nd.value, parents, lineage_eq, aligned, ?_⟩
  rw [mainLineage, mainLeaf_pushBlock, lineage, chainsStorage_pushBlock lineage_eq]
  exact ok.wellFormed.lineage_setValue_self _ ok.childless found lineage_eq

theorem Appendable.pushBlock : (core.pushBlock core.mainLeaf pushed).Appendable := by
  obtain ⟨nd, parents, found, aligned, lineage_eq⟩ := ok.exists_lineage
  have storage : (core.pushBlock core.mainLeaf pushed).chainsStorage = _ :=
    chainsStorage_pushBlock lineage_eq
  constructor
  · rw [storage]
    exact ok.wellFormed.setValue _ _
  · rw [storage, childrenOf_setValue, mainLeaf_pushBlock]
    exact ok.childless
  · rw [storage, mainLeaf_pushBlock]
    exact ⟨_, node?_setValue_self _ found, by simp [aligned]⟩

theorem Appendable.raws_pushBlock : (core.pushBlock core.mainLeaf pushed).mainLineage.raws =
      core.mainLineage.raws ++ [pushed.rawBlock] := by
  obtain ⟨cache, parents, before, aligned, after⟩ := ok.mainLineage_pushBlock pushed
  rw [after, before, Lineage.raws, Lineage.raws, Lineage.chain, Lineage.chain, chainOf, chainOf,
    Cache.entries_pushBlock parents pushed aligned]
  simp

theorem Appendable.knowsBelow_pushBlock {bound : Nat} (knows : core.KnowsBelow bound) :
    (core.pushBlock core.mainLeaf pushed).KnowsBelow bound := by
  intro i below
  obtain ⟨cache, parents, before, -, after⟩ := ok.mainLineage_pushBlock pushed
  have known := knows i below
  rw [before] at known
  rw [after]
  simp only [getBlockHash, isSome_map, getBlockInfo,
    Cache.getStartBlockIndex_pushBlock, Cache.blockInfos_pushBlock] at known ⊢
  split
  · rename_i low
    rwa [if_pos low] at known
  · rename_i high
    rw [if_neg high] at known
    obtain ⟨info, found⟩ := isSome_iff_exists.1 known
    rw [getElem?_append_left (List.getElem?_eq_some_iff.1 found).1, found]
    rfl

end

variable {previousBlockHash : Hash} {height : Nat}

theorem rawBlock_importedBlock {lineage : Lineage} {raw : RawBlock}
    (computed : importedBlock lineage raw previousBlockHash height = .ok pushed) :
    pushed.rawBlock = raw := by
  obtain ⟨-, computed⟩ := Checked.of_require_bind.1 computed
  simp only [bind, Except.bind] at computed
  split at computed
  · split at computed
    · split at computed
      · cases computed
      · cases computed
        rfl
    · cases computed
  · cases computed

/-- A record that is imported is pushed on the main chain. -/
theorem importRecord_ok {block : Option RawBlock} {hash : Hash}
    {after : Core} (imported : core.importRecord block previousBlockHash height = .ok (after, hash)) :
    ∃ raw pushed, block = some raw ∧ pushed.rawBlock = raw ∧
      after = core.pushBlock core.mainLeaf pushed := by
  unfold importRecord at imported
  cases block with
  | none => cases imported
  | some raw =>
    simp only at imported
    iterate 3
      split at imported
      · cases imported
    unfold importRawBlock at imported
    split at imported
    · rename_i pushed computed
      cases imported
      exact ⟨raw, pushed, rfl, rawBlock_importedBlock computed, rfl⟩
    · cases imported

end Core

/-! ### The loop -/

namespace Core

section Loop

variable {env : Env} {dump : DumpEnv} {order : HashOrder} {now : Nat}
  {expensive : Bool} {currentIndex : Nat} {state : ImportState}
  {result : ImportState ⊕ ImportOutcome} {after : Core} {record : DumpRecord} {rest : InputStream}

/-- The loop goes on with a block pushed, or does not end with success. -/
theorem importNext_cases (ok : state.core.Appendable)
    (round : importNext env order now expensive state record rest = result) :
    (∃ next : ImportState, result = .inl next ∧ next.core.Appendable ∧ next.stream = rest ∧
      next.blockHeight = record.1 ∧
      next.core.mainLineage.raws.map some = state.core.mainLineage.raws.map some ++ [record.2] ∧
      ∀ bound, state.core.KnowsBelow bound → next.core.KnowsBelow bound) ∨
    ∃ outcome : ImportOutcome, result = .inr outcome ∧ outcome.2 ≠ .ok () := by
  unfold importNext at round
  split at round
  · split at round <;> exact .inr ⟨_, round.symm, by simp⟩
  · split at round
    · rename_i core hash imported
      obtain ⟨raw, pushed, block_eq, raw_eq, rfl⟩ := importRecord_ok imported
      refine .inl ⟨_, round.symm, ok.pushBlock, rfl, rfl, ?_, fun _ => ok.knowsBelow_pushBlock⟩
      rw [ok.raws_pushBlock, raw_eq, block_eq]
      simp
    · exact .inr ⟨_, round.symm, by simp⟩

/-- On a database with the genesis block alone: success means that every record was read,
with heights that follow each other, and pushed. -/
theorem importLoop_fresh {rounds : Nat} {state : ImportState} (ok : state.core.Appendable)
    (success : importLoop env dump order now expensive 1 rounds state = some (after, .ok ())) :
    (dump.recordsOf rounds state.stream).2 ≠ .broken ∧
      (state.blockHeight :: (dump.recordsOf rounds state.stream).1.map Prod.fst).IsChain
        HeightFollows ∧
      after.mainLineage.raws.map some = state.core.mainLineage.raws.map some ++
        (dump.recordsOf rounds state.stream).1.map Prod.snd := by
  induction rounds generalizing state with
  | zero =>
    cases success
  | succ rounds ih =>
    rw [importLoop] at success
    rw [DumpEnv.recordsOf]
    by_cases failed : state.stream.fail = true
    · simp only [importRound, if_pos failed, Option.some.injEq, Prod.mk.injEq] at success
      obtain ⟨rfl, -⟩ := success
      rw [readRawBlock_of_fail dump 0 failed]
      simp
    · simp only [importRound, if_neg failed, ne_eq, not_true_eq_false, and_false, if_false] at success
      rcases front dump state.stream with ⟨word, rest, -, read⟩ | ⟨read⟩ | ⟨found, rest, -, read, wrong⟩
      · -- nothing is left to read
        simp only [read, Option.some.injEq, Prod.mk.injEq] at success
        obtain ⟨rfl, -⟩ := success
        rw [read]
        refine ⟨?_, by simp, by simp⟩
        dsimp only
        split <;> simp
      · obtain ⟨error, rest, read, other⟩ := read state.blockHeight
        simp only [read] at success
        cases error with
        | empty word => exact absurd rfl (other word)
        | wrongHeight _ _ | pastEnd _ _ | notParsed _ | exception _ _ _ => simp at success
      · by_cases follows : HeightFollows state.blockHeight found.1
        · simp only [read _ follows] at success
          rw [read 0 (.inl rfl)]
          generalize round : importNext env order now expensive state found rest = result at success
          rcases importNext_cases ok round with
            ⟨next, rfl, ok', rfl, height, raws, -⟩ | ⟨outcome, rfl, threw⟩
          · obtain ⟨ending, chain, grown⟩ := ih ok' success
            rw [height] at chain
            refine ⟨ending, ?_, ?_⟩
            · exact isChain_cons_cons.2 ⟨follows, chain⟩
            · rw [grown, raws, append_assoc]
              rfl
          · cases success
            exact absurd rfl threw
        · obtain ⟨left, read⟩ := wrong _ follows
          simp [read] at success

/-- Heights that count up. -/
def Consecutive (heights : List Nat) : Prop := heights.IsChain fun height next => next = height + 1

instance (heights : List Nat) : Decidable (Consecutive heights) :=
  inferInstanceAs (Decidable (List.IsChain _ _))

/-- On a longer database: if all records can be read and count up, success means that those
above the database were pushed. -/
theorem importLoop_known (more : currentIndex ≠ 1) (pos : 0 < currentIndex) {rounds : Nat}
    {state : ImportState} (ok : state.core.Appendable) (knows : state.core.KnowsBelow currentIndex)
    (success : importLoop env dump order now expensive currentIndex rounds state = some (after, .ok ()))
    (whole : (dump.recordsOf rounds state.stream).2 ≠ .broken)
    (heights : Consecutive (state.blockHeight :: (dump.recordsOf rounds state.stream).1.map Prod.fst)) :
    after.mainLineage.raws.map some = state.core.mainLineage.raws.map some ++
      ((dump.recordsOf rounds state.stream).1.filter (currentIndex ≤ ·.1)).map Prod.snd := by
  induction rounds generalizing state with
  | zero =>
    cases success
  | succ rounds ih =>
    rw [importLoop] at success
    rw [DumpEnv.recordsOf] at whole heights ⊢
    by_cases failed : state.stream.fail = true
    · simp only [importRound, if_pos failed, Option.some.injEq, Prod.mk.injEq] at success
      obtain ⟨rfl, -⟩ := success
      rw [readRawBlock_of_fail dump 0 failed]
      simp
    · rcases front dump state.stream with
        ⟨word, rest, ended, read⟩ | ⟨read⟩ | ⟨found, rest, small, read, -⟩
      · -- the end is skipped as height 0, and the next round is the last
        obtain ⟨hash, known⟩ := isSome_iff_exists.1 (knows 0 pos)
        have skipped : importRound env dump order now expensive currentIndex
            state = .inl ⟨state.core, rest, 0, hash⟩ := by
          simp [importRound, failed, read, more, known, Except.map, Except.toOption]
        rw [skipped] at success
        rw [read]
        cases rounds with
        | zero => cases success
        | succ rounds =>
          simp only [importLoop, importRound, ended, if_true, Option.some.injEq,
            Prod.mk.injEq] at success
          obtain ⟨rfl, -⟩ := success
          simp
      · obtain ⟨error, rest, read, other⟩ := read 0
        rw [read] at whole
        cases error with
        | empty word => exact absurd rfl (other word)
        | wrongHeight _ _ | pastEnd _ _ | notParsed _ | exception _ _ _ => exact absurd rfl whole
      · rw [read 0 (.inl rfl)] at whole heights ⊢
        obtain ⟨next_eq, heights⟩ := isChain_cons_cons.1 heights
        have follows : HeightFollows state.blockHeight found.1 :=
          .inr (by rw [uint64_of_lt (by omega)]; exact next_eq)
        by_cases low : found.1 ≤ currentIndex - 1
        · obtain ⟨hash, known⟩ := isSome_iff_exists.1 (knows found.1 (by omega))
          have skipped : importRound env dump order now expensive currentIndex
              state = .inl ⟨state.core, rest, found.1, hash⟩ := by
            simp [importRound, failed, read _ follows, more, known, Except.map, Except.toOption, low]
          rw [skipped] at success
          have later : (⟨state.core, rest, found.1, hash⟩ : ImportState).core.Appendable := ok
          rw [ih later knows success whole heights, filter_cons_of_neg]
          simp
          omega
        · have taken : importRound env dump order now expensive currentIndex
              state = importNext env order now expensive state found rest := by
            simp [importRound, failed, read _ follows, Except.map, Except.toOption, low]
          rw [taken] at success
          generalize round : importNext env order now expensive state found rest = result at success
          rcases importNext_cases ok round with
            ⟨next, rfl, ok', rfl, height, raws, knows'⟩ | ⟨outcome, rfl, threw⟩
          · rw [ih ok' (knows' _ knows) success whole (by rwa [height]), raws,
              filter_cons_of_pos, append_assoc]
            · rfl
            · simp
              omega
          · cases success
            exact absurd rfl threw

end Loop

end Core

/-! ### What success means -/

/-- The whole file was read and its blocks are on the main chain. -/
structure Restored (dump : DumpEnv) (file : Bytes) (after : Core) : Prop where
  ending : (dump.contents file).2 = .clean
  heights : Core.Consecutive ((dump.contents file).1.map fst)
  contained : ∀ record ∈ (dump.contents file).1, record.2 ∈ after.mainLineage.raws.map some

/-- The records that are pushed: all of them on a database with the genesis block alone,
otherwise those above the database, but never the first one. -/
def importedRecords (currentIndex : Nat) (records : List DumpRecord) : List DumpRecord :=
  if currentIndex = 1 then records else records.tail.filter (currentIndex ≤ ·.1)

/-- The import cannot overlook anything in this file: it does not end in a height alone;
unless only the genesis block is there, it has nothing that is not a record, its heights
count up, and the records that are skipped are blocks of the main chain. -/
structure Clear (dump : DumpEnv) (file : Bytes) (core : Core) : Prop where
  ending : (dump.contents file).2 ≠ .dangling
  readable : core.getTopBlockIndex = 0 ∨ (dump.contents file).2 ≠ .broken
  heights : Core.Consecutive ((dump.contents file).1.map fst) ∨
    core.getTopBlockIndex = 0 ∧ ∀ height ∈ ((dump.contents file).1.map fst).dropLast,
      0 < height ∧ height + 1 < 2 ^ 64
  known : ∀ record ∈ (dump.contents file).1, record.2 ∈ core.mainLineage.raws.map some ∨
    record.2 ∈ (importedRecords (core.getTopBlockIndex + 1) (dump.contents file).1).map snd

namespace Core

variable {env : Env} {dump : DumpEnv} {order : HashOrder} {now : Nat}
  {expensive : Bool} {core after : Core} {file : Bytes}

/-- Heights that follow each other count up, if none of them is 0 or the greatest word. -/
theorem consecutive_of_heightFollows {heights : List Nat} (chain : heights.IsChain HeightFollows)
    (inside : ∀ height ∈ heights.dropLast, 0 < height ∧ height + 1 < 2 ^ 64) :
    Consecutive heights := by
  induction heights with
  | nil => exact isChain_nil
  | cons height heights ih =>
    cases heights with
    | nil => exact isChain_singleton _
    | cons next heights =>
      obtain ⟨follows, chain⟩ := isChain_cons_cons.1 chain
      have small := inside height (by simp [dropLast_cons_cons])
      refine isChain_cons_cons.2 ⟨?_, ih chain fun h mem => inside h ?_⟩
      · rcases follows with zero | same
        · omega
        · rwa [uint64_of_lt small.2] at same
      · rw [dropLast_cons_cons]
        exact mem_cons_of_mem _ mem

/-- If the import succeeds, the file was read and its blocks are on the main chain, just if
there is nothing in it to overlook. -/
theorem restored_iff_clear (ok : core.MainWhole)
    (success : importBlockchain env dump order now performExpensiveValidation core (some file) =
      some (after, .ok ())) :
    Restored dump file after ↔ Clear dump file core := by
  have appendable := ok.shape.appendable
  unfold importBlockchain at success
  rcases read : readRawBlock dump 0 (ofBytes file) with ⟨result, stream⟩
  simp only [read] at success
  cases result with
  | error error => simp at success
  | ok first =>
    have contents_eq : dump.contents file =
        (first :: (dump.recordsOf (file.length + 1) stream).1,
          (dump.recordsOf (file.length + 1) stream).2) := by
      rw [DumpEnv.contents, DumpEnv.recordsOf, read]
    simp only at success
    split at success
    · simp at success
    · by_cases fresh : core.getTopBlockIndex = 0
      · -- every record is imported
        rw [if_pos (by omega), fresh] at success
        split at success
        · rename_i core' hash imported
          obtain ⟨raw, pushed, block_eq, raw_eq, rfl⟩ := importRecord_ok imported
          obtain ⟨ending, heights, grown⟩ := importLoop_fresh appendable.pushBlock success
          simp only [appendable.raws_pushBlock, raw_eq, map_append, map_singleton,
            ← block_eq] at grown
          have contained : ∀ record ∈ (dump.contents file).1,
              record.2 ∈ after.mainLineage.raws.map some := by
            intro record mem
            rw [contents_eq] at mem
            rw [grown, append_assoc]
            exact mem_append_right _ (mem_map_of_mem (f := snd) mem)
          constructor
          · rintro ⟨clean, counted, -⟩
            refine ⟨by simp [clean], .inl fresh, .inl counted, fun record mem => .inr ?_⟩
            rw [fresh, importedRecords, if_pos rfl]
            exact mem_map_of_mem mem
          · rintro ⟨nothing, -, counted, -⟩
            refine ⟨?_, ?_, contained⟩
            · rw [contents_eq] at nothing ⊢
              exact Ending.eq_clean nothing ending
            · rcases counted with counted | ⟨-, inside⟩
              · exact counted
              · rw [contents_eq] at inside ⊢
                exact consecutive_of_heightFollows heights inside
        · simp at success
      · -- the first record and those the database has are passed over
        rw [if_neg (by omega)] at success
        have knows : core.KnowsBelow (core.getTopBlockIndex + 1) := by
          intro i below
          rw [ok.getTopBlockIndex_eq] at below
          rw [getBlockHash_eq ok.whole, isSome_map, infos, getElem?_map, isSome_map]
          exact isSome_iff_exists.2 ⟨_, getElem?_eq_getElem below⟩
        have grown : (dump.contents file).2 ≠ .broken →
            Consecutive ((dump.contents file).1.map fst) →
            after.mainLineage.raws.map some = core.mainLineage.raws.map some ++
              (importedRecords (core.getTopBlockIndex + 1) (dump.contents file).1).map
                snd := by
          intro whole counted
          rw [contents_eq] at whole counted ⊢
          rw [importedRecords, if_neg (by omega)]
          exact importLoop_known (by omega) (by omega) appendable knows success whole counted
        constructor
        · rintro ⟨clean, counted, contained⟩
          refine ⟨by simp [clean], .inr (by simp [clean]), .inl counted, fun record mem => ?_⟩
          have held := contained record mem
          rw [grown (by simp [clean]) counted] at held
          exact mem_append.1 held
        · rintro ⟨nothing, readable, counted, known⟩
          have readable := readable.resolve_left fresh
          have counted := counted.resolve_right fun both => fresh both.1
          refine ⟨Ending.eq_clean nothing readable, counted, fun record mem => ?_⟩
          rw [grown readable counted]
          exact mem_append.2 (known record mem)

end Core

namespace Sample

/-- A node with two blocks above the genesis block. -/
def heightTwo : Core := Core.afterCalls env .insertion genesis (calls (trunk 2))

/-- Block bytes here are one letter: the blocks of the trunk are called `a`, `b`, `c`. -/
def dumpEnv : DumpEnv where
  fromBinaryArray
    | [97] => some (some (next 1 0 1 [] 0))
    | [98] => some (some (next 2 1 2 [] 0))
    | [99] => some (some (next 3 2 3 [] 0))
    | _ => none
  maxSize := 1000
  uninitialised := 0

/-- `1 1 a 2 1 b 3 1 c ` -/
def goodFile : Bytes := [49, 32, 49, 32, 97, 32, 50, 32, 49, 32, 98, 32, 51, 32, 49, 32, 99, 32]

/-- `1 1 a x y z `: what follows the first record is not a record. -/
def badFile : Bytes := [49, 32, 49, 32, 97, 32, 120, 32, 121, 32, 122, 32]

def importFile (file : Bytes) : Option ImportOutcome :=
  Core.importBlockchain env dumpEnv .insertion 1000 false heightTwo (some file)

/-- The first two records are skipped, the third one is pushed. -/
theorem restored_iff_clear_good : ∃ after, importFile goodFile = some (after, .ok ()) ∧
    Clear dumpEnv goodFile heightTwo ∧ Restored dumpEnv goodFile after := by
  have ok : heightTwo.MainWhole := Core.mainWhole_afterCalls (by decide +kernel)
  have ends : ((importFile goodFile).map (·.2)) = some (.ok ()) := by decide +kernel
  obtain ⟨⟨after, result⟩, ran, result_eq⟩ := map_eq_some_iff.1 ends
  obtain rfl : result = .ok () := result_eq
  have clear : Clear dumpEnv goodFile heightTwo := by
    constructor
    · decide +kernel
    · decide +kernel
    · exact .inl (by decide +kernel)
    · decide +kernel
  exact ⟨after, ran, clear, (Core.restored_iff_clear ok ran).2 clear⟩

/-- The import of the bad file succeeds and does nothing. -/
theorem not_restored_bad : ∃ after, importFile badFile = some (after, .ok ()) ∧
    ¬ Restored dumpEnv badFile after := by
  have ends : ((importFile badFile).map (·.2)) = some (.ok ()) := by decide +kernel
  obtain ⟨⟨after, result⟩, ran, result_eq⟩ := map_eq_some_iff.1 ends
  obtain rfl : result = .ok () := result_eq
  have broken : (dumpEnv.contents badFile).2 = .broken := by decide +kernel
  refine ⟨after, ran, fun restored => ?_⟩
  cases restored.ending.symm.trans broken

end Sample

end DeroGold
