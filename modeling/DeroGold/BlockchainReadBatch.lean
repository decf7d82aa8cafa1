import DeroGold.Lib.Checked
import DeroGold.Lib.InputStream
import Mathlib.Data.List.Induction
import Mathlib.Data.List.Nodup
import Mathlib.Logic.Function.Basic

/-!
Reading many keys of the database at once. The keys that were asked for go to the database as one
list and its answers come back as another; `submitRawResult_aligned` says that each answer gets to
the table and the key it belongs to, whatever was asked and whatever is missing.
-/

namespace DeroGold

open List Function

/-- The maps of a `BlockchainReadState`. Its last three members, of a value and a flag, are maps
of one key, which is there if the flag is set. -/
inductive ReadTable where
  | spentKeyImagesByBlock
  | blockIndexesBySpentKeyImages
  | cachedTransactions
  | transactionHashesByBlocks
  | cachedBlocks
  | blockIndexesByBlockHashes
  | keyOutputGlobalIndexesCountForAmounts
  | keyOutputGlobalIndexesForAmounts
  | rawBlocks
  | closestTimestampBlockIndex
  | keyOutputAmounts
  | transactionCountsByPaymentIds
  | transactionHashesByPaymentIds
  | blockHashesByTimestamp
  | keyOutputKeys
  | lastBlockIndex
  | keyOutputAmountsCount
  | transactionsCount
deriving DecidableEq

namespace ReadTable

/-- The first letter of the keys of a table, and the name of its values. -/
def keyPrefix : ReadTable → Char
  | spentKeyImagesByBlock => '0'
  | transactionHashesByBlocks => '1'
  | rawBlocks => '4'
  | blockIndexesByBlockHashes => '5'
  | cachedBlocks => '6'
  | blockIndexesBySpentKeyImages => '7'
  | lastBlockIndex => '8'
  | cachedTransactions | transactionsCount => 'a'
  | keyOutputGlobalIndexesCountForAmounts | keyOutputGlobalIndexesForAmounts => 'b'
  | closestTimestampBlockIndex => 'e'
  | transactionCountsByPaymentIds | transactionHashesByPaymentIds => 'f'
  | blockHashesByTimestamp => 'g'
  | keyOutputAmounts | keyOutputAmountsCount => 'h'
  | keyOutputKeys => 'j'

end ReadTable

variable {Key Value : ReadTable → Type}

/-- How keys are written and values read; `none` is an exception. -/
structure DBFormat (Key Value : ReadTable → Type) where
  serializeKey : (t : ReadTable) → Char → Key t → Bytes
  deserialize : (t : ReadTable) → Char → Bytes → Option (Value t)

namespace DBFormat

variable (format : DBFormat Key Value) (t : ReadTable)

def rawKey (key : Key t) : Bytes := format.serializeKey t t.keyPrefix key

/-- The value of a key in the database. -/
def stored (db : Bytes → Option Bytes) (key : Key t) : Option (Value t) :=
  (db (format.rawKey t key)).bind (format.deserialize t t.keyPrefix)

end DBFormat

/-- The entries of each map, as they are walked. -/
abbrev BlockchainReadState (Key Value : ReadTable → Type) : Type :=
  (t : ReadTable) → List (Key t × Value t)

/-- What a hash table may do with its entries when one is added. -/
structure Rehash (Key Value : ReadTable → Type) where
  arrange : (t : ReadTable) → List (Key t × Value t) → List (Key t × Value t)
  perm : ∀ t entries, arrange t entries ~ entries

/-- The answer to a key: its value, and whether there is one. -/
def answerTo (db : Bytes → Option Bytes) (rawKey : Bytes) : Bytes × Bool :=
  ((db rawKey).getD [], (db rawKey).isSome)

/-- `none` is an exception, or a read behind the last answer. -/
def deserializeValues {K V : Type} (deserialize : Bytes → Option V) :
    List (K × V) → List (Bytes × Bool) → Option (List (K × V) × List (Bytes × Bool))
  | [], answers => some ([], answers)
  | _ :: _, [] => none
  | (key, _) :: map, (serialized, found) :: answers =>
    if found then do
      let value ← deserialize serialized
      let (map, answers) ← deserializeValues deserialize map answers
      some ((key, value) :: map, answers)
    else deserializeValues deserialize map answers

namespace BlockchainReadState

variable (format : DBFormat Key Value) (state : BlockchainReadState Key Value)

def serializeKeys (t : ReadTable) : List Bytes := (state t).map fun entry => format.rawKey t entry.1

def getRawKeys : List Bytes :=
  [.spentKeyImagesByBlock, .blockIndexesBySpentKeyImages, .cachedTransactions,
    .transactionHashesByBlocks, .cachedBlocks, .blockIndexesByBlockHashes,
    .keyOutputGlobalIndexesCountForAmounts, .keyOutputGlobalIndexesForAmounts, .rawBlocks,
    .closestTimestampBlockIndex, .keyOutputAmounts, .transactionCountsByPaymentIds,
    .transactionHashesByPaymentIds, .blockHashesByTimestamp, .keyOutputKeys, .lastBlockIndex,
    .keyOutputAmountsCount, .transactionsCount].flatMap (state.serializeKeys format)

def submitTable (acc : BlockchainReadState Key Value × List (Bytes × Bool)) (t : ReadTable) :
    Option (BlockchainReadState Key Value × List (Bytes × Bool)) :=
  (deserializeValues (format.deserialize t t.keyPrefix) (acc.1 t) acc.2).map fun result =>
    (update acc.1 t result.1, result.2)

/-- The values for the keys, which `extractResult` hands out. -/
def submitRawResult (answers : List (Bytes × Bool)) : Option (BlockchainReadState Key Value) :=
  ([.spentKeyImagesByBlock, .blockIndexesBySpentKeyImages, .cachedTransactions,
    .transactionHashesByBlocks, .cachedBlocks, .blockIndexesByBlockHashes,
    .keyOutputGlobalIndexesCountForAmounts, .keyOutputGlobalIndexesForAmounts, .rawBlocks,
    .closestTimestampBlockIndex, .keyOutputAmounts, .transactionCountsByPaymentIds,
    .transactionHashesByPaymentIds, .blockHashesByTimestamp, .keyOutputKeys, .lastBlockIndex,
    .keyOutputAmountsCount, .transactionsCount].foldlM (submitTable format)
      (state, answers)).map Prod.fst

/-- Ask for a key, with a value that is overwritten or dropped. -/
def request [∀ t, DecidableEq (Key t)] [∀ t, Inhabited (Value t)] (rehash : Rehash Key Value)
    (state : BlockchainReadState Key Value) (asked : (t : ReadTable) × Key t) :
    BlockchainReadState Key Value :=
  if asked.2 ∈ (state asked.1).map Prod.fst then state
  else update state asked.1 (rehash.arrange asked.1 (state asked.1 ++ [(asked.2, default)]))

/-! ### The answers -/

/-- The keys that are in the database, with their values. -/
def found (db : Bytes → Option Bytes) : BlockchainReadState Key Value := fun t =>
  (state t).filterMap fun entry => (format.stored t db entry.1).map (entry.1, ·)

variable {format state} {db : Bytes → Option Bytes} {rest : List (Bytes × Bool)}

theorem map_fst_found (t : ReadTable) :
    (state.found format db t).map Prod.fst <+ (state t).map Prod.fst := by
  unfold found
  induction state t with
  | nil => exact .slnil
  | cons entry map ih =>
    rw [filterMap_cons]
    cases format.stored t db entry.1 with
    | none => exact ih.cons _
    | some value => exact ih.cons_cons _

variable (readable : ∀ t key raw, db (format.rawKey t key) = some raw →
  (format.deserialize t t.keyPrefix raw).isSome)
include readable

/-- The answers of a table are used up, the next table's are not touched. -/
theorem submitTable_eq (t : ReadTable) :
    submitTable format (state, (state.serializeKeys format t).map (answerTo db) ++ rest) t =
      some (update state t (state.found format db t), rest) := by
  have values : deserializeValues (format.deserialize t t.keyPrefix) (state t)
      ((state.serializeKeys format t).map (answerTo db) ++ rest) =
        some (state.found format db t, rest) := by
    unfold serializeKeys found
    induction state t with
    | nil => rfl
    | cons entry map ih =>
      simp only [map_cons, cons_append, answerTo, deserializeValues, ih, filterMap_cons, DBFormat.stored]
      cases raw_eq : db (format.rawKey t entry.1) with
      | none => rfl
      | some raw =>
        obtain ⟨value, decoded⟩ := Option.isSome_iff_exists.1 (readable t _ raw raw_eq)
        simp [decoded]
  rw [submitTable, values]
  rfl

theorem foldlM_submitTable {tables : List ReadTable} (nodup : tables.Nodup) :
    tables.foldlM (submitTable format)
        (state, (tables.flatMap (state.serializeKeys format)).map (answerTo db) ++ rest) =
      some (fun t => if t ∈ tables then state.found format db t else state t, rest) := by
  induction tables generalizing state with
  | nil => rfl
  | cons t tables ih =>
    obtain ⟨fresh, nodup⟩ := nodup_cons.1 nodup
    -- the entries of the later tables are still those that were asked for
    have later : tables.flatMap (state.serializeKeys format) =
        tables.flatMap (serializeKeys format (update state t (state.found format db t))) :=
      flatMap_congr fun t' mem => by
        rw [serializeKeys, serializeKeys, update_of_ne (ne_of_mem_of_not_mem mem fresh)]
    rw [foldlM_cons, flatMap_cons, map_append, append_assoc, submitTable_eq readable,
      Option.bind_eq_bind, Option.bind_some, later, ih nodup]
    refine congrArg some (Prod.ext (funext fun t' => ?_) rfl)
    by_cases same : t' = t
    · subst same
      simp [fresh]
    · simp [same, found]

omit readable

/-! ### The requests -/

variable [∀ t, DecidableEq (Key t)] [∀ t, Inhabited (Value t)] {rehash : Rehash Key Value}
  {requests : List ((t : ReadTable) × Key t)}

/-- The keys of the maps are those that were asked for, each once. -/
def Asks (requests : List ((t : ReadTable) × Key t)) (state : BlockchainReadState Key Value) : Prop :=
  ∀ t, ((state t).map Prod.fst).Nodup ∧ ∀ key, key ∈ (state t).map Prod.fst ↔ ⟨t, key⟩ ∈ requests

theorem Asks.request (asks : Asks requests state) (asked : (t : ReadTable) × Key t) :
    Asks (requests ++ [asked]) (state.request rehash asked) := by
  obtain ⟨table, key⟩ := asked
  intro t
  obtain ⟨nodup, keys⟩ := asks t
  unfold BlockchainReadState.request
  split
  · rename_i held
    refine ⟨nodup, fun other => ?_⟩
    rw [keys, mem_append, mem_singleton, iff_self_or]
    rintro ⟨⟩
    exact (keys key).1 held
  · rename_i new
    by_cases same : t = table
    · subst same
      have perm := (rehash.perm t (state t ++ [(key, default)])).map Prod.fst
      rw [map_append] at perm
      rw [update_self]
      refine ⟨perm.nodup_iff.2 ?_, fun other => ?_⟩
      · rw [map_singleton, ← concat_eq_append]
        exact Nodup.concat new nodup
      · rw [perm.mem_iff, mem_append, keys, mem_append]
        simp
    · rw [update_of_ne same]
      refine ⟨nodup, fun other => ?_⟩
      rw [keys, mem_append, mem_singleton, iff_self_or]
      rintro ⟨⟩
      exact absurd rfl same

/-- Each key that was asked for gets its value if it has one, and nothing else is there. -/
theorem submitRawResult_aligned (format : DBFormat Key Value) (rehash : Rehash Key Value)
    (db : Bytes → Option Bytes) (requests : List ((t : ReadTable) × Key t))
    (readable : ∀ t key raw, db (format.rawKey t key) = some raw →
      (format.deserialize t t.keyPrefix raw).isSome) :
    let state : BlockchainReadState Key Value := requests.foldl (request rehash) fun _ => []
    ∃ result, submitRawResult format state ((getRawKeys format state).map (answerTo db)) = some result ∧
      ∀ t, ((result t).map Prod.fst).Nodup ∧ ∀ key value, (key, value) ∈ result t ↔
        ⟨t, key⟩ ∈ requests ∧ format.stored t db key = some value := by
  intro state
  have asks : Asks requests state := by
    induction requests using reverseRecOn with
    | nil => simp [Asks, state]
    | append_singleton requests asked ih =>
      simp only [state, foldl_append]
      exact ih.request asked
  have submitted : submitRawResult format state ((getRawKeys format state).map (answerTo db)) =
      some (state.found format db) := by
    rw [submitRawResult, getRawKeys, ← append_nil (map _ _), foldlM_submitTable readable]
    · refine congrArg some (funext fun t => if_pos ?_)
      cases t <;> decide
    · decide
  refine ⟨_, submitted, fun t => ?_⟩
  obtain ⟨nodup, keys⟩ := asks t
  refine ⟨nodup.sublist (map_fst_found t), fun key value => ?_⟩
  rw [← keys, mem_map, found, mem_filterMap]
  constructor
  · rintro ⟨entry, mem, same⟩
    obtain ⟨_, stored, pair⟩ := Option.map_eq_some_iff.1 same
    cases pair
    exact ⟨⟨entry, mem, rfl⟩, stored⟩
  · rintro ⟨⟨entry, mem, rfl⟩, stored⟩
    exact ⟨entry, mem, Option.map_eq_some_iff.2 ⟨value, stored, rfl⟩⟩

namespace Sample

/-- Keys and values of one byte. -/
def byteFormat : DBFormat (fun _ => UInt8) (fun _ => UInt8) where
  serializeKey _ keyPrefix key := [UInt8.ofNat keyPrefix.toNat, key]
  deserialize _ _ raw := raw.head?

/-- A raw block is there and a cached block with the same key is not. -/
theorem submitRawResult_rawBlock : ∃ result, submitRawResult byteFormat
    ([⟨.cachedBlocks, 7⟩, ⟨.rawBlocks, 7⟩].foldl (request ⟨fun _ => id, fun _ _ => .refl _⟩)
      fun _ => []) [([], false), ([5], true)] = some result ∧
    (7, 5) ∈ result .rawBlocks ∧ ∀ value, (7, value) ∉ result .cachedBlocks := by
  obtain ⟨result, submitted, aligned⟩ := submitRawResult_aligned byteFormat
    ⟨fun _ => id, fun _ _ => .refl _⟩ (fun key => if key = [52, 7] then some [5] else none)
    [⟨.cachedBlocks, 7⟩, ⟨.rawBlocks, 7⟩] (by
      intro t key raw
      split
      · rintro ⟨⟩
        rfl
      · nofun)
  refine ⟨result, submitted, ((aligned .rawBlocks).2 7 5).2 ⟨by decide, by decide⟩, ?_⟩
  intro value mem
  cases (((aligned .cachedBlocks).2 7 value).1 mem).2

end Sample

end BlockchainReadState

end DeroGold
