import DeroGold.PoolOk
import DeroGold.Template
import Mathlib.Data.Prod.Lex
import Mathlib.Algebra.Order.Field.Rat

/-!
The transaction pool by itself.

* `poolState_exact`: the key images it has noted are those of its transactions.
* `cleansExactly_iff`: a round of cleaning does what it is for only while no transaction is
  outdated, since an outdated transaction is looked up once more after its removal.
* `orders_iff`: transactions that tie in every respect come before each other, all others
  are ordered by fee per byte, amount, ratio of inputs to outputs, size and age.
-/

namespace DeroGold

open List TransitionSystem

namespace TransactionPool

variable {pool : TransactionPool} {pending : PendingTransactionInfo}

/-! ### Key images -/

/-- Remove every transaction. -/
def flush (pool : TransactionPool) : TransactionPool :=
  pool.getTransactionHashes.foldl removeTransaction pool

/-- Calls to a pool. The validator state that comes with a pushed transaction holds the key
images of its inputs (`Core.isTransactionValidForPool_some`). -/
inductive Call where
  | pushTransaction (now : Nat) (tx : CachedTransaction)
  | removeTransaction (hash : Hash)
  | flush

def step (pool : TransactionPool) : Call → TransactionPool
  | .pushTransaction now tx => (pool.pushTransaction now tx tx.transaction.keyImages).1
  | .removeTransaction hash => pool.removeTransaction hash
  | .flush => pool.flush

/-- No key image is spent by both. -/
def Apart (pending other : PendingTransactionInfo) : Prop :=
  List.Disjoint pending.cachedTransaction.transaction.keyImages
    other.cachedTransaction.transaction.keyImages

/-- No two transactions share a key image, and all their key images are noted. -/
structure Exact (pool : TransactionPool) : Prop extends pool.Ok where
  apart : pool.transactions.Pairwise Apart
  spent : ∀ pending ∈ pool.transactions,
    pending.cachedTransaction.transaction.keyImages ⊆ pool.poolState

theorem Exact.push (ok : pool.Exact) {tx : CachedTransaction} (now : Nat)
    (absent : pool.checkIfTransactionPresent tx.transactionHash = false)
    (apart : tx.transaction.keyImages.Disjoint pool.poolState) :
    Exact { pool with
      poolState := pool.poolState ++ tx.transaction.keyImages
      transactions := pool.transactions ++ [⟨now, tx⟩] } := by
  refine ⟨ok.toOk.push now absent, ?_, ?_⟩
  · refine pairwise_append.2 ⟨ok.apart, pairwise_singleton .., fun pending held new mem => ?_⟩
    rw [mem_singleton.1 mem]
    exact fun keyImage spends spends' => apart spends' (ok.spent pending held spends)
  · exact forall_mem_append.2
      ⟨fun pending held => List.Subset.trans (ok.spent pending held) (subset_append_left _ _),
        forall_mem_singleton.2 (subset_append_right _ _)⟩

-- A removal frees only what the removed transaction spends, and no other spends that.
theorem Exact.removeTransaction (ok : pool.Exact) (hash : Hash) :
    (pool.removeTransaction hash).Exact := by
  refine ⟨ok.toOk.removeTransaction hash, ?_, fun pending mem keyImage spends => ?_⟩
  · rw [transactions_removeTransaction]
    exact ok.apart.sublist filter_sublist
  · obtain ⟨held, other⟩ := mem_removeTransaction.1 mem
    unfold TransactionPool.removeTransaction
    split
    · exact ok.spent pending held spends
    · rename_i tx found
      obtain ⟨removed, removed_mem, rfl, removed_hash⟩ := tryGetTransaction_some found
      have differ : pending ≠ removed := fun same => other (same ▸ removed_hash)
      have : Std.Symm Apart := ⟨fun _ _ apart => List.Disjoint.symm apart⟩
      have disjoint := ok.apart.forall held removed_mem differ
      exact mem_filter.2 ⟨ok.spent pending held spends, decide_eq_true (disjoint spends)⟩

theorem Exact.step (ok : pool.Exact) (call : Call) : (pool.step call).Exact := by
  cases call with
  | pushTransaction now tx =>
    rcases pushTransaction_cases pool now tx tx.transaction.keyImages with
      same | ⟨absent, apart, pushed⟩
    · rw [TransactionPool.step, same]
      exact ok
    · rw [TransactionPool.step, pushed]
      exact ok.push now absent apart
  | removeTransaction hash => exact ok.removeTransaction hash
  | flush =>
    exact foldlRecOn (motive := Exact) _ _ ok fun _ kept hash _ => kept.removeTransaction hash

/-- After any calls the noted key images are those of the pool's transactions, which share
none, and a refused transaction changes nothing. -/
theorem poolState_exact (calls : List Call) :
    let pool := run step empty calls
    (∀ keyImage, keyImage ∈ pool.poolState ↔ ∃ pending ∈ pool.transactions,
      keyImage ∈ pending.cachedTransaction.transaction.keyImages) ∧
    pool.transactions.Pairwise Apart ∧
    ∀ now tx state, (pool.pushTransaction now tx state).2 = false →
      (pool.pushTransaction now tx state).1 = pool := by
  intro pool
  have ok : pool.Exact := invariant_run_of_step (fun _ call kept => kept.step call)
    ⟨ok_empty, .nil, forall_mem_nil _⟩
  refine ⟨fun keyImage => ⟨ok.noted keyImage, ?_⟩, ok.apart, fun now tx state refused => ?_⟩
  · rintro ⟨pending, held, spends⟩
    exact ok.spent pending held spends
  · rcases pushTransaction_cases pool now tx state with same | ⟨-, -, pushed⟩
    · rw [same]
    · rw [pushed] at refused
      cases refused

/-! ### Cleaning -/

/-- State of the cleaning loop: the pool, the transactions reported as deleted, and the
lookups of transactions the pool did not hold. -/
structure Cleaning where
  pool : TransactionPool
  deletedTransactions : List Hash
  missed : List Hash

namespace Cleaning

/-- The lookups of the loop assert that the transaction is there. What they read where it is
not (past the end of the index) is `stray`. -/
def lookUp (stray : PendingTransactionInfo) (hash : Hash) (state : Cleaning) :
    Cleaning × PendingTransactionInfo :=
  match Keyed.lookup (·.getTransactionHash) hash state.pool.transactions with
  | some pending => (state, pending)
  | none => ({ state with missed := state.missed ++ [hash] }, stray)

def delete (now : Nat) (hash : Hash) (state : Cleaning) : Cleaning :=
  { state with
    pool := (state.pool.recordDeletion hash now).removeTransaction hash
    deletedTransactions := state.deletedTransactions ++ [hash] }

/-- One turn of the loop over the hashes. -/
def cleanHash (stray : PendingTransactionInfo) (timeout now height : Nat) (state : Cleaning)
    (hash : Hash) : Cleaning :=
  let (state, received) := state.lookUp stray hash
  let transactionAge := subUInt64 now received.receiveTime
  let state := if timeout ≤ transactionAge then state.delete now hash else state
  -- the source reads the transaction again, also when it has just removed it
  let (state, pending) := state.lookUp stray hash
  if Mixins.validate pending.cachedTransaction height then state else state.delete now hash

/-- The loop, over the hashes the pool held at first. -/
def ofPool (stray : PendingTransactionInfo) (timeout now height : Nat) (pool : TransactionPool) :
    Cleaning :=
  pool.getTransactionHashes.foldl (cleanHash stray timeout now height) ⟨pool, [], []⟩

end Cleaning

/-- What cleaning should remove. -/
def due (timeout now height : Nat) (pending : PendingTransactionInfo) : Bool :=
  decide (pending.receiveTime + timeout ≤ now) || !Mixins.validate pending.cachedTransaction height

/-- Every lookup succeeds, and what is due is removed and reported, once and nothing else. -/
structure CleansExactly (timeout now height : Nat) (pool : TransactionPool) (cleaned : Cleaning) :
    Prop where
  present : cleaned.missed = []
  removed : cleaned.pool.transactions = pool.transactions.filter (!due timeout now height ·)
  reported : cleaned.deletedTransactions = (pool.transactions.filter (due timeout now height)).map
    (·.getTransactionHash)

def outdated (timeout now : Nat) (pending : PendingTransactionInfo) : Bool :=
  decide (timeout ≤ subUInt64 now pending.receiveTime)

section

variable (stray : PendingTransactionInfo) (timeout now height : Nat)
  {front rest : List PendingTransactionInfo} {state : Cleaning}

theorem Cleaning.transactions_delete (hash : Hash) (state : Cleaning) :
    (state.delete now hash).pool.transactions =
      Keyed.remove (·.getTransactionHash) hash state.pool.transactions := by
  rw [delete, transactions_removeTransaction, recordDeletion]
  split <;> rfl

/-- One turn of the loop: an outdated transaction is missed, and what is kept stays where it
stands. -/
theorem cleanHash_spec (held : state.pool.transactions = front ++ pending :: rest)
    (distinct : ((front ++ pending :: rest).map (·.getTransactionHash)).Nodup) :
    let next := state.cleanHash stray timeout now height pending.getTransactionHash
    next.pool.transactions = front ++ [pending].filter (fun pending =>
        !outdated timeout now pending && Mixins.validate pending.cachedTransaction height) ++ rest ∧
      next.missed = state.missed ++
        ([pending].filter (outdated timeout now)).map (·.getTransactionHash) ∧
      (outdated timeout now pending = false → next.deletedTransactions =
        state.deletedTransactions ++ ([pending].filter fun pending =>
          !Mixins.validate pending.cachedTransaction height).map (·.getTransactionHash)) := by
  obtain ⟨found, removed, absent⟩ := Keyed.lookup_and_remove distinct
  have first : state.lookUp stray pending.getTransactionHash = (state, pending) := by
    rw [Cleaning.lookUp, held, found]
  have deleted := Cleaning.transactions_delete now pending.getTransactionHash state
  rw [held, removed] at deleted
  by_cases old : timeout ≤ subUInt64 now pending.receiveTime
  · have gone : Keyed.lookup (·.getTransactionHash) pending.getTransactionHash (front ++ rest) =
        none := by
      rwa [← Option.not_isSome_iff_eq_none, Keyed.lookup_isSome]
    have again : Keyed.remove (·.getTransactionHash) pending.getTransactionHash (front ++ rest) =
        front ++ rest :=
      filter_eq_self.2 fun other mem => decide_eq_true fun same =>
        absent (mem_map.2 ⟨other, mem, same⟩)
    have second : (state.delete now pending.getTransactionHash).lookUp stray
        pending.getTransactionHash = ({ state.delete now pending.getTransactionHash with
          missed := state.missed ++ [pending.getTransactionHash] }, stray) := by
      rw [Cleaning.lookUp, deleted, gone]
      rfl
    rw [Cleaning.cleanHash, first]
    simp only [if_pos old, second]
    split
    · simp [deleted, outdated, old]
    · refine ⟨?_, ?_, ?_⟩
      · rw [Cleaning.transactions_delete]
        simp [deleted, again, outdated, old]
      · simp [Cleaning.delete, outdated, old]
      · simp [outdated, old]
  · rw [Cleaning.cleanHash, first]
    simp only [if_neg old, first]
    split
    · rename_i valid
      simp [held, outdated, old, valid]
    · rename_i invalid
      rw [deleted]
      simp [invalid, outdated, old, Cleaning.delete]

/-- The loop over the hashes that are still to come. -/
theorem cleanLoop_spec (held : state.pool.transactions = front ++ rest)
    (distinct : ((front ++ rest).map (·.getTransactionHash)).Nodup) :
    let result := (rest.map (·.getTransactionHash)).foldl
      (Cleaning.cleanHash stray timeout now height) state
    result.pool.transactions = front ++ rest.filter (fun pending =>
        !outdated timeout now pending && Mixins.validate pending.cachedTransaction height) ∧
      result.missed = state.missed ++
        (rest.filter (outdated timeout now)).map (·.getTransactionHash) ∧
      ((∀ pending ∈ rest, outdated timeout now pending = false) → result.deletedTransactions =
        state.deletedTransactions ++ (rest.filter fun pending =>
          !Mixins.validate pending.cachedTransaction height).map (·.getTransactionHash)) := by
  induction rest generalizing front state with
  | nil => simpa using held
  | cons pending rest ih =>
    obtain ⟨kept, missed, reported⟩ := cleanHash_spec stray timeout now height held distinct
    obtain ⟨kept', missed', reported'⟩ := ih kept (distinct.sublist (by
      rw [append_assoc]
      exact ((filter_sublist.append_right rest).append_left front).map _))
    rw [← singleton_append]
    simp only [filter_append, map_append, ← append_assoc]
    refine ⟨kept', missed ▸ missed', fun young => ?_⟩
    have own := reported (young pending mem_cons_self)
    exact own ▸ reported' (forall_mem_cons.1 young).2

/-- Cleaning looks up only what is there, removes what is due and reports it once exactly
when no transaction of the pool is outdated. -/
theorem cleansExactly_iff (hashes : pool.getTransactionHashes.Nodup) (clock : now < 2 ^ 64) :
    CleansExactly timeout now height pool (.ofPool stray timeout now height pool) ↔
      ∀ pending ∈ pool.transactions, subUInt64 now pending.receiveTime < timeout := by
  obtain ⟨kept, missed, reported⟩ := cleanLoop_spec stray timeout now height
    (show (⟨pool, [], []⟩ : Cleaning).pool.transactions = [] ++ pool.transactions from rfl) hashes
  constructor
  · intro cleans pending mem
    have none := missed.symm.trans cleans.present
    rw [nil_append, map_eq_nil_iff, filter_eq_nil_iff] at none
    simpa [outdated] using none pending mem
  · intro young
    have fresh : ∀ pending ∈ pool.transactions, outdated timeout now pending = false :=
      fun pending mem => decide_eq_false (Nat.not_le.2 (young pending mem))
    have due_eq : ∀ pending ∈ pool.transactions, due timeout now height pending =
        !Mixins.validate pending.cachedTransaction height := by
      intro pending mem
      have recent : ¬ pending.receiveTime + timeout ≤ now := by
        intro old
        have age := young pending mem
        rw [subUInt64_of_le clock (by omega)] at age
        omega
      rw [due, decide_eq_false recent, Bool.false_or]
    refine ⟨?_, ?_, ?_⟩
    · rw [nil_append, filter_eq_nil_iff.2 fun pending mem => by simp [fresh pending mem]] at missed
      exact missed
    · refine kept.trans (filter_congr fun pending mem => ?_)
      rw [fresh pending mem, due_eq pending mem, Bool.not_not]
      rfl
    · refine (reported fresh).trans (congrArg (map _) (filter_congr fun pending mem => ?_))
      exact (due_eq pending mem).symm

end

/-- A transaction received at time 0. -/
def Sample.received : PendingTransactionInfo :=
  ⟨0, ⟨0, [.key ⟨100, [0, 1, 2, 3], 7⟩], [⟨90, 1⟩], 0, [1]⟩, 7, 200⟩

/-- Of two young transactions, the one with too large a ring is removed and reported. -/
theorem cleansExactly_iff_young :
    let wide : PendingTransactionInfo :=
      ⟨900, ⟨0, [.key ⟨9, [0, 1, 2, 3, 4], 6⟩], [], 0, []⟩, 8, 200⟩
    let pool : TransactionPool := ⟨[Sample.received, wide], [7, 6], []⟩
    let cleaned := Cleaning.ofPool wide 3600 1000 Parameters.mixinLimitsV1Height pool
    CleansExactly 3600 1000 Parameters.mixinLimitsV1Height pool cleaned ∧
      cleaned.pool.transactions = [Sample.received] ∧ cleaned.deletedTransactions = [8] :=
  ⟨(cleansExactly_iff _ _ _ _ (by decide) (by decide)).2 (by decide), by decide⟩

/-- An outdated transaction is removed and then looked up. -/
theorem not_cleansExactly_old : ¬ CleansExactly 3600 5000 10 ⟨[Sample.received], [7], []⟩
    (.ofPool Sample.received 3600 5000 10 ⟨[Sample.received], [7], []⟩) := fun cleans =>
  absurd cleans.present (by decide)

/-! ### Priority -/

/-- The laws of a strict weak order, for three values. -/
structure StrictWeak {α : Type} (before : α → α → Bool) (a b c : α) : Prop where
  irreflexive : a = b → before a b = false
  asymmetric : before a b = true → before b a = false
  transitive : before a b = true → before b c = true → before a c = true
  incomparable : before a b = false → before b a = false → before b c = false →
    before c b = false → before a c = false ∧ before c a = false

/-- A comparison that says yes to equal keys is strict only between different ones. -/
theorem strictWeak_iff {α β : Type} [LinearOrder β] {before : α → α → Bool} {key : α → β}
    {p : α → Prop} (before_iff : ∀ {x y}, p x → p y → (before x y = true ↔ key y ≤ key x))
    {a b c : α} (ha : p a) (hb : p b) (hc : p c) : StrictWeak before a b c ↔ key a ≠ key b := by
  constructor
  · intro laws same
    have tie := laws.asymmetric ((before_iff ha hb).2 same.ge)
    rw [← Bool.not_eq_true, before_iff hb ha] at tie
    exact tie same.le
  · intro differ
    refine ⟨fun same => absurd (congrArg key same) differ, fun first => ?_, fun first second => ?_,
      fun none none' => ?_⟩
    · rw [before_iff ha hb] at first
      rw [← Bool.not_eq_true, before_iff hb ha, not_le]
      exact first.lt_of_ne' differ
    · rw [before_iff ha hb] at first
      rw [before_iff hb hc] at second
      exact (before_iff ha hc).2 (second.trans first)
    · rw [← Bool.not_eq_true, before_iff ha hb] at none
      rw [← Bool.not_eq_true, before_iff hb ha] at none'
      exact absurd (le_of_not_ge none) none'

def feePerByte (pending : PendingTransactionInfo) : ℚ :=
  pending.cachedTransaction.getTransactionFee / pending.cachedTransaction.binarySize

/-- What the comparator looks at, higher values first. -/
def priority (pending : PendingTransactionInfo) : ℚ ×ₗ Nat ×ₗ Nat ×ₗ Natᵒᵈ ×ₗ Natᵒᵈ :=
  let tx := pending.cachedTransaction
  toLex (feePerByte pending, toLex (tx.transaction.outputs.foldl
    (fun sum output => uint64 (sum + output.amount)) 0, toLex (inputOutputRatio tx.transaction,
      toLex (.toDual tx.binarySize, .toDual pending.receiveTime))))

/-- Some bytes hold the transaction. -/
abbrev Sized (pending : PendingTransactionInfo) : Prop := 0 < pending.cachedTransaction.binarySize

theorem feePerByte_lt_iff {a b : PendingTransactionInfo} (ha : Sized a) (hb : Sized b) :
    feePerByte a < feePerByte b ↔
      a.cachedTransaction.getTransactionFee * b.cachedTransaction.binarySize <
        b.cachedTransaction.getTransactionFee * a.cachedTransaction.binarySize := by
  rw [feePerByte, feePerByte, div_lt_div_iff₀ (Nat.cast_pos.2 ha) (Nat.cast_pos.2 hb)]
  norm_cast

/-- Two values that decide a comparison, or leave it to the rest. -/
theorem compare_then_iff {α β : Type} [LinearOrder α] [LinearOrder β] {x y : α} {z w : β}
    {before : Bool} (lower : y < x → before = true) (higher : x < y → before = false)
    (rest : y = x → (before = true ↔ w ≤ z)) : before = true ↔ toLex (y, w) ≤ toLex (x, z) := by
  rw [Prod.Lex.toLex_le_toLex]
  rcases lt_trichotomy y x with lt | same | gt
  · exact iff_of_true (lower lt) (.inl lt)
  · rw [rest same]
    simp [same]
  · simp [higher gt, gt.not_gt, gt.ne']

theorem moreProfitable_iff {lhs rhs : PendingTransactionInfo} (left : Sized lhs)
    (right : Sized rhs) : moreProfitable lhs rhs = true ↔ priority rhs ≤ priority lhs := by
  unfold moreProfitable priority
  refine compare_then_iff (fun lt => ?_) (fun gt => ?_) fun same => ?_
  · simp only [Nat.compare_eq_lt.2 ((feePerByte_lt_iff right left).1 lt)]
  · simp only [Nat.compare_eq_gt.2 ((feePerByte_lt_iff left right).1 gt)]
  rw [feePerByte, feePerByte, div_eq_div_iff (Nat.cast_ne_zero.2 right.ne')
    (Nat.cast_ne_zero.2 left.ne')] at same
  norm_cast at same
  simp only [Nat.compare_eq_eq.2 same]
  refine compare_then_iff (fun lt => ?_) (fun gt => ?_) fun same => ?_
  · simp only [Nat.compare_eq_lt.2 lt]
  · simp only [Nat.compare_eq_gt.2 gt]
  simp only [Nat.compare_eq_eq.2 same]
  refine compare_then_iff (fun lt => ?_) (fun gt => ?_) fun same => ?_
  · simp only [Nat.compare_eq_lt.2 lt]
  · simp only [Nat.compare_eq_gt.2 gt]
  simp only [Nat.compare_eq_eq.2 same]
  refine compare_then_iff (fun lt => ?_) (fun gt => ?_) fun same => ?_
  · simp only [Nat.compare_eq_lt.2 (OrderDual.toDual_lt_toDual.1 lt)]
  · simp only [Nat.compare_eq_gt.2 (OrderDual.toDual_lt_toDual.1 gt)]
  simp only [Nat.compare_eq_eq.2 (OrderDual.toDual_inj.1 same).symm, decide_eq_true_eq,
    OrderDual.toDual_le_toDual]

/-- The comparator obeys the laws for all transactions that differ in what it looks at, and
for no others. -/
theorem orders_iff {a b c : PendingTransactionInfo} (ha : Sized a) (hb : Sized b) (hc : Sized c) :
    (StrictWeak moreProfitable a b c ∧ (feePerByte b < feePerByte a →
      moreProfitable a b = true ∧ moreProfitable b a = false)) ↔
      priority a ≠ priority b := by
  rw [← strictWeak_iff (p := Sized) moreProfitable_iff ha hb hc]
  refine ⟨And.left, fun strict => ⟨strict, fun higher => ?_⟩⟩
  have first : priority b < priority a := Prod.Lex.toLex_lt_toLex.2 (.inl higher)
  refine ⟨(moreProfitable_iff ha hb).2 first.le, ?_⟩
  rw [← Bool.not_eq_true, moreProfitable_iff hb ha]
  exact first.not_ge

theorem orders_iff_older : StrictWeak moreProfitable Sample.received
    { Sample.received with receiveTime := 5 } { Sample.received with receiveTime := 9 } :=
  ((orders_iff (by decide) (by decide) (by decide)).2 (by simp [priority, Sample.received])).1

/-- A transaction comes before itself. -/
theorem not_strictWeak_self : ¬ StrictWeak moreProfitable Sample.received
    Sample.received Sample.received := fun laws => absurd (laws.irreflexive rfl) (by decide)

end TransactionPool

end DeroGold
