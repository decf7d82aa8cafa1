import DeroGold.Currency

/-!
The transaction pool with its cleaning wrapper: pending transactions, the key images
they spend, and the transactions the cleaner has deleted.

The pool is iterated in order of cost in the source; no decision made while
iterating depends on the order, so the model keeps insertion order.
-/

namespace DeroGold

open Parameters

structure PendingTransactionInfo where
  receiveTime : Nat
  cachedTransaction : CachedTransaction
  deriving DecidableEq

/-- `poolState` are the key images spent by pool transactions; deletions are recorded
with their time. -/
structure TransactionPool where
  transactions : List PendingTransactionInfo
  poolState : List KeyImage
  recentlyDeletedTransactions : List (Hash × Nat)
  deriving DecidableEq

def hasIntersections (destination source : List KeyImage) : Bool :=
  source.any fun keyImage => decide (keyImage ∈ destination)

namespace TransactionPool

variable (pool : TransactionPool)

def empty : TransactionPool := ⟨[], [], []⟩

def getTransactionHashes : List Hash :=
  pool.transactions.map fun pending => pending.cachedTransaction.transactionHash

def tryGetTransaction (hash : Hash) : Option CachedTransaction :=
  (pool.transactions.find? fun pending =>
    pending.cachedTransaction.transactionHash == hash).map (·.cachedTransaction)

def checkIfTransactionPresent (hash : Hash) : Bool :=
  pool.transactions.any fun pending => pending.cachedTransaction.transactionHash == hash

/-- The time of the deletion itself, not the time passed since, is compared with the
timeout. -/
def isTransactionRecentlyDeleted (hash : Hash) : Bool :=
  match pool.recentlyDeletedTransactions.find? fun entry => entry.1 == hash with
  | none => false
  | some entry => decide (mempoolTxLivetime ≤ entry.2)

/-- Pool and success flag. -/
def pushTransaction (now : Nat) (tx : CachedTransaction)
    (transactionState : List KeyImage) : TransactionPool × Bool :=
  if pool.isTransactionRecentlyDeleted tx.transactionHash then (pool, false)
  else if pool.checkIfTransactionPresent tx.transactionHash then (pool, false)
  else if hasIntersections pool.poolState transactionState then (pool, false)
  else
    ({ pool with
        poolState := pool.poolState ++ transactionState
        transactions := pool.transactions ++ [⟨now, tx⟩] }, true)

def removeTransaction (hash : Hash) : TransactionPool :=
  match pool.tryGetTransaction hash with
  | none => pool
  | some tx =>
    { pool with
      poolState := pool.poolState.filter fun keyImage =>
        decide (keyImage ∉ tx.transaction.keyImages)
      transactions := pool.transactions.filter fun pending =>
        pending.cachedTransaction.transactionHash != hash }

def getFusionTransactionCount : Nat :=
  pool.transactions.countP fun pending => pending.cachedTransaction.getTransactionFee == 0

/-- Remember a deletion; an older record of the same hash is kept. -/
def recordDeletion (hash : Hash) (now : Nat) : TransactionPool :=
  if pool.recentlyDeletedTransactions.any fun entry => entry.1 == hash then pool
  else { pool with recentlyDeletedTransactions := pool.recentlyDeletedTransactions ++ [(hash, now)] }

/-- Drop a transaction that has outlived the timeout or breaks the mixin rules of the
given height. (After dropping an outdated transaction the source reads it once more;
whatever the mixin check makes of that, deleting it again changes nothing.) -/
def cleanTransaction (now height : Nat) (pool : TransactionPool)
    (pending : PendingTransactionInfo) : TransactionPool :=
  let tx := pending.cachedTransaction
  if mempoolTxLivetime ≤ subUInt64 now pending.receiveTime ∨
      Mixins.validate tx height = false then
    (pool.recordDeletion tx.transactionHash now).removeTransaction tx.transactionHash
  else pool

/-- One round of the cleaning procedure. -/
def clean (now height : Nat) : TransactionPool :=
  let cleaned := pool.transactions.foldl (cleanTransaction now height) pool
  { cleaned with
    recentlyDeletedTransactions := cleaned.recentlyDeletedTransactions.filter fun entry =>
      decide (subUInt64 now entry.2 < mempoolTxLivetime) }

end TransactionPool

end DeroGold
