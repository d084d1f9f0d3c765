import OlaOs.Lib.KeyedMap
import OlaOs.Lib.OrderedSet
import OlaOs.Types.Transaction

/-! The in-memory mempool (`mempool/src/types.rs`, `mempool/src/mempool_store.rs`). -/
namespace OlaOs

structure MempoolScore where
  account : Address
  receivedAtMs : U64
  deriving DecidableEq

namespace MempoolScore

/-- Earlier transactions are greater; the account breaks ties. -/
def toProd (s : MempoolScore) : U64ᵒᵈ ×ₗ Address :=
  toLex (OrderDual.toDual s.receivedAtMs, s.account)

theorem toProd_injective : Function.Injective toProd := by
  rintro ⟨account, receivedAtMs⟩ ⟨account', receivedAtMs'⟩ h
  simpa [toProd, and_comm] using h

instance : LinearOrder MempoolScore := LinearOrder.lift' toProd toProd_injective

theorem le_iff {s t : MempoolScore} : s ≤ t ↔ t.receivedAtMs < s.receivedAtMs ∨
    t.receivedAtMs = s.receivedAtMs ∧ s.account ≤ t.account := by
  have hle : s ≤ t ↔ s.toProd ≤ t.toProd := Iff.rfl
  rw [hle, toProd, toProd, Prod.Lex.toLex_le_toLex, OrderDual.toDual_lt_toDual,
    OrderDual.toDual_inj, eq_comm]

end MempoolScore

/-- The panics of the mempool. -/
inductive MempoolPanic where
  | danglingPointer
  | missingTransaction
  | negativeSize
  | protocolUpgrade
  | accountNotAvailable
  | nonceNotSet
  deriving DecidableEq

structure InsertionMetadata where
  newScore : Option MempoolScore := none
  previousScore : Option MempoolScore := none
  isNew : Bool := false

/-- The transactions of one account by nonce, and the next nonce to hand out. -/
structure AccountTransactions where
  transactions : KeyedMap Nonce L2Tx
  nonce : Nonce

namespace AccountTransactions

def new (nonce : Nonce) : AccountTransactions := ⟨∅, nonce⟩

def len (txs : AccountTransactions) : ℕ := KeyedMap.total (fun _ => 1) txs.transactions

def scoreForTransaction (transaction : L2Tx) : MempoolScore :=
  ⟨transaction.initiatorAccount, transaction.receivedTimestampMs⟩

def insert (txs : AccountTransactions) (transaction : L2Tx) :
    InsertionMetadata × AccountTransactions :=
  let nonce := transaction.commonData.nonce
  -- skip insertion if transaction is old
  if nonce < txs.nonce then ({}, txs)
  else
    let previousScore := (txs.transactions.lookup nonce).map scoreForTransaction
    let inserted := { txs with transactions := txs.transactions.insert nonce transaction }
    if nonce = txs.nonce then
      (⟨some (scoreForTransaction transaction), previousScore, previousScore.isNone⟩, inserted)
    else ({ isNew := previousScore.isNone }, inserted)

/-- Handles transaction rejection: the score of the successor, if any. -/
def reset (txs : AccountTransactions) (transaction : Transaction) :
    Except MempoolPanic (Option MempoolScore × AccountTransactions) :=
  match transaction.nonce with
  | none => .error .nonceNotSet
  | some txNonce => .ok ((txs.transactions.lookup (txNonce + 1)).map scoreForTransaction,
      { txs with nonce := min txs.nonce txNonce })

def next (txs : AccountTransactions) :
    Except MempoolPanic ((L2Tx × Option MempoolScore) × AccountTransactions) :=
  match txs.transactions.lookup txs.nonce with
  | none => .error .missingTransaction
  | some transaction =>
    let rest : AccountTransactions := ⟨txs.transactions.erase txs.nonce, txs.nonce + 1⟩
    .ok ((transaction, (rest.transactions.lookup rest.nonce).map scoreForTransaction), rest)

end AccountTransactions

/-- `MempoolStore`. Every stored transaction takes more than a byte of memory, so the counter `size`
stays below `2 ^ 64`. -/
structure MempoolStore where
  l2TransactionsPerAccount : KeyedMap Address AccountTransactions
  l2PriorityQueue : OrderedSet MempoolScore
  nextPriorityId : U64
  stashedAccounts : List Address
  size : ℕ
  capacity : ℕ

structure MempoolInfo where
  stashedAccounts : List Address
  purgedAccounts : List Address

namespace MempoolStore

def new (nextPriorityId : U64) (capacity : ℕ) : MempoolStore :=
  ⟨∅, .empty, nextPriorityId, [], 0, capacity⟩

/-- Remove a pointer from the queue, if there is one to remove. -/
def removeScore (queue : OrderedSet MempoolScore) : Option MempoolScore → OrderedSet MempoolScore
  | some score => queue.erase score
  | none => queue

/-- Add a pointer to the queue, if there is one to add. -/
def insertScore (queue : OrderedSet MempoolScore) : Option MempoolScore → OrderedSet MempoolScore
  | some score => queue.insert score
  | none => queue

def hasNext (m : MempoolStore) : Bool := m.l2PriorityQueue.last?.isSome

/-- The body of the stash loop of `next_transaction`, with the count `removed`. -/
def stash (acc : ℕ × MempoolStore) (stashedPointer : MempoolScore) :
    Except MempoolPanic (ℕ × MempoolStore) :=
  match acc.2.l2TransactionsPerAccount.lookup stashedPointer.account with
  | none => .error .danglingPointer
  | some txs => .ok (acc.1 + txs.len,
      { acc.2 with
        l2TransactionsPerAccount := acc.2.l2TransactionsPerAccount.erase stashedPointer.account
        stashedAccounts := acc.2.stashedAccounts ++ [stashedPointer.account] })

def nextTransaction (m : MempoolStore) :
    Except MempoolPanic (Option Transaction × MempoolStore) := do
  match m.l2PriorityQueue.last? with
  | none => .ok (none, m)
  | some txPointer =>
    -- stash all observed transactions that don't meet criteria
    let split := m.l2PriorityQueue.splitOff txPointer
    let (removed, m) ← (split.2.toList.drop 1).foldlM stash
      (0, { m with l2PriorityQueue := split.1 })
    match m.l2TransactionsPerAccount.lookup txPointer.account with
    | none => .error .danglingPointer
    | some txs =>
      let ((transaction, score), txs) ← txs.next
      if m.size < removed + 1 then .error .negativeSize
      else .ok (some transaction.intoTransaction,
        { m with
          l2TransactionsPerAccount := m.l2TransactionsPerAccount.insert txPointer.account txs
          l2PriorityQueue := insertScore m.l2PriorityQueue score
          size := m.size - (removed + 1) })

/-- The entry of an account for an insertion: the stored one, or a new one with its initial
nonce. -/
def entry (m : MempoolStore) (initialNonces : KeyedMap Address Nonce) (account : Address) :
    AccountTransactions :=
  match m.l2TransactionsPerAccount.lookup account with
  | some txs => txs
  | none => .new ((initialNonces.lookup account).getD 0)

def insertL2Transaction (m : MempoolStore) (transaction : L2Tx)
    (initialNonces : KeyedMap Address Nonce) : MempoolStore :=
  let account := transaction.initiatorAccount
  let inserted := (m.entry initialNonces account).insert transaction
  { m with
    l2TransactionsPerAccount := m.l2TransactionsPerAccount.insert account inserted.2
    l2PriorityQueue := insertScore (removeScore m.l2PriorityQueue inserted.1.previousScore)
      inserted.1.newScore
    size := if inserted.1.isNew then m.size + 1 else m.size }

/-- The body of the loop of `insert`. -/
def insertOne (initialNonces : KeyedMap Address Nonce) (m : MempoolStore)
    (transaction : Transaction) : Except MempoolPanic MempoolStore :=
  match transaction.commonData with
  | .l2 data => .ok (m.insertL2Transaction
      ⟨transaction.execute, data, transaction.receivedTimestampMs⟩ initialNonces)
  | .protocolUpgrade _ => .error .protocolUpgrade

def insert (m : MempoolStore) (transactions : List Transaction)
    (initialNonces : KeyedMap Address Nonce) : Except MempoolPanic MempoolStore :=
  transactions.foldlM (insertOne initialNonces) m

def rollback (m : MempoolStore) (tx : Transaction) : Except MempoolPanic MempoolStore :=
  match tx.commonData with
  | .l2 _ =>
    match m.l2TransactionsPerAccount.lookup tx.initiatorAccount with
    | none => .error .accountNotAvailable
    | some txs => do
      let (score, txs) ← txs.reset tx
      .ok { m with
        l2TransactionsPerAccount := m.l2TransactionsPerAccount.insert tx.initiatorAccount txs
        l2PriorityQueue := removeScore m.l2PriorityQueue score }
  | .protocolUpgrade _ => .error .protocolUpgrade

/-- Does the queue point to the account? -/
def isIndexed (m : MempoolStore) (account : Address) : Bool :=
  (m.l2PriorityQueue.toList.map MempoolScore.account).contains account

def gc (m : MempoolStore) : List Address × MempoolStore :=
  if m.size ≥ m.capacity then
    let kept := m.l2TransactionsPerAccount.filterKeys m.isIndexed
    let drained := m.l2TransactionsPerAccount.filterKeys fun account => !m.isIndexed account
    (drained.toList.map Prod.fst,
      { m with
        l2TransactionsPerAccount := kept
        size := kept.total AccountTransactions.len })
  else ([], m)

def getMempoolInfo (m : MempoolStore) : MempoolInfo × MempoolStore :=
  let (purgedAccounts, rest) := gc { m with stashedAccounts := [] }
  (⟨m.stashedAccounts, purgedAccounts⟩, rest)

end MempoolStore

end OlaOs
