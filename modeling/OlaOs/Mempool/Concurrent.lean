import OlaOs.Lib.Transition
import OlaOs.Mempool.Run

/-! The mempool between the sequencer and the fetcher (`sequencer/types.rs`, `io/mempool.rs`,
`mempool_actor.rs`): every call takes the lock for itself, so the two sides interleave call by
call. -/
namespace OlaOs

namespace MempoolStore

/-- What the sequencer is at: no transaction, a transaction it was handed, or a rollback between
its two calls. -/
inductive Held where
  | idle
  | holding (tx : Transaction)
  | rolledBack (tx : Transaction)

structure Shared where
  mempool : MempoolStore
  held : Held

/-- The calls of the two sides. -/
inductive Call where
  | insert (transactions : List Transaction) (initialNonces : KeyedMap Address Nonce)
  | getMempoolInfo
  | nextTransaction
  | includeTx
  | rollback
  | reinsert
  | reject

/-- One call; a call that is not due, and a call that panics, leads nowhere. -/
def call (s : Shared) : Call → Option Shared
  | .insert transactions initialNonces =>
    (s.mempool.insert transactions initialNonces).toOption.map fun m => { s with mempool := m }
  | .getMempoolInfo => some { s with mempool := s.mempool.getMempoolInfo.2 }
  | .nextTransaction =>
    match s.held with
    | .idle => s.mempool.nextTransaction.toOption.map fun r =>
      ⟨r.2, match r.1 with | some tx => .holding tx | none => .idle⟩
    | _ => none
  | .includeTx =>
    match s.held with
    | .holding _ => some { s with held := .idle }
    | _ => none
  -- `MempoolIO::rollback`: reset the nonces, then insert the transaction again
  | .rollback =>
    match s.held with
    | .holding tx => (s.mempool.rollback tx).toOption.map fun m => ⟨m, .rolledBack tx⟩
    | _ => none
  | .reinsert =>
    match s.held with
    | .rolledBack tx => (s.mempool.insert [tx] ∅).toOption.map fun m => ⟨m, .idle⟩
    | _ => none
  -- `MempoolIO::reject` does not insert the transaction again
  | .reject =>
    match s.held with
    | .holding tx => (s.mempool.rollback tx).toOption.map fun m => ⟨m, .idle⟩
    | _ => none

/-- The transaction that the sequencer has not given back. -/
def Held.tx? : Held → Option Transaction
  | .idle => none
  | .holding tx | .rolledBack tx => some tx

/-- A collection finds the mempool below its capacity, or finds a pointer to the account of the
transaction that the sequencer has; and no account is about to hand out the nonce `u32::MAX`. -/
def Safe (s : Shared) : Call → Prop
  | .getMempoolInfo => ∀ tx, s.held.tx? = some tx →
      s.mempool.size < s.mempool.capacity ∨ s.mempool.isIndexed tx.initiatorAccount = true
  | .nextTransaction => ∀ account tx, s.mempool.ready account = some tx → tx.nonce ≠ maxNonce
  | _ => True

/-- A mempool with nothing in it, and an idle sequencer. -/
def IsNew (s : Shared) : Prop := ∃ nextPriorityId capacity, s = ⟨new nextPriorityId capacity, .idle⟩

/-- A transaction is stored at the nonce of its account, and the queue points to it. -/
def IsReady (m : MempoolStore) (tx : Transaction) : Prop :=
  ∃ l2Tx txs, tx = L2Tx.intoTransaction l2Tx ∧
    m.l2TransactionsPerAccount.lookup l2Tx.initiatorAccount = some txs ∧
    txs.nonce = l2Tx.nonce ∧ txs.transactions.lookup txs.nonce = some l2Tx ∧
    AccountTransactions.scoreForTransaction l2Tx ∈ m.l2PriorityQueue

variable {m : MempoolStore} {s s' : Shared}

/-- Where the account of the sequencer's transaction stands: right behind it while the sequencer
holds it, and at it between the two calls of a rollback. -/
def HeldInv (m : MempoolStore) : Held → Prop
  | .idle => True
  | .holding tx => m.Returned tx
  | .rolledBack tx => ∃ l2Tx txs, tx = L2Tx.intoTransaction l2Tx ∧
      m.l2TransactionsPerAccount.lookup l2Tx.initiatorAccount = some txs ∧ txs.nonce = l2Tx.nonce

structure SharedInv (s : Shared) : Prop where
  inv : s.mempool.Inv
  held : HeldInv s.mempool s.held

theorem HeldInv.insert {held : Held} (h : HeldInv m held) {transactions : List Transaction}
    {initialNonces : KeyedMap Address Nonce} {m' : MempoolStore}
    (hrun : m.insert transactions initialNonces = .ok m') : HeldInv m' held := by
  cases held with
  | idle => trivial
  | holding tx => exact Returned.insert h hrun
  | rolledBack tx =>
    obtain ⟨l2Tx, txs, rfl, htxs, hnonce⟩ := h
    obtain ⟨txs', htxs', hnonce'⟩ := insert_keeps_nonce initialNonces _ hrun htxs
    exact ⟨l2Tx, txs', rfl, htxs', hnonce'.trans hnonce⟩

/-- A collection that is below the capacity or finds a pointer does not purge the account. -/
theorem notMem_purgedAccounts {account : Address}
    (h : m.size < m.capacity ∨ m.isIndexed account = true) :
    account ∉ m.getMempoolInfo.1.purgedAccounts := by
  intro hpurged
  obtain ⟨hfull, hindexed, -⟩ := mem_purged.mp hpurged
  rcases h with h | h
  · exact absurd hfull h.not_ge
  · have hnot : m.isIndexed account = false := hindexed
    rw [h] at hnot
    cases hnot

theorem lookup_getMempoolInfo_of_safe {account : Address}
    (h : m.size < m.capacity ∨ m.isIndexed account = true) :
    m.getMempoolInfo.2.l2TransactionsPerAccount.lookup account =
      m.l2TransactionsPerAccount.lookup account := by
  rw [lookup_getMempoolInfo, if_neg (notMem_purgedAccounts h)]

theorem HeldInv.getMempoolInfo {held : Held} (h : HeldInv m held)
    (hsafe : ∀ tx, held.tx? = some tx →
      m.size < m.capacity ∨ m.isIndexed tx.initiatorAccount = true) :
    HeldInv m.getMempoolInfo.2 held := by
  cases held with
  | idle => trivial
  | holding tx =>
    obtain ⟨l2Tx, txs, rfl, htxs, hnonce, hmax⟩ := h
    exact ⟨l2Tx, txs, rfl, (lookup_getMempoolInfo_of_safe (hsafe _ rfl)).trans htxs, hnonce, hmax⟩
  | rolledBack tx =>
    obtain ⟨l2Tx, txs, rfl, htxs, hnonce⟩ := h
    exact ⟨l2Tx, txs, rfl, (lookup_getMempoolInfo_of_safe (hsafe _ rfl)).trans htxs, hnonce⟩

/-- Rolling back a transaction that the account stands right behind. -/
theorem Returned.rollback (hinv : m.Inv) {tx : Transaction} (h : m.Returned tx) :
    ∃ m', m.rollback tx = .ok m' ∧ m'.Inv ∧ HeldInv m' (.rolledBack tx) := by
  obtain ⟨l2Tx, txs, rfl, htxs, hnonce, hmax⟩ := h
  refine ⟨_, rollback_eq htxs hnonce hmax, hinv.rollback htxs hnonce hmax, l2Tx, _, rfl,
    AList.lookup_insert _, rfl⟩

/-- Inserting the transaction that an account was reset to makes it ready again. -/
theorem HeldInv.reinsert (hinv : m.Inv) {tx : Transaction} (h : HeldInv m (.rolledBack tx)) :
    ∃ m', m.insert [tx] ∅ = .ok m' ∧ m'.Inv ∧ m'.IsReady tx := by
  obtain ⟨l2Tx, txs, rfl, htxs, hnonce⟩ := h
  have hrun : m.insert [l2Tx.intoTransaction] ∅ = .ok (m.insertL2Transaction l2Tx ∅) := rfl
  have hinv' := hinv.insert hrun
  have hlookup : (m.insertL2Transaction l2Tx ∅).l2TransactionsPerAccount.lookup
      l2Tx.initiatorAccount =
        some { txs with transactions := txs.transactions.insert l2Tx.nonce l2Tx } := by
    unfold insertL2Transaction
    dsimp only
    rw [AList.lookup_insert, AccountTransactions.insert_snd, entry, htxs, if_neg (by simp [hnonce])]
  have hstored : (txs.transactions.insert l2Tx.nonce l2Tx).lookup txs.nonce = some l2Tx := by
    rw [hnonce]
    exact AList.lookup_insert _
  refine ⟨_, hrun, hinv', l2Tx, _, rfl, hlookup, hnonce, hstored, (hinv'.pointer _).mpr ?_⟩
  show (m.insertL2Transaction l2Tx ∅).score l2Tx.initiatorAccount = _
  rw [score, hlookup, Option.bind_some, AccountTransactions.score, hstored]
  rfl

theorem SharedInv.call (h : SharedInv s) {c : Call} (hsafe : Safe s c)
    (hrun : call s c = some s') : SharedInv s' := by
  obtain ⟨m, held⟩ := s
  obtain ⟨hinv, hheld⟩ := h
  cases c with
  | insert transactions initialNonces =>
    obtain ⟨m', hm', rfl⟩ := Option.map_eq_some_iff.mp hrun
    have hok := Seq.toOption_eq_some.mp hm'
    exact ⟨hinv.insert hok, hheld.insert hok⟩
  | getMempoolInfo =>
    cases hrun
    exact ⟨hinv.getMempoolInfo, hheld.getMempoolInfo hsafe⟩
  | nextTransaction =>
    cases held with
    | idle =>
      obtain ⟨⟨transaction, m'⟩, hm', rfl⟩ := Option.map_eq_some_iff.mp hrun
      obtain ⟨hinv', hreturned⟩ :=
        hinv.nextTransaction_returned hsafe (Seq.toOption_eq_some.mp hm')
      refine ⟨hinv', ?_⟩
      cases transaction with
      | none => trivial
      | some tx => exact hreturned tx rfl
    | holding tx => cases hrun
    | rolledBack tx => cases hrun
  | includeTx =>
    cases held with
    | holding tx =>
      cases hrun
      exact ⟨hinv, trivial⟩
    | idle => cases hrun
    | rolledBack tx => cases hrun
  | rollback =>
    cases held with
    | holding tx =>
      obtain ⟨m', hm', rfl⟩ := Option.map_eq_some_iff.mp hrun
      obtain ⟨m'', hok, hinv', hback⟩ := Returned.rollback hinv hheld
      rw [Seq.toOption_eq_some.mp hm'] at hok
      cases hok
      exact ⟨hinv', hback⟩
    | idle => cases hrun
    | rolledBack tx => cases hrun
  | reinsert =>
    cases held with
    | rolledBack tx =>
      obtain ⟨m', hm', rfl⟩ := Option.map_eq_some_iff.mp hrun
      exact ⟨hinv.insert (Seq.toOption_eq_some.mp hm'), trivial⟩
    | idle => cases hrun
    | holding tx => cases hrun
  | reject =>
    cases held with
    | holding tx =>
      obtain ⟨m', hm', rfl⟩ := Option.map_eq_some_iff.mp hrun
      obtain ⟨m'', hok, hinv', -⟩ := Returned.rollback hinv hheld
      rw [Seq.toOption_eq_some.mp hm'] at hok
      cases hok
      exact ⟨hinv', trivial⟩
    | idle => cases hrun
    | rolledBack tx => cases hrun

/-- In every interleaving of safe calls, a transaction that the sequencer holds can be rolled back
or rejected without a panic, and after the second call of a rollback it is ready again. -/
theorem reaches_rollback_safe (s : Shared) (h : Transition.Reaches call Safe IsNew s) :
    (∀ tx, s.held = .holding tx → ∃ m', s.mempool.rollback tx = .ok m') ∧
    (∀ tx, s.held = .rolledBack tx →
      ∃ m', s.mempool.insert [tx] ∅ = .ok m' ∧ m'.IsReady tx) := by
  have hinv : SharedInv s := by
    refine h.invariant SharedInv ?_ fun s c s' hs hsafe hrun => hs.call hsafe hrun
    rintro s ⟨nextPriorityId, capacity, rfl⟩
    exact ⟨inv_new nextPriorityId capacity, trivial⟩
  obtain ⟨m, held⟩ := s
  constructor
  · rintro tx rfl
    obtain ⟨m', hrun, -⟩ := Returned.rollback hinv.inv hinv.held
    exact ⟨m', hrun⟩
  · rintro tx rfl
    obtain ⟨m', hrun, -, hready⟩ := HeldInv.reinsert hinv.inv hinv.held
    exact ⟨m', hrun, hready⟩

/-- Another address than zero. -/
def sampleAddress : Address := ⟨1 :: List.replicate 31 0, rfl⟩

/-- A transaction of the other address. -/
def sampleOther : L2Tx :=
  ⟨⟨.zero, [], none⟩, ⟨0, sampleAddress, [], .olaRawTransaction, none⟩, 9⟩

/-- Two accounts send a transaction each, and the sequencer takes the earlier one. -/
def sampleCalls : List Call :=
  [.insert [(sampleTransaction 0 5).intoTransaction, sampleOther.intoTransaction] ∅,
    .nextTransaction]

/-- The mempool after the two transactions came in. -/
def sampleMempool : MempoolStore :=
  ((new 0 10).insertL2Transaction (sampleTransaction 0 5) ∅).insertL2Transaction sampleOther ∅

theorem run_sampleMempool : Run none sampleMempool :=
  Run.insert_of_ne [(sampleTransaction 0 5).intoTransaction, sampleOther.intoTransaction] ∅
    (.new 0 10) rfl (by decide)

/-- Below the capacity the transaction is handed out, held while the mempool is collected, and
rolled back. -/
theorem reaches_rollback_safe_sample : ∃ s,
    Transition.Reaches call Safe IsNew s ∧
    s.held = .rolledBack (sampleTransaction 0 5).intoTransaction ∧
    ∃ m', s.mempool.insert [(sampleTransaction 0 5).intoTransaction] ∅ = .ok m' ∧
      m'.IsReady (sampleTransaction 0 5).intoTransaction := by
  have hnew : Transition.Reaches call Safe IsNew ⟨new 0 10, .idle⟩ := .start ⟨0, 10, rfl⟩
  have hinsert : Transition.Reaches call Safe IsNew ⟨sampleMempool, .idle⟩ := by
    refine hnew.next (.insert [(sampleTransaction 0 5).intoTransaction,
      sampleOther.intoTransaction] ∅) ?_ rfl
    trivial
  obtain ⟨m₁, hm₁, hnext⟩ : ∃ m₁, m₁.size < m₁.capacity ∧ Transition.Reaches call Safe IsNew
      ⟨m₁, .holding (sampleTransaction 0 5).intoTransaction⟩ := by
    refine ⟨_, ?_, hinsert.next .nextTransaction ?_ rfl⟩
    · decide
    · intro account tx hready
      exact run_sampleMempool.runInv.noMaxNonce tx (stores_of_ready hready)
  have hinfo : Transition.Reaches call Safe IsNew
      ⟨m₁.getMempoolInfo.2, .holding (sampleTransaction 0 5).intoTransaction⟩ :=
    hnext.next .getMempoolInfo (fun tx _ => .inl hm₁) rfl
  obtain ⟨m₂, hm₂⟩ := (reaches_rollback_safe _ hinfo).1 _ rfl
  have hback : Transition.Reaches call Safe IsNew
      ⟨m₂, .rolledBack (sampleTransaction 0 5).intoTransaction⟩ := by
    refine hinfo.next .rollback trivial ?_
    unfold call
    dsimp only
    rw [hm₂]
    rfl
  exact ⟨_, hback, rfl, (reaches_rollback_safe _ hback).2 _ rfl⟩

/-- At the capacity the collection purges the account of the transaction that the sequencer holds,
and the rollback panics. -/
theorem reaches_rollback_safe_counterexample : ∃ s,
    Transition.Reaches call (fun _ _ => True) IsNew s ∧
    s.held = .holding (sampleTransaction 0 5).intoTransaction ∧
    s.mempool.rollback (sampleTransaction 0 5).intoTransaction = .error .accountNotAvailable := by
  exact ⟨_, Transition.reaches_run (sampleCalls ++ [.getMempoolInfo]) (.start ⟨0, 1, rfl⟩)
    (fun _ _ => trivial) rfl, rfl, rfl⟩

end MempoolStore

end OlaOs
