import OlaOs.Mempool.Invariant

/-! Runs of the mempool: the invariant holds in every state that the fetcher and the sequencer
can bring it to. -/
namespace OlaOs

/-- `u32::MAX` -/
def maxNonce : Nonce := Fin.last _

namespace MempoolStore

def NoMaxNonce (m : MempoolStore) : Prop := ∀ tx, m.Stores tx → tx.nonce ≠ maxNonce

/-- The states of the mempool, with the transaction that may be rolled back: the one handed out
last, until it is rolled back or its account is purged. After a rollback the transaction may be
inserted again, which is an `insert` like any other. -/
inductive Run : Option Transaction → MempoolStore → Prop where
  | new (nextPriorityId : U64) (capacity : ℕ) : Run none (new nextPriorityId capacity)
  | insert {last : Option Transaction} {m m' : MempoolStore} (transactions : List Transaction)
      (initialNonces : KeyedMap Address Nonce) : Run last m →
      m.insert transactions initialNonces = .ok m' → NoMaxNonce m' → Run last m'
  | nextTransaction {last : Option Transaction} {m m' : MempoolStore}
      {transaction : Option Transaction} : Run last m →
      m.nextTransaction = .ok (transaction, m') → Run (transaction.or last) m'
  | getMempoolInfo {last : Option Transaction} {m : MempoolStore} : Run last m →
      Run (last.filter fun tx => !m.getMempoolInfo.1.purgedAccounts.contains tx.initiatorAccount)
        m.getMempoolInfo.2
  | rollback {tx : Transaction} {m m' : MempoolStore} : Run (some tx) m →
      m.rollback tx = .ok m' → Run none m'

/-- The transaction handed out last: its account stands right behind it. -/
def Returned (m : MempoolStore) (tx : Transaction) : Prop :=
  ∃ l2Tx txs, tx = L2Tx.intoTransaction l2Tx ∧
    m.l2TransactionsPerAccount.lookup l2Tx.initiatorAccount = some txs ∧
    txs.nonce = l2Tx.nonce + 1 ∧ l2Tx.nonce ≠ maxNonce

variable {m : MempoolStore}

theorem Inv.insert (h : m.Inv) {transactions : List Transaction}
    {initialNonces : KeyedMap Address Nonce} {m' : MempoolStore}
    (hrun : m.insert transactions initialNonces = .ok m') : m'.Inv :=
  insert_keeps initialNonces Inv (fun _ tx _ h => h.insertL2Transaction initialNonces tx) hrun h

theorem Returned.insert {tx : Transaction} (h : m.Returned tx) {transactions : List Transaction}
    {initialNonces : KeyedMap Address Nonce} {m' : MempoolStore}
    (hrun : m.insert transactions initialNonces = .ok m') : m'.Returned tx := by
  obtain ⟨l2Tx, txs, rfl, htxs, hnonce, hmax⟩ := h
  obtain ⟨txs', htxs', hnonce'⟩ := insert_keeps_nonce initialNonces _ hrun htxs
  exact ⟨l2Tx, txs', rfl, htxs', hnonce'.trans hnonce, hmax⟩

theorem stores_of_insert_account {account : Address} {txs : AccountTransactions}
    {queue : OrderedSet MempoolScore} {size : ℕ}
    (h : ∀ {nonce tx}, txs.transactions.lookup nonce = some tx → m.Stores tx) {tx : L2Tx}
    (htx : Stores { m with
      l2TransactionsPerAccount := m.l2TransactionsPerAccount.insert account txs
      l2PriorityQueue := queue
      size := size } tx) : m.Stores tx := by
  obtain ⟨account', txs', nonce, htxs', htx⟩ := htx
  rw [KeyedMap.lookup_insert_eq] at htxs'
  split_ifs at htxs'
  · obtain rfl := Option.some.inj htxs'
    exact h htx
  · exact ⟨account', txs', nonce, htxs', htx⟩

theorem Inv.nextTransaction_returned (hinv : m.Inv)
    (hmax : ∀ account tx, m.ready account = some tx → tx.nonce ≠ maxNonce)
    {transaction : Option Transaction} {m' : MempoolStore}
    (hrun : m.nextTransaction = .ok (transaction, m')) :
    m'.Inv ∧ ∀ tx, transaction = some tx → m'.Returned tx := by
  obtain ⟨hempty, -⟩ | ⟨account, txs, l2Tx, htxs, htx, hnext⟩ := hinv.nextTransaction_eq
  · rw [hempty] at hrun
    cases hrun
    exact ⟨hinv, nofun⟩
  · rw [hnext] at hrun
    cases hrun
    have hkeyed := hinv.keyed htxs
    refine ⟨hinv.advance htxs htx, ?_⟩
    rintro tx ⟨⟩
    refine ⟨l2Tx, txs.advance, rfl, ?_, ?_, hmax account l2Tx ?_⟩
    · rw [hkeyed.initiator htx]
      exact AList.lookup_insert _
    · rw [hkeyed.nonce_eq htx]
      rfl
    · rw [ready, htxs]
      exact htx

theorem stores_of_ready {account : Address} {tx : L2Tx} (h : m.ready account = some tx) :
    m.Stores tx := by
  obtain ⟨txs, htxs, htx⟩ := Option.bind_eq_some_iff.mp h
  exact ⟨account, txs, txs.nonce, htxs, htx⟩

/-- Handing out stores nothing new. -/
theorem stores_of_nextTransaction {m' : MempoolStore} {transaction : Option Transaction}
    (hrun : m.nextTransaction = .ok (transaction, m')) {tx : L2Tx} (h : m'.Stores tx) :
    m.Stores tx := by
  obtain ⟨-, rfl⟩ | ⟨account, txs, -, htxs, -, -, hm'⟩ := nextTransaction_accounts hrun
  · exact h
  · obtain ⟨account', txs', nonce, htxs', htx'⟩ := h
    rw [hm', KeyedMap.lookup_insert_eq] at htxs'
    split_ifs at htxs'
    · obtain rfl := Option.some.inj htxs'
      exact ⟨account, txs, nonce, htxs, (AccountTransactions.lookup_advance htx').2⟩
    · exact ⟨account', txs', nonce, htxs', htx'⟩

/-- The pointer of an account, by its definition and through its transaction at the nonce. -/
theorem Inv.map_ready (h : m.Inv) (account : Address) :
    ((m.ready account).map fun tx => (⟨account, tx.receivedTimestampMs⟩ : MempoolScore)) =
      m.score account := by
  unfold ready score
  cases htxs : m.l2TransactionsPerAccount.lookup account with
  | none => rfl
  | some txs =>
    rw [Option.bind_some, Option.bind_some, AccountTransactions.score]
    cases htx : txs.transactions.lookup txs.nonce with
    | none => rfl
    | some tx =>
      rw [Option.map_some, Option.map_some, AccountTransactions.scoreForTransaction,
        (h.keyed htxs).initiator htx]

/-- What every run keeps. -/
structure RunInv (last : Option Transaction) (m : MempoolStore) : Prop where
  inv : m.Inv
  noMaxNonce : m.NoMaxNonce
  returned : ∀ tx, last = some tx → m.Returned tx

theorem RunInv.nextTransaction {last transaction : Option Transaction} (h : RunInv last m)
    {m' : MempoolStore} (hrun : m.nextTransaction = .ok (transaction, m')) :
    RunInv (transaction.or last) m' := by
  obtain ⟨hinv, hreturned⟩ := h.inv.nextTransaction_returned
    (fun account tx htx => h.noMaxNonce tx (stores_of_ready htx)) hrun
  refine ⟨hinv, fun tx htx => h.noMaxNonce tx (stores_of_nextTransaction hrun htx), ?_⟩
  intro tx htx
  cases transaction with
  | none =>
    obtain ⟨hempty, -⟩ | ⟨account, txs, l2Tx, -, -, hnext⟩ := h.inv.nextTransaction_eq
    · rw [hempty] at hrun
      cases hrun
      exact h.returned tx htx
    · rw [hnext] at hrun
      cases hrun
  | some tx' =>
    obtain rfl : tx' = tx := by simpa using htx
    exact hreturned tx' rfl

theorem RunInv.getMempoolInfo {last : Option Transaction} (h : RunInv last m) :
    RunInv (last.filter fun tx => !m.getMempoolInfo.1.purgedAccounts.contains tx.initiatorAccount)
      m.getMempoolInfo.2 := by
  refine ⟨h.inv.getMempoolInfo, fun tx htx => h.noMaxNonce tx (stores_getMempoolInfo htx), ?_⟩
  intro tx htx
  obtain ⟨hlast, hkept⟩ := Option.filter_eq_some_iff.mp htx
  obtain ⟨l2Tx, txs, rfl, htxs, hnonce, hmax⟩ := h.returned tx hlast
  refine ⟨l2Tx, txs, rfl, ?_, hnonce, hmax⟩
  rw [lookup_getMempoolInfo, if_neg, htxs]
  simpa using hkept

theorem RunInv.rollback {tx : Transaction} (h : RunInv (some tx) m) {m' : MempoolStore}
    (hrun : m.rollback tx = .ok m') : RunInv none m' := by
  obtain ⟨l2Tx, txs, rfl, htxs, hnonce, hmax⟩ := h.returned tx rfl
  rw [rollback_eq htxs hnonce hmax] at hrun
  cases hrun
  refine ⟨h.inv.rollback htxs hnonce hmax, ?_, nofun⟩
  intro tx' htx'
  refine h.noMaxNonce tx' (stores_of_insert_account ?_ htx')
  intro nonce tx'' hl
  exact ⟨_, txs, nonce, htxs, hl⟩

theorem Run.runInv {last : Option Transaction} (h : Run last m) : RunInv last m := by
  induction h with
  | new nextPriorityId capacity =>
    refine ⟨inv_new nextPriorityId capacity, ?_, nofun⟩
    rintro tx ⟨account, txs, nonce, htxs, -⟩
    cases htxs
  | insert transactions initialNonces _ hrun hmax ih =>
    exact ⟨ih.inv.insert hrun, hmax, fun tx hlast => (ih.returned tx hlast).insert hrun⟩
  | nextTransaction _ hrun ih => exact ih.nextTransaction hrun
  | getMempoolInfo _ ih => exact ih.getMempoolInfo
  | rollback _ hrun ih => exact ih.rollback hrun

/-- In every state that a run reaches, the queue has exactly the pointers of the accounts with a
transaction at their nonce, no stored nonce is below the nonce of its account, the counter is the
number of stored transactions, and handing out does not panic. -/
theorem run_invariant (last : Option Transaction) (m : MempoolStore) (h : Run last m) :
    (∀ account, (m.l2PriorityQueue.toList.filter fun p => p.account = account) =
      ((m.ready account).map fun tx => ⟨account, tx.receivedTimestampMs⟩).toList) ∧
    (∀ account txs, m.l2TransactionsPerAccount.lookup account = some txs →
      ∀ nonce tx, txs.transactions.lookup nonce = some tx → txs.nonce ≤ nonce) ∧
    m.size = m.stored ∧
    ∃ result, m.nextTransaction = .ok result := by
  have hinv := h.runInv.inv
  refine ⟨fun account => ?_, fun account txs htxs nonce tx htx => (hinv.keyed htxs).nonce_le htx,
    hinv.size, ?_⟩
  · rw [hinv.map_ready]
    apply OrderedSet.filter_eq_toList
    intro p
    rw [hinv.pointer, decide_eq_true_eq]
    constructor
    · rintro ⟨hp, rfl⟩
      exact hp
    · intro hp
      obtain rfl := hinv.score_account hp
      exact ⟨hp, rfl⟩
  · obtain ⟨hempty, -⟩ | ⟨account, txs, tx, -, -, hnext⟩ := hinv.nextTransaction_eq
    · exact ⟨_, hempty⟩
    · exact ⟨_, hnext⟩

/-- Insertions of other nonces than `u32::MAX` store no such nonce. -/
theorem Run.insert_of_ne {last : Option Transaction} (transactions : List Transaction)
    (initialNonces : KeyedMap Address Nonce) (h : Run last m) {m' : MempoolStore}
    (hrun : m.insert transactions initialNonces = .ok m')
    (hmax : ∀ tx ∈ transactions, tx.nonce ≠ some maxNonce) : Run last m' := by
  refine h.insert transactions initialNonces hrun ?_
  refine insert_keeps initialNonces NoMaxNonce ?_ hrun h.runInv.noMaxNonce
  intro m tx htx hm tx' htx'
  obtain rfl | hold := (insertL2Transaction_keeps initialNonces tx).2 htx'
  · intro heq
    exact hmax _ htx (by rw [L2Tx.intoTransaction_nonce, heq])
  · exact hm tx' hold

/-- A transaction of the zero address. -/
def sampleTransaction (nonce : Nonce) (receivedTimestampMs : U64) : L2Tx :=
  ⟨⟨.zero, [], none⟩, ⟨nonce, .zero, [], .olaRawTransaction, none⟩, receivedTimestampMs⟩

/-- Two transactions of an account come in, the first is handed out and rolled back, and comes in
again. -/
theorem run_invariant_sample : ∃ m, Run none m ∧ m.size = m.stored ∧ m.size = 2 ∧
    ∃ result, m.nextTransaction = .ok result := by
  have hstart := Run.insert_of_ne [(sampleTransaction 0 5).intoTransaction,
    (sampleTransaction 1 3).intoTransaction] ∅ (.new 0 10) rfl (by decide)
  have hback := Run.rollback (Run.nextTransaction hstart rfl) rfl
  have hrun := Run.insert_of_ne [(sampleTransaction 0 5).intoTransaction] ∅ hback rfl (by decide)
  obtain ⟨-, -, hsize, hnext⟩ := run_invariant _ _ hrun
  exact ⟨_, hrun, hsize, rfl, hnext⟩

end MempoolStore

end OlaOs
