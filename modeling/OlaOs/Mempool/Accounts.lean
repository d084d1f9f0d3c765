import OlaOs.Mempool.Run

/-! What the calls do to the accounts of a mempool, whatever state its queue is in. -/
namespace OlaOs

namespace MempoolStore

/-- Something is stored under an initiator and nonce. -/
def StoresAt (m : MempoolStore) (key : Address × Nonce) : Prop :=
  ∃ txs tx, m.l2TransactionsPerAccount.lookup key.1 = some txs ∧
    txs.transactions.lookup key.2 = some tx

/-- Every account holds its own transactions, none below its nonce. -/
def AllKeyed (m : MempoolStore) : Prop :=
  ∀ account txs, m.l2TransactionsPerAccount.lookup account = some txs → txs.Keyed account

variable {m m' : MempoolStore}

/-- A rollback moves the nonce of the account back. -/
theorem rollback_accounts {tx : Transaction} (h : m.rollback tx = .ok m') :
    ∃ l2Tx txs, tx = L2Tx.intoTransaction l2Tx ∧
      m.l2TransactionsPerAccount.lookup l2Tx.initiatorAccount = some txs ∧
      m'.l2TransactionsPerAccount = m.l2TransactionsPerAccount.insert l2Tx.initiatorAccount
        { txs with nonce := min txs.nonce l2Tx.nonce } := by
  obtain ⟨commonData, execute, receivedTimestampMs⟩ := tx
  cases commonData with
  | protocolUpgrade data => cases h
  | l2 data =>
    unfold rollback at h
    cases htxs : m.l2TransactionsPerAccount.lookup data.initiatorAddress with
    | none =>
      simp only [Transaction.initiatorAccount, htxs] at h
      cases h
    | some txs =>
      simp only [Transaction.initiatorAccount, htxs, AccountTransactions.reset, Transaction.nonce,
        bind, Except.bind] at h
      cases h
      exact ⟨⟨execute, data, receivedTimestampMs⟩, txs, rfl, htxs, rfl⟩

/-- What `insert_l2_transaction` does to the accounts. -/
theorem lookup_insertL2Transaction (tx : L2Tx) (initialNonces : KeyedMap Address Nonce)
    (account : Address) :
    (m.insertL2Transaction tx initialNonces).l2TransactionsPerAccount.lookup account =
      if account = tx.initiatorAccount then
        some (if tx.nonce < (m.entry initialNonces tx.initiatorAccount).nonce then
          m.entry initialNonces tx.initiatorAccount
        else { m.entry initialNonces tx.initiatorAccount with
          transactions := (m.entry initialNonces tx.initiatorAccount).transactions.insert
            tx.nonce tx })
      else m.l2TransactionsPerAccount.lookup account := by
  unfold insertL2Transaction
  dsimp only
  rw [KeyedMap.lookup_insert_eq, AccountTransactions.insert_snd]

section Keyed

theorem AllKeyed.insertAccount (h : m.AllKeyed) {account : Address} {txs : AccountTransactions}
    (htxs : txs.Keyed account)
    (hm' : m'.l2TransactionsPerAccount = m.l2TransactionsPerAccount.insert account txs) :
    m'.AllKeyed := by
  intro account' txs' hl
  rw [hm', KeyedMap.lookup_insert_eq] at hl
  split_ifs at hl with heq
  · obtain rfl := Option.some.inj hl
    rwa [heq]
  · exact h account' txs' hl

theorem AllKeyed.nextTransaction (h : m.AllKeyed) {transaction : Option Transaction}
    (hrun : m.nextTransaction = .ok (transaction, m')) : m'.AllKeyed := by
  obtain ⟨-, rfl⟩ | ⟨account, txs, tx, htxs, htx, -, hm'⟩ := nextTransaction_accounts hrun
  · exact h
  · exact h.insertAccount (h account txs htxs).advance hm'

theorem AllKeyed.rollback (h : m.AllKeyed) {tx : Transaction} (hrun : m.rollback tx = .ok m') :
    m'.AllKeyed := by
  obtain ⟨l2Tx, txs, rfl, htxs, hm'⟩ := rollback_accounts hrun
  obtain ⟨hinitiator, hnonce, hle⟩ := h _ txs htxs
  have hreset : AccountTransactions.Keyed { txs with nonce := min txs.nonce l2Tx.nonce }
      l2Tx.initiatorAccount :=
    ⟨hinitiator, hnonce, fun hl => (min_le_left _ _).trans (hle hl)⟩
  exact h.insertAccount hreset hm'

theorem AllKeyed.getMempoolInfo (h : m.AllKeyed) : m.getMempoolInfo.2.AllKeyed := by
  intro account txs hl
  rw [lookup_getMempoolInfo] at hl
  split_ifs at hl
  exact h account txs hl

theorem AllKeyed.entry (h : m.AllKeyed) (initialNonces : KeyedMap Address Nonce)
    (account : Address) : (m.entry initialNonces account).Keyed account := by
  unfold MempoolStore.entry
  split
  · exact h account _ ‹_›
  · exact AccountTransactions.keyed_new _

theorem AllKeyed.insert (h : m.AllKeyed) {transactions : List Transaction}
    {initialNonces : KeyedMap Address Nonce}
    (hrun : m.insert transactions initialNonces = .ok m') : m'.AllKeyed := by
  refine insert_keeps initialNonces AllKeyed (fun m tx _ h => ?_) hrun h
  refine h.insertAccount ?_ rfl
  rw [AccountTransactions.insert_snd]
  have hentry := h.entry initialNonces tx.initiatorAccount
  split_ifs with hlt
  · exact hentry
  · exact hentry.insert rfl (not_lt.mp hlt)

end Keyed

section StoresAt

variable {key : Address × Nonce}

theorem StoresAt.getMempoolInfo (h : m.StoresAt key) :
    key.1 ∈ m.getMempoolInfo.1.purgedAccounts ∨ m.getMempoolInfo.2.StoresAt key := by
  obtain ⟨txs, tx, htxs, htx⟩ := h
  by_cases hpurged : key.1 ∈ m.getMempoolInfo.1.purgedAccounts
  · exact .inl hpurged
  · refine .inr ⟨txs, tx, ?_, htx⟩
    rw [lookup_getMempoolInfo, if_neg hpurged, htxs]

/-- A stored transaction stays, unless it is the one that is handed out. -/
theorem StoresAt.nextTransaction (h : m.StoresAt key) (hkeyed : m.AllKeyed)
    {transaction : Option Transaction} (hrun : m.nextTransaction = .ok (transaction, m')) :
    m'.StoresAt key ∨ ∃ tx : L2Tx, transaction = some tx.intoTransaction ∧
      (tx.initiatorAccount, tx.nonce) = key := by
  obtain ⟨-, rfl⟩ | ⟨account, txs, tx, htxs, htx, rfl, hm'⟩ := nextTransaction_accounts hrun
  · exact .inl h
  · obtain ⟨txs', tx', htxs', htx'⟩ := h
    by_cases haccount : key.1 = account
    · rw [haccount, htxs] at htxs'
      obtain rfl := Option.some.inj htxs'
      by_cases hnonce : key.2 = txs.nonce
      · refine .inr ⟨tx, rfl, ?_⟩
        rw [(hkeyed account txs htxs).initiator htx, (hkeyed account txs htxs).nonce_eq htx,
          ← haccount, ← hnonce]
      · refine .inl ⟨txs.advance, tx', ?_, ?_⟩
        · rw [hm', haccount]
          exact AList.lookup_insert _
        · rw [AccountTransactions.advance, KeyedMap.lookup_erase_eq, if_neg hnonce, htx']
    · refine .inl ⟨txs', tx', ?_, htx'⟩
      rw [hm', KeyedMap.lookup_insert_eq, if_neg haccount, htxs']

theorem StoresAt.rollback (h : m.StoresAt key) {tx : Transaction}
    (hrun : m.rollback tx = .ok m') : m'.StoresAt key := by
  obtain ⟨l2Tx, txs, rfl, htxs, hm'⟩ := rollback_accounts hrun
  obtain ⟨txs', tx', htxs', htx'⟩ := h
  by_cases haccount : key.1 = l2Tx.initiatorAccount
  · rw [haccount, htxs] at htxs'
    obtain rfl := Option.some.inj htxs'
    refine ⟨{ txs with nonce := min txs.nonce l2Tx.nonce }, tx', ?_, htx'⟩
    rw [hm', haccount]
    exact AList.lookup_insert _
  · refine ⟨txs', tx', ?_, htx'⟩
    rw [hm', KeyedMap.lookup_insert_eq, if_neg haccount, htxs']

theorem StoresAt.insertL2Transaction (h : m.StoresAt key) (tx : L2Tx)
    (initialNonces : KeyedMap Address Nonce) :
    (m.insertL2Transaction tx initialNonces).StoresAt key := by
  obtain ⟨txs, tx', htxs, htx'⟩ := h
  by_cases haccount : key.1 = tx.initiatorAccount
  · have hentry : m.entry initialNonces tx.initiatorAccount = txs := by
      unfold MempoolStore.entry
      rw [← haccount, htxs]
    by_cases hlt : tx.nonce < txs.nonce
    · refine ⟨txs, tx', ?_, htx'⟩
      rw [lookup_insertL2Transaction, if_pos haccount, hentry, if_pos hlt]
    · by_cases hnonce : key.2 = tx.nonce
      · refine ⟨_, tx, by rw [lookup_insertL2Transaction, if_pos haccount, hentry, if_neg hlt], ?_⟩
        rw [hnonce]
        exact AList.lookup_insert _
      · refine ⟨_, tx', by rw [lookup_insertL2Transaction, if_pos haccount, hentry, if_neg hlt], ?_⟩
        dsimp only
        rw [KeyedMap.lookup_insert_eq, if_neg hnonce, htx']
  · refine ⟨txs, tx', ?_, htx'⟩
    rw [lookup_insertL2Transaction, if_neg haccount, htxs]

theorem StoresAt.insert (h : m.StoresAt key) {transactions : List Transaction}
    {initialNonces : KeyedMap Address Nonce}
    (hrun : m.insert transactions initialNonces = .ok m') : m'.StoresAt key :=
  insert_keeps initialNonces (StoresAt · key)
    (fun _ tx _ h => h.insertL2Transaction tx initialNonces) hrun h

theorem nonce_entry_insertL2Transaction (tx : L2Tx) (initialNonces : KeyedMap Address Nonce)
    (account : Address) :
    ((m.insertL2Transaction tx initialNonces).entry initialNonces account).nonce =
      (m.entry initialNonces account).nonce := by
  have hl := lookup_insertL2Transaction (m := m) tx initialNonces account
  by_cases haccount : account = tx.initiatorAccount
  · rw [if_pos haccount] at hl
    rw [entry, hl, haccount]
    dsimp only
    split_ifs <;> rfl
  · rw [if_neg haccount] at hl
    rw [entry, hl, entry]

/-- A transaction that is not below the nonce of its account is stored. -/
theorem storesAt_insertL2Transaction {tx : L2Tx} {initialNonces : KeyedMap Address Nonce}
    (h : (m.entry initialNonces tx.initiatorAccount).nonce ≤ tx.nonce) :
    (m.insertL2Transaction tx initialNonces).StoresAt (tx.initiatorAccount, tx.nonce) := by
  refine ⟨_, tx, by rw [lookup_insertL2Transaction, if_pos rfl, if_neg h.not_gt], ?_⟩
  exact AList.lookup_insert _

theorem storesAt_insert {transactions : List Transaction} {initialNonces : KeyedMap Address Nonce}
    (hrun : m.insert transactions initialNonces = .ok m') {tx : L2Tx}
    (htx : tx.intoTransaction ∈ transactions)
    (h : (m.entry initialNonces tx.initiatorAccount).nonce ≤ tx.nonce) :
    m'.StoresAt (tx.initiatorAccount, tx.nonce) := by
  unfold MempoolStore.insert at hrun
  induction transactions generalizing m with
  | nil => cases htx
  | cons tx' transactions ih =>
    rw [List.foldlM_cons] at hrun
    obtain ⟨m₁, hone, hrest⟩ := Seq.bind_eq_ok.mp hrun
    rcases List.mem_cons.mp htx with rfl | htx
    · cases hone
      exact (storesAt_insertL2Transaction h).insert hrest
    · refine ih hrest htx ?_
      obtain ⟨commonData, execute, receivedTimestampMs⟩ := tx'
      cases commonData with
      | protocolUpgrade data => cases hone
      | l2 data =>
        cases hone
        rwa [nonce_entry_insertL2Transaction]

/-- Whatever is stored after insertions was stored before, or is one of the inserted. -/
theorem stores_of_insert {transactions : List Transaction} {initialNonces : KeyedMap Address Nonce}
    (hrun : m.insert transactions initialNonces = .ok m') {tx : L2Tx} (h : m'.Stores tx) :
    tx.intoTransaction ∈ transactions ∨ m.Stores tx := by
  refine insert_keeps initialNonces
    (fun m₁ => ∀ tx, m₁.Stores tx → tx.intoTransaction ∈ transactions ∨ m.Stores tx) ?_ hrun
    (fun _ h => .inr h) tx h
  intro m₁ tx' htx' hm₁ tx hstores
  rcases (insertL2Transaction_keeps initialNonces tx').2 hstores with rfl | hstores
  · exact .inl htx'
  · exact hm₁ tx hstores

theorem stores_of_rollback {tx : Transaction} (hrun : m.rollback tx = .ok m') {tx' : L2Tx}
    (h : m'.Stores tx') : m.Stores tx' := by
  obtain ⟨l2Tx, txs, rfl, htxs, hm'⟩ := rollback_accounts hrun
  obtain ⟨account, txs', nonce, htxs', htx'⟩ := h
  rw [hm', KeyedMap.lookup_insert_eq] at htxs'
  split_ifs at htxs'
  · obtain rfl := Option.some.inj htxs'
    exact ⟨_, txs, nonce, htxs, htx'⟩
  · exact ⟨account, txs', nonce, htxs', htx'⟩

theorem insert_isL2 {transactions : List Transaction} {initialNonces : KeyedMap Address Nonce}
    (hrun : m.insert transactions initialNonces = .ok m') {tx : Transaction}
    (htx : tx ∈ transactions) : ∃ l2Tx : L2Tx, tx = l2Tx.intoTransaction := by
  unfold MempoolStore.insert at hrun
  induction transactions generalizing m with
  | nil => cases htx
  | cons tx' transactions ih =>
    rw [List.foldlM_cons] at hrun
    obtain ⟨m₁, hone, hrest⟩ := Seq.bind_eq_ok.mp hrun
    rcases List.mem_cons.mp htx with rfl | htx
    · obtain ⟨commonData, execute, receivedTimestampMs⟩ := tx
      cases commonData with
      | protocolUpgrade data => cases hone
      | l2 data => exact ⟨⟨execute, data, receivedTimestampMs⟩, rfl⟩
    · exact ih hrest htx

end StoresAt

end MempoolStore

end OlaOs
