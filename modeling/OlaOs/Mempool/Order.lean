import OlaOs.Mempool.Accounts

/-! The order in which a mempool hands its transactions out, and that a rollback takes a handing
out back. -/
namespace OlaOs

namespace MempoolStore

/-- What the calls of a run did to the nonces of the accounts. -/
inductive Event where
  | handedOut (tx : Transaction)
  | rolledBack (tx : Transaction)
  | purged (accounts : List Address)

/-- The runs of the mempool with their events, the latest first. -/
inductive History : List Event → Option Transaction → MempoolStore → Prop where
  | new (nextPriorityId : U64) (capacity : ℕ) : History [] none (new nextPriorityId capacity)
  | insert {events : List Event} {last : Option Transaction} {m m' : MempoolStore}
      (transactions : List Transaction) (initialNonces : KeyedMap Address Nonce) :
      History events last m → m.insert transactions initialNonces = .ok m' → NoMaxNonce m' →
      History events last m'
  | nextTransaction {events : List Event} {last transaction : Option Transaction}
      {m m' : MempoolStore} : History events last m → m.nextTransaction = .ok (transaction, m') →
      History ((transaction.map Event.handedOut).toList ++ events) (transaction.or last) m'
  | getMempoolInfo {events : List Event} {last : Option Transaction} {m : MempoolStore} :
      History events last m →
      History (.purged m.getMempoolInfo.1.purgedAccounts :: events)
        (last.filter fun tx => !m.getMempoolInfo.1.purgedAccounts.contains tx.initiatorAccount)
        m.getMempoolInfo.2
  | rollback {events : List Event} {tx : Transaction} {m m' : MempoolStore} :
      History events (some tx) m → m.rollback tx = .ok m' →
      History (.rolledBack tx :: events) none m'

variable {m m' : MempoolStore} {last : Option Transaction} {events : List Event}

theorem History.run (h : History events last m) : Run last m := by
  induction h with
  | new nextPriorityId capacity => exact .new nextPriorityId capacity
  | insert transactions initialNonces _ hrun hmax ih =>
    exact ih.insert transactions initialNonces hrun hmax
  | nextTransaction _ hrun ih => exact ih.nextTransaction hrun
  | getMempoolInfo _ ih => exact ih.getMempoolInfo
  | rollback _ hrun ih => exact ih.rollback hrun

theorem Run.history (h : Run last m) : ∃ events, History events last m := by
  induction h with
  | new nextPriorityId capacity => exact ⟨_, .new nextPriorityId capacity⟩
  | insert transactions initialNonces _ hrun hmax ih =>
    obtain ⟨events, ih⟩ := ih
    exact ⟨_, ih.insert transactions initialNonces hrun hmax⟩
  | nextTransaction _ hrun ih =>
    obtain ⟨events, ih⟩ := ih
    exact ⟨_, ih.nextTransaction hrun⟩
  | getMempoolInfo _ ih =>
    obtain ⟨events, ih⟩ := ih
    exact ⟨_, ih.getMempoolInfo⟩
  | rollback _ hrun ih =>
    obtain ⟨events, ih⟩ := ih
    exact ⟨_, ih.rollback hrun⟩

section Least

theorem Inv.hasNext_iff (h : m.Inv) :
    m.hasNext = true ↔ ∃ tx m', m.nextTransaction = .ok (some tx, m') := by
  unfold hasNext
  cases hlast : m.l2PriorityQueue.last? with
  | none =>
    rw [nextTransaction_of_empty hlast]
    refine ⟨nofun, ?_⟩
    rintro ⟨tx, m', hnext⟩
    cases hnext
  | some p =>
    obtain ⟨txs, tx, -, -, hnext⟩ := h.nextTransaction_of_last hlast
    exact iff_of_true rfl ⟨_, _, hnext⟩

/-- The transaction handed out is ready, and its score is the greatest. -/
theorem Inv.nextTransaction_least (h : m.Inv) {transaction : Transaction}
    (hrun : m.nextTransaction = .ok (some transaction, m')) :
    ∃ tx, transaction = L2Tx.intoTransaction tx ∧ m.ready tx.initiatorAccount = some tx ∧
      ∀ account tx', m.ready account = some tx' →
        tx.receivedTimestampMs < tx'.receivedTimestampMs ∨
          tx.receivedTimestampMs = tx'.receivedTimestampMs ∧ account ≤ tx.initiatorAccount := by
  cases hlast : m.l2PriorityQueue.last? with
  | none =>
    rw [nextTransaction_of_empty hlast] at hrun
    cases hrun
  | some p =>
    obtain ⟨txs, tx, htxs, htx, hnext⟩ := h.nextTransaction_of_last hlast
    rw [hnext] at hrun
    cases hrun
    have haccount := (h.keyed htxs).initiator htx
    have hready : m.ready p.account = some tx := by rw [ready, htxs, Option.bind_some, htx]
    have hp : p = ⟨p.account, tx.receivedTimestampMs⟩ := by
      have hscore := (h.pointer p).mp (OrderedSet.last?_mem hlast)
      rw [← h.map_ready, hready] at hscore
      exact (Option.some.inj hscore).symm
    refine ⟨tx, rfl, haccount ▸ hready, fun account tx' hready' => ?_⟩
    have hmem : (⟨account, tx'.receivedTimestampMs⟩ : MempoolScore) ∈ m.l2PriorityQueue := by
      rw [h.pointer, ← h.map_ready, hready', Option.map_some]
    have hle := MempoolScore.le_iff.mp (OrderedSet.le_last? hlast hmem)
    rw [hp] at hle
    rwa [haccount]

end Least

section Nonces

/-- No event hands out another transaction of the account, or purges it. -/
structure Quiet (account : Address) (since : List Event) : Prop where
  notHandedOut : ∀ tx, .handedOut tx ∈ since → tx.initiatorAccount ≠ account
  notPurged : ∀ accounts, .purged accounts ∈ since → account ∉ accounts

theorem Quiet.of_cons {account : Address} {event : Event} {since : List Event}
    (h : Quiet account (event :: since)) : Quiet account since :=
  ⟨fun tx htx => h.notHandedOut tx (List.mem_cons_of_mem event htx),
    fun accounts haccounts => h.notPurged accounts (List.mem_cons_of_mem event haccounts)⟩

/-- Where the account of a transaction stands after the events since it was handed out. -/
structure Standing (tx : L2Tx) (since : List Event) (last : Option Transaction)
    (m : MempoolStore) : Prop where
  ne_maxNonce : tx.nonce ≠ maxNonce
  nonce : ∃ txs, m.l2TransactionsPerAccount.lookup tx.initiatorAccount = some txs ∧
    (.rolledBack tx.intoTransaction ∈ since → txs.nonce = tx.nonce) ∧
    (.rolledBack tx.intoTransaction ∉ since → txs.nonce = tx.nonce + 1)
  last_eq : ∀ tx', last = some tx' → tx'.initiatorAccount = tx.initiatorAccount →
    tx' = tx.intoTransaction ∧ .rolledBack tx.intoTransaction ∉ since

variable {tx : L2Tx} {since : List Event}

/-- A handing out for another account. -/
theorem Standing.nextTransaction (h : Standing tx since last m) (hinv : m.Inv)
    {transaction : Option Transaction}
    (hrun : m.nextTransaction = .ok (transaction, m'))
    (hother : ∀ tx', transaction = some tx' → tx'.initiatorAccount ≠ tx.initiatorAccount) :
    Standing tx ((transaction.map Event.handedOut).toList ++ since) (transaction.or last) m' := by
  obtain ⟨rfl, rfl⟩ | ⟨account, txs', tx', htxs', htx', rfl, hm'⟩ := nextTransaction_accounts hrun
  · exact h
  · obtain ⟨txs, htxs, hback, hahead⟩ := h.nonce
    have haccount : tx.initiatorAccount ≠ account := by
      rw [← (hinv.keyed htxs').initiator htx']
      exact (hother _ rfl).symm
    refine ⟨h.ne_maxNonce, ⟨txs, ?_, ?_, ?_⟩, ?_⟩
    · rw [hm', KeyedMap.lookup_insert_eq, if_neg haccount, htxs]
    · simpa using hback
    · simpa using hahead
    · rintro tx'' ⟨⟩ heq
      exact absurd heq (hother _ rfl)

theorem Standing.rollback {transaction : Transaction} (h : Standing tx since (some transaction) m)
    (hreturned : m.Returned transaction) (hrun : m.rollback transaction = .ok m') :
    Standing tx (.rolledBack transaction :: since) none m' := by
  obtain ⟨txs, htxs, hback, hahead⟩ := h.nonce
  obtain ⟨l2Tx, txs', rfl, htxs', hnonce', hmax⟩ := hreturned
  rw [rollback_eq htxs' hnonce' hmax] at hrun
  cases hrun
  refine ⟨h.ne_maxNonce, ?_, nofun⟩
  by_cases haccount : l2Tx.initiatorAccount = tx.initiatorAccount
  · obtain ⟨heq, -⟩ := h.last_eq _ rfl haccount
    obtain rfl := L2Tx.intoTransaction_injective heq
    refine ⟨{ txs' with nonce := l2Tx.nonce }, AList.lookup_insert _, fun _ => rfl, fun hnot => ?_⟩
    exact absurd List.mem_cons_self hnot
  · have hne : l2Tx.intoTransaction ≠ tx.intoTransaction :=
      fun heq => haccount (congrArg Transaction.initiatorAccount heq)
    refine ⟨txs, ?_, ?_, ?_⟩
    · rw [KeyedMap.lookup_insert_eq, if_neg (Ne.symm haccount), htxs]
    · simpa [hne.symm] using hback
    · simpa [hne.symm] using hahead

theorem Standing.getMempoolInfo (h : Standing tx since last m)
    (hkept : tx.initiatorAccount ∉ m.getMempoolInfo.1.purgedAccounts) :
    Standing tx (.purged m.getMempoolInfo.1.purgedAccounts :: since)
      (last.filter fun tx => !m.getMempoolInfo.1.purgedAccounts.contains tx.initiatorAccount)
      m.getMempoolInfo.2 := by
  obtain ⟨txs, htxs, hback, hahead⟩ := h.nonce
  refine ⟨h.ne_maxNonce, ⟨txs, ?_, ?_, ?_⟩, ?_⟩
  · rw [lookup_getMempoolInfo, if_neg hkept, htxs]
  · simpa using hback
  · simpa using hahead
  · intro tx' htx' heq
    simpa using h.last_eq tx' (Option.filter_eq_some_iff.mp htx').1 heq

theorem Standing.insert (h : Standing tx since last m) {transactions : List Transaction}
    {initialNonces : KeyedMap Address Nonce}
    (hrun : m.insert transactions initialNonces = .ok m') : Standing tx since last m' := by
  obtain ⟨txs, htxs, hback, hahead⟩ := h.nonce
  obtain ⟨txs', htxs', hnonce'⟩ := insert_keeps_nonce initialNonces _ hrun htxs
  refine ⟨h.ne_maxNonce, ⟨txs', htxs', ?_, ?_⟩, h.last_eq⟩
  · exact fun hmem => hnonce'.trans (hback hmem)
  · exact fun hmem => hnonce'.trans (hahead hmem)

/-- A transaction that was just handed out. -/
theorem RunInv.standing (h : RunInv last m)
    (hrun : m.nextTransaction = .ok (some tx.intoTransaction, m')) :
    Standing tx [] (some tx.intoTransaction) m' := by
  obtain ⟨l2Tx, txs, heq, htxs, hnonce, hmax⟩ := (h.nextTransaction hrun).returned _ rfl
  obtain rfl := L2Tx.intoTransaction_injective heq
  refine ⟨hmax, ⟨txs, htxs, nofun, fun _ => hnonce⟩, ?_⟩
  rintro tx' ⟨⟩ -
  exact ⟨rfl, List.not_mem_nil⟩

theorem History.standing {before : List Event}
    (h : History events last m)
    (hevents : events = since ++ .handedOut tx.intoTransaction :: before)
    (hquiet : Quiet tx.initiatorAccount since) : Standing tx since last m := by
  induction h generalizing since with
  | new => exact absurd hevents (by simp)
  | insert transactions initialNonces _ hrun _ ih => exact (ih hevents hquiet).insert hrun
  | @nextTransaction events last transaction m m' hhistory hrun ih =>
    have hinv := hhistory.run.runInv
    cases transaction with
    | none => exact (ih hevents hquiet).nextTransaction hinv.inv hrun nofun
    | some transaction =>
      cases since with
      | nil =>
        injection hevents with hevent
        injection hevent with heq
        subst heq
        exact hinv.standing hrun
      | cons event since =>
        injection hevents with hevent hrest
        subst hevent
        refine (ih hrest hquiet.of_cons).nextTransaction hinv.inv hrun ?_
        rintro tx' ⟨⟩
        exact hquiet.notHandedOut _ List.mem_cons_self
  | @getMempoolInfo events last m _ ih =>
    cases since with
    | nil =>
      injection hevents with hevent
      cases hevent
    | cons event since =>
      injection hevents with hevent hrest
      subst hevent
      exact (ih hrest hquiet.of_cons).getMempoolInfo (hquiet.notPurged _ List.mem_cons_self)
  | @rollback events transaction m m' hhistory hrun ih =>
    cases since with
    | nil =>
      injection hevents with hevent
      cases hevent
    | cons event since =>
      injection hevents with hevent hrest
      subst hevent
      exact (ih hrest hquiet.of_cons).rollback (hhistory.run.runInv.returned _ rfl) hrun

end Nonces

/-- In every state that a run reaches, a transaction is handed out if the queue has one; it is the
one received first of all that are at the nonce of their account, with the greatest address of a
tie; and its nonce follows the one handed out before for its account, or is that nonce again if
the transaction was rolled back. -/
theorem nextTransaction_order (last : Option Transaction) (m : MempoolStore) (h : Run last m) :
    (m.hasNext = true ↔ ∃ transaction m', m.nextTransaction = .ok (some transaction, m')) ∧
    ∀ transaction m', m.nextTransaction = .ok (some transaction, m') →
      ∃ tx, transaction = L2Tx.intoTransaction tx ∧ m.ready tx.initiatorAccount = some tx ∧
        (∀ account tx', m.ready account = some tx' →
          tx.receivedTimestampMs < tx'.receivedTimestampMs ∨
            tx.receivedTimestampMs = tx'.receivedTimestampMs ∧ account ≤ tx.initiatorAccount) ∧
        ∀ since previous before,
          History (since ++ .handedOut (L2Tx.intoTransaction previous) :: before) last m →
          previous.initiatorAccount = tx.initiatorAccount → Quiet tx.initiatorAccount since →
          (.rolledBack previous.intoTransaction ∈ since → tx.nonce = previous.nonce) ∧
          (.rolledBack previous.intoTransaction ∉ since →
            tx.nonce.val = previous.nonce.val + 1) := by
  have hinv := h.runInv.inv
  refine ⟨hinv.hasNext_iff, fun transaction m' hrun => ?_⟩
  obtain ⟨tx, rfl, hready, hleast⟩ := hinv.nextTransaction_least hrun
  refine ⟨tx, rfl, hready, hleast, fun since previous before hhistory haccount hquiet => ?_⟩
  obtain ⟨hmax, ⟨txs, htxs, hback, hahead⟩, -⟩ := hhistory.standing rfl (haccount ▸ hquiet)
  have hnonce : tx.nonce = txs.nonce := by
    rw [haccount] at htxs
    rw [ready, htxs, Option.bind_some] at hready
    exact (hinv.keyed htxs).nonce_eq hready
  refine ⟨fun hmem => hnonce.trans (hback hmem), fun hmem => ?_⟩
  rw [hnonce, hahead hmem, Fin.val_add_one_of_lt (Fin.lt_last_iff_ne_last.mpr hmax)]

/-- Two transactions of an account come in and the first is handed out: the second follows. -/
theorem nextTransaction_order_sample : ∃ last m, Run last m ∧ m.hasNext = true ∧
    ∃ tx m', m.nextTransaction = .ok (some (L2Tx.intoTransaction tx), m') ∧
      tx.nonce.val = (sampleTransaction 0 5).nonce.val + 1 := by
  have hstored := Run.insert_of_ne [(sampleTransaction 0 5).intoTransaction,
    (sampleTransaction 1 3).intoTransaction] ∅ (.new 0 10) rfl (by decide)
  have hstart := History.insert [(sampleTransaction 0 5).intoTransaction,
    (sampleTransaction 1 3).intoTransaction] ∅ (.new 0 10) rfl hstored.runInv.noMaxNonce
  have hfirst := History.nextTransaction hstart rfl
  obtain ⟨hnext, horder⟩ := nextTransaction_order _ _ hfirst.run
  obtain ⟨tx, heq, -, -, hnonce⟩ := horder (sampleTransaction 1 3).intoTransaction _ rfl
  obtain rfl := L2Tx.intoTransaction_injective heq
  exact ⟨_, _, hfirst.run, hnext.mpr ⟨_, _, rfl⟩, _, _, rfl,
    (hnonce [] (sampleTransaction 0 5) [] hfirst rfl ⟨nofun, nofun⟩).2 List.not_mem_nil⟩

/-- Two stores with the same contents; the entries of a map are in no order. -/
structure SameAs (m m' : MempoolStore) : Prop where
  nonces : ∀ account, (m.l2TransactionsPerAccount.lookup account).map AccountTransactions.nonce =
    (m'.l2TransactionsPerAccount.lookup account).map AccountTransactions.nonce
  transactions : ∀ account nonce,
    ((m.l2TransactionsPerAccount.lookup account).bind fun txs => txs.transactions.lookup nonce) =
      (m'.l2TransactionsPerAccount.lookup account).bind fun txs => txs.transactions.lookup nonce
  l2PriorityQueue : m.l2PriorityQueue = m'.l2PriorityQueue
  nextPriorityId : m.nextPriorityId = m'.nextPriorityId
  stashedAccounts : m.stashedAccounts = m'.stashedAccounts
  size : m.size = m'.size
  capacity : m.capacity = m'.capacity

/-- The queue is determined by the accounts. -/
theorem Inv.queue_eq (h : m.Inv) (h' : m'.Inv)
    (hscore : ∀ account, m.score account = m'.score account) :
    m.l2PriorityQueue = m'.l2PriorityQueue := by
  apply OrderedSet.ext_mem
  intro p
  rw [h.pointer, h'.pointer, hscore]

end MempoolStore

/-- `MempoolIO::rollback` (`sequencer/io/mempool.rs`): reset the nonces in the mempool, then insert
the transaction back. -/
def MempoolIO.rollback (mempool : MempoolStore) (tx : Transaction) :
    Except MempoolPanic MempoolStore := do
  let mempool ← mempool.rollback tx
  mempool.insert [tx] ∅

/-- A transaction that was taken out of its account and comes back. -/
theorem AccountTransactions.lookup_putBack {txs : AccountTransactions} {tx : L2Tx}
    (htx : txs.transactions.lookup txs.nonce = some tx) (nonce : Nonce) :
    (txs.advance.transactions.insert txs.nonce tx).lookup nonce =
      txs.transactions.lookup nonce := by
  rw [KeyedMap.lookup_insert_eq, advance, KeyedMap.lookup_erase_eq]
  split_ifs with heq
  · rw [heq, htx]
  · rfl

namespace MempoolStore

variable {m : MempoolStore} {last : Option Transaction}

/-- Inserting the transaction at the nonce of an account that does not store it. -/
theorem insertL2Transaction_putBack {tx : L2Tx} {transactions : KeyedMap Nonce L2Tx}
    (htxs : m.l2TransactionsPerAccount.lookup tx.initiatorAccount = some ⟨transactions, tx.nonce⟩)
    (hnone : transactions.lookup tx.nonce = none) :
    m.insertL2Transaction tx ∅ = { m with
      l2TransactionsPerAccount := m.l2TransactionsPerAccount.insert tx.initiatorAccount
        ⟨transactions.insert tx.nonce tx, tx.nonce⟩
      l2PriorityQueue := m.l2PriorityQueue.insert (AccountTransactions.scoreForTransaction tx)
      size := m.size + 1 } := by
  have hentry : m.entry ∅ tx.initiatorAccount = ⟨transactions, tx.nonce⟩ := by rw [entry, htxs]
  have hdata : tx.commonData.nonce = tx.nonce := rfl
  have hinsert : AccountTransactions.insert ⟨transactions, tx.nonce⟩ tx =
      (⟨some (AccountTransactions.scoreForTransaction tx), none, true⟩,
        ⟨transactions.insert tx.nonce tx, tx.nonce⟩) := by
    unfold AccountTransactions.insert
    rw [hdata]
    dsimp only
    rw [if_neg (lt_irrefl tx.nonce), if_pos rfl, hnone]
    rfl
  unfold insertL2Transaction
  simp only [hentry, hinsert, removeScore, insertScore, ↓reduceIte]

/-- What rolling back does while the account stands right behind the transaction: it is stored
again at the nonce of its account. -/
theorem Inv.rollback_putBack (h : m.Inv) {tx : L2Tx} {txs : AccountTransactions}
    (htxs : m.l2TransactionsPerAccount.lookup tx.initiatorAccount = some txs)
    (hnonce : txs.nonce = tx.nonce + 1) (hmax : tx.nonce ≠ maxNonce) :
    ∃ back, MempoolIO.rollback m tx.intoTransaction = .ok back ∧ back.Inv ∧
      (∀ account, back.l2TransactionsPerAccount.lookup account =
        if account = tx.initiatorAccount then some ⟨txs.transactions.insert tx.nonce tx, tx.nonce⟩
        else m.l2TransactionsPerAccount.lookup account) ∧
      back.size = m.size + 1 ∧ back.nextPriorityId = m.nextPriorityId ∧
      back.stashedAccounts = m.stashedAccounts ∧ back.capacity = m.capacity := by
  have hnone : txs.transactions.lookup tx.nonce = none := by
    cases hl : txs.transactions.lookup tx.nonce with
    | none => rfl
    | some tx' =>
      have hle := (h.keyed htxs).nonce_le hl
      rw [hnonce] at hle
      exact absurd hle (AccountTransactions.lt_add_one hmax).not_ge
  have hinv := (h.rollback htxs hnonce hmax).insertL2Transaction ∅ tx
  rw [insertL2Transaction_putBack (AList.lookup_insert _) hnone] at hinv
  refine ⟨_, ?_, hinv, fun account => ?_, rfl, rfl, rfl, rfl⟩
  · unfold MempoolIO.rollback
    rw [rollback_eq htxs hnonce hmax]
    exact congrArg Except.ok (insertL2Transaction_putBack (AList.lookup_insert _) hnone)
  · simp only [KeyedMap.lookup_insert_eq]
    split_ifs <;> rfl

/-- In every state that a run reaches with a transaction at the nonce of its account, handing a
transaction out and rolling it back right away restores the store. -/
theorem rollback_nextTransaction (last : Option Transaction) (m : MempoolStore) (h : Run last m)
    (hready : ∃ account, (m.ready account).isSome = true) :
    ∃ tx handed back, m.nextTransaction = .ok (some tx, handed) ∧
      MempoolIO.rollback handed tx = .ok back ∧ back.SameAs m := by
  obtain ⟨hinv, hmaxNonce, -⟩ := h.runInv
  obtain ⟨-, hempty⟩ | ⟨account, txs, tx, htxs, htx, hnext⟩ := hinv.nextTransaction_eq
  · obtain ⟨account, hready⟩ := hready
    obtain ⟨tx, htx⟩ := Option.isSome_iff_exists.mp hready
    refine absurd ((hinv.pointer ⟨account, tx.receivedTimestampMs⟩).mpr ?_) (hempty _)
    rw [← hinv.map_ready, htx, Option.map_some]
  have hkeyed := hinv.keyed htxs
  obtain rfl := hkeyed.initiator htx
  have hnonce : tx.nonce = txs.nonce := hkeyed.nonce_eq htx
  have hmax : tx.nonce ≠ maxNonce := hmaxNonce tx ⟨_, txs, txs.nonce, htxs, htx⟩
  have hsize := (AccountTransactions.len_advance htx).trans_le (hinv.len_le_size htxs)
  obtain ⟨back, hback, hinv', hlookup, hsize', hpriority, hstashed, hcapacity⟩ :=
    (hinv.advance htxs htx).rollback_putBack (AList.lookup_insert _)
      (congrArg (· + 1) hnonce.symm) hmax
  have haccount (account : Address) : back.l2TransactionsPerAccount.lookup account =
      if account = tx.initiatorAccount then
        some ⟨txs.advance.transactions.insert txs.nonce tx, txs.nonce⟩
      else m.l2TransactionsPerAccount.lookup account := by
    rw [hlookup, hnonce]
    split_ifs with heq
    · rfl
    · rw [KeyedMap.lookup_insert_eq, if_neg heq]
  have htransactions (account : Address) (nonce : Nonce) :
      ((back.l2TransactionsPerAccount.lookup account).bind fun txs =>
          txs.transactions.lookup nonce) =
        (m.l2TransactionsPerAccount.lookup account).bind fun txs =>
          txs.transactions.lookup nonce := by
    rw [haccount]
    split_ifs with heq
    · rw [heq, htxs, Option.bind_some, Option.bind_some, AccountTransactions.lookup_putBack htx]
    · rfl
  have hnonces (account : Address) :
      (back.l2TransactionsPerAccount.lookup account).map AccountTransactions.nonce =
        (m.l2TransactionsPerAccount.lookup account).map AccountTransactions.nonce := by
    rw [haccount]
    split_ifs with heq
    · rw [heq, htxs, Option.map_some, Option.map_some]
    · rfl
  have hscore (account : Address) : back.score account = m.score account := by
    rw [score, score, haccount]
    split_ifs with heq
    · rw [heq, htxs, Option.bind_some, Option.bind_some, AccountTransactions.score,
        AccountTransactions.lookup_putBack htx, AccountTransactions.score]
    · rfl
  refine ⟨_, _, back, hnext, hback, hnonces, htransactions, hinv'.queue_eq hinv hscore, hpriority,
    hstashed, ?_, hcapacity⟩
  rw [hsize']
  dsimp only
  omega

/-- Two transactions of an account with one time of arrival: the first is handed out and rolled
back. -/
theorem rollback_nextTransaction_sample : ∃ m tx handed back,
    m.nextTransaction = .ok (some tx, handed) ∧ MempoolIO.rollback handed tx = .ok back ∧
      back.SameAs m ∧ m.size = 2 := by
  have hstart := Run.insert_of_ne [(sampleTransaction 0 5).intoTransaction,
    (sampleTransaction 1 5).intoTransaction] ∅ (.new 0 10) rfl (by decide)
  obtain ⟨tx, handed, back, hnext, hback, hsame⟩ :=
    rollback_nextTransaction _ _ hstart ⟨.zero, by decide +kernel⟩
  exact ⟨_, tx, handed, back, hnext, hback, hsame, rfl⟩

end MempoolStore

end OlaOs
