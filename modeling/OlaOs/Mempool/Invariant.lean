import OlaOs.Lib.Seq
import OlaOs.Mempool.Store

/-! The representation invariant of the mempool: pointers, nonces and the size counter. -/
namespace OlaOs

/-- The pointer that an account has to have in the queue. -/
def AccountTransactions.score (txs : AccountTransactions) : Option MempoolScore :=
  (txs.transactions.lookup txs.nonce).map scoreForTransaction

/-- The transactions are stored under their initiator and nonce, none below the account nonce. -/
structure AccountTransactions.Keyed (txs : AccountTransactions) (account : Address) : Prop where
  initiator : ∀ {nonce tx}, txs.transactions.lookup nonce = some tx → tx.initiatorAccount = account
  nonce_eq : ∀ {nonce tx}, txs.transactions.lookup nonce = some tx → tx.nonce = nonce
  nonce_le : ∀ {nonce tx}, txs.transactions.lookup nonce = some tx → txs.nonce ≤ nonce

namespace MempoolStore

/-- The stored transaction at the account nonce. -/
def ready (m : MempoolStore) (account : Address) : Option L2Tx :=
  (m.l2TransactionsPerAccount.lookup account).bind fun txs => txs.transactions.lookup txs.nonce

/-- The number of stored transactions. -/
def stored (m : MempoolStore) : ℕ := m.l2TransactionsPerAccount.total AccountTransactions.len

/-- The pointer that an account has to have in the queue. -/
def score (m : MempoolStore) (account : Address) : Option MempoolScore :=
  (m.l2TransactionsPerAccount.lookup account).bind AccountTransactions.score

structure Inv (m : MempoolStore) : Prop where
  keyed : ∀ {account txs}, m.l2TransactionsPerAccount.lookup account = some txs → txs.Keyed account
  pointer : ∀ p, p ∈ m.l2PriorityQueue ↔ m.score p.account = some p
  size : m.size = m.stored

end MempoolStore

namespace AccountTransactions

variable {txs : AccountTransactions} {account : Address}

theorem keyed_new (nonce : Nonce) : (new nonce).Keyed account := by
  constructor <;> intro nonce' tx h <;> cases h

theorem Keyed.score_account (h : txs.Keyed account) {p : MempoolScore} (hp : txs.score = some p) :
    p.account = account := by
  obtain ⟨tx, htx, rfl⟩ := Option.map_eq_some_iff.mp hp
  exact h.initiator htx

theorem len_insert (txs : AccountTransactions) (nonce : Nonce) (tx : L2Tx) :
    len { txs with transactions := txs.transactions.insert nonce tx } =
      if (txs.transactions.lookup nonce).isNone then txs.len + 1 else txs.len := by
  have htotal := KeyedMap.total_insert (fun _ => 1) txs.transactions nonce tx
  unfold len
  cases hl : txs.transactions.lookup nonce with
  | none =>
    rw [hl] at htotal
    simpa using htotal
  | some old =>
    rw [hl] at htotal
    simpa using htotal

theorem Keyed.insert (h : txs.Keyed account) {tx : L2Tx} (hinit : tx.initiatorAccount = account)
    (hnonce : txs.nonce ≤ tx.nonce) :
    Keyed { txs with transactions := txs.transactions.insert tx.nonce tx } account := by
  have hlookup {nonce : Nonce} {tx' : L2Tx}
      (hl : (txs.transactions.insert tx.nonce tx).lookup nonce = some tx') :
      (nonce = tx.nonce ∧ tx' = tx) ∨ txs.transactions.lookup nonce = some tx' := by
    rw [KeyedMap.lookup_insert_eq] at hl
    split_ifs at hl with heq
    · exact .inl ⟨heq, (Option.some.inj hl).symm⟩
    · exact .inr hl
  constructor
  · intro nonce tx' hl
    obtain ⟨-, rfl⟩ | hold := hlookup hl
    · exact hinit
    · exact h.initiator hold
  · intro nonce tx' hl
    obtain ⟨rfl, rfl⟩ | hold := hlookup hl
    · rfl
    · exact h.nonce_eq hold
  · intro nonce tx' hl
    obtain ⟨rfl, rfl⟩ | hold := hlookup hl
    · exact hnonce
    · exact h.nonce_le hold

/-- An old transaction is dropped, any other is stored. -/
theorem insert_snd (txs : AccountTransactions) (tx : L2Tx) :
    (txs.insert tx).2 = if tx.nonce < txs.nonce then txs else
      { txs with transactions := txs.transactions.insert tx.nonce tx } := by
  have hnonce : tx.commonData.nonce = tx.nonce := rfl
  unfold insert
  rw [hnonce]
  dsimp only
  split_ifs <;> rfl

/-- The metadata of an insertion says how the pointer and the number of transactions change. -/
theorem insert_spec (h : txs.Keyed account) (tx : L2Tx) (hinit : tx.initiatorAccount = account) :
    (txs.insert tx).2.Keyed account ∧
    ((txs.insert tx).1.newScore = none ∧ (txs.insert tx).1.previousScore = none ∧
        (txs.insert tx).2.score = txs.score ∨
      (txs.insert tx).1.newScore = (txs.insert tx).2.score ∧
        (txs.insert tx).1.previousScore = txs.score ∧ (txs.insert tx).2.score.isSome = true) ∧
    (txs.insert tx).2.len = if (txs.insert tx).1.isNew then txs.len + 1 else txs.len := by
  have hnonce : tx.commonData.nonce = tx.nonce := rfl
  unfold insert
  rw [hnonce]
  by_cases hold : tx.nonce < txs.nonce
  · simp only [hold, ↓reduceIte]
    exact ⟨h, .inl ⟨trivial, trivial, trivial⟩, rfl⟩
  · have hkeyed := h.insert hinit (not_lt.mp hold)
    have hlen := txs.len_insert tx.nonce tx
    simp only [hold, ↓reduceIte]
    by_cases heq : tx.nonce = txs.nonce
    · simp only [heq, ↓reduceIte, Option.isNone_map] at hkeyed hlen ⊢
      refine ⟨hkeyed, .inr ⟨?_, by rw [score, heq], ?_⟩, hlen⟩ <;>
        simp only [score, KeyedMap.lookup_insert_eq, ↓reduceIte, Option.map_some,
          Option.isSome_some]
    · simp only [heq, ↓reduceIte, Option.isNone_map]
      refine ⟨hkeyed, .inl ⟨trivial, trivial, ?_⟩, hlen⟩
      simp only [score, KeyedMap.lookup_insert_eq, Ne.symm heq, ↓reduceIte]

end AccountTransactions

namespace MempoolStore

variable {m : MempoolStore}

theorem inv_new (nextPriorityId : U64) (capacity : ℕ) : Inv (new nextPriorityId capacity) where
  keyed h := by cases h
  pointer p := ⟨fun h => absurd h OrderedSet.notMem_empty, fun h => by cases h⟩
  size := rfl

/-- The rule for every change of one account: its pointer moves to the one it has to have, and
the counter follows the number of its transactions. -/
theorem Inv.setAccount (h : m.Inv) {account : Address} {txs : AccountTransactions}
    (hkeyed : txs.Keyed account) {queue : OrderedSet MempoolScore} {size : ℕ}
    (hother : ∀ p : MempoolScore, p.account ≠ account → (p ∈ queue ↔ p ∈ m.l2PriorityQueue))
    (hself : ∀ p : MempoolScore, p.account = account → (p ∈ queue ↔ txs.score = some p))
    (hsize : size +
        ((m.l2TransactionsPerAccount.lookup account).map AccountTransactions.len).getD 0 =
      m.size + txs.len) :
    Inv { m with
      l2TransactionsPerAccount := m.l2TransactionsPerAccount.insert account txs
      l2PriorityQueue := queue
      size := size } where
  keyed := by
    intro account' txs' hl
    rw [KeyedMap.lookup_insert_eq] at hl
    split_ifs at hl with heq
    · obtain rfl := Option.some.inj hl
      rwa [heq]
    · exact h.keyed hl
  pointer p := by
    unfold score
    rw [KeyedMap.lookup_insert_eq]
    split_ifs with heq
    · rw [hself p heq, Option.bind_some]
    · rw [hother p heq]
      exact h.pointer p
  size := by
    have htotal := KeyedMap.total_insert AccountTransactions.len m.l2TransactionsPerAccount account
      txs
    have hm : m.size = m.l2TransactionsPerAccount.total AccountTransactions.len := h.size
    show size = KeyedMap.total AccountTransactions.len
      (m.l2TransactionsPerAccount.insert account txs)
    omega

theorem Inv.score_account (h : m.Inv) {account : Address} {p : MempoolScore}
    (hp : m.score account = some p) : p.account = account := by
  obtain ⟨txs, htxs, hscore⟩ := Option.bind_eq_some_iff.mp hp
  exact (h.keyed htxs).score_account hscore

/-- The queue holds what the account has to have, and the rest. -/
theorem Inv.mem_queue_iff (h : m.Inv) {account : Address} {p : MempoolScore} :
    (m.score account = some p ∨ (m.score account ≠ some p ∧ p ∈ m.l2PriorityQueue)) ↔
      ((none : Option MempoolScore) = some p ∨ (none ≠ some p ∧ p ∈ m.l2PriorityQueue)) := by
  constructor
  · rintro (hscore | ⟨-, hmem⟩)
    · refine .inr ⟨nofun, (h.pointer p).mpr ?_⟩
      rwa [h.score_account hscore]
    · exact .inr ⟨nofun, hmem⟩
  · rintro (hnone | ⟨-, hmem⟩)
    · cases hnone
    · by_cases hscore : m.score account = some p
      · exact .inl hscore
      · exact .inr ⟨hscore, hmem⟩

/-- The queue without the pointer of an account, and then with its new pointer. -/
theorem Inv.mem_replacePointer (h : m.Inv) (account : Address) (queue : OrderedSet MempoolScore)
    {new : Option MempoolScore} (hnew : ∀ p, new = some p → p.account = account)
    (hqueue : ∀ p, p ∈ queue ↔ new = some p ∨ (m.score account ≠ some p ∧ p ∈ m.l2PriorityQueue)) :
    (∀ p : MempoolScore, p.account ≠ account → (p ∈ queue ↔ p ∈ m.l2PriorityQueue)) ∧
      ∀ p : MempoolScore, p.account = account → (p ∈ queue ↔ new = some p) := by
  constructor
  · intro p hp
    rw [hqueue]
    constructor
    · rintro (hn | ⟨-, hmem⟩)
      · exact absurd (hnew p hn) hp
      · exact hmem
    · intro hmem
      exact .inr ⟨fun hscore => hp (h.score_account hscore), hmem⟩
  · intro p hp
    rw [hqueue, h.pointer, hp]
    constructor
    · rintro (hn | ⟨hne, hscore⟩)
      · exact hn
      · exact absurd hscore hne
    · exact .inl

theorem mem_removeScore {queue : OrderedSet MempoolScore} {score : Option MempoolScore}
    {p : MempoolScore} : p ∈ removeScore queue score ↔ score ≠ some p ∧ p ∈ queue := by
  cases score with
  | none => simp [removeScore]
  | some q => simp [removeScore, eq_comm]

theorem mem_insertScore {queue : OrderedSet MempoolScore} {score : Option MempoolScore}
    {p : MempoolScore} : p ∈ insertScore queue score ↔ score = some p ∨ p ∈ queue := by
  cases score with
  | none => simp [insertScore]
  | some q => simp [insertScore, eq_comm]

/-- A transaction is stored under some account and nonce. -/
def Stores (m : MempoolStore) (tx : L2Tx) : Prop :=
  ∃ account txs nonce, m.l2TransactionsPerAccount.lookup account = some txs ∧
    txs.transactions.lookup nonce = some tx

section Insert

variable (initialNonces : KeyedMap Address Nonce) (account : Address)

theorem Inv.keyed_entry (h : m.Inv) : (m.entry initialNonces account).Keyed account := by
  unfold entry
  cases hl : m.l2TransactionsPerAccount.lookup account with
  | none => exact AccountTransactions.keyed_new _
  | some txs => exact h.keyed hl

theorem score_entry : (m.entry initialNonces account).score = m.score account := by
  unfold entry score
  cases m.l2TransactionsPerAccount.lookup account <;> rfl

theorem len_entry : (m.entry initialNonces account).len =
    ((m.l2TransactionsPerAccount.lookup account).map AccountTransactions.len).getD 0 := by
  unfold entry
  cases m.l2TransactionsPerAccount.lookup account <;> rfl

theorem Inv.insertL2Transaction (h : m.Inv) (tx : L2Tx) :
    Inv (m.insertL2Transaction tx initialNonces) := by
  obtain ⟨hkeyed, hscore, hlen⟩ := AccountTransactions.insert_spec
    (h.keyed_entry initialNonces tx.initiatorAccount) tx rfl
  have hscoreEntry := score_entry (m := m) initialNonces tx.initiatorAccount
  have hlenEntry := len_entry (m := m) initialNonces tx.initiatorAccount
  unfold MempoolStore.insertL2Transaction
  dsimp only
  generalize m.entry initialNonces tx.initiatorAccount = txs at *
  obtain ⟨hother, hself⟩ := h.mem_replacePointer tx.initiatorAccount
    (insertScore (removeScore m.l2PriorityQueue (txs.insert tx).1.previousScore)
      (txs.insert tx).1.newScore) (fun p hp => hkeyed.score_account hp) (by
    intro p
    rw [mem_insertScore, mem_removeScore]
    obtain ⟨hnew, hprevious, hsame⟩ | ⟨hnew, hprevious, -⟩ := hscore
    · rw [hnew, hprevious, hsame, hscoreEntry]
      exact h.mem_queue_iff.symm
    · rw [hnew, hprevious, hscoreEntry])
  refine h.setAccount hkeyed hother hself ?_
  rw [hlen, ← hlenEntry]
  split_ifs <;> omega

/-- An insertion keeps the nonces of the accounts, and stores nothing but its transaction. -/
theorem insertL2Transaction_keeps (tx : L2Tx) :
    (∀ {account txs}, m.l2TransactionsPerAccount.lookup account = some txs →
      ∃ txs', (m.insertL2Transaction tx initialNonces).l2TransactionsPerAccount.lookup account =
        some txs' ∧ txs'.nonce = txs.nonce) ∧
    ∀ {tx'}, (m.insertL2Transaction tx initialNonces).Stores tx' → tx' = tx ∨ m.Stores tx' := by
  have haccounts : (m.insertL2Transaction tx initialNonces).l2TransactionsPerAccount =
      m.l2TransactionsPerAccount.insert tx.initiatorAccount
        ((m.entry initialNonces tx.initiatorAccount).insert tx).2 := rfl
  constructor
  · intro account txs htxs
    rw [haccounts, KeyedMap.lookup_insert_eq]
    split_ifs with heq
    · refine ⟨_, rfl, ?_⟩
      subst heq
      rw [AccountTransactions.insert_snd, entry, htxs]
      split_ifs <;> rfl
    · exact ⟨txs, htxs, rfl⟩
  · rintro tx' ⟨account, txs, nonce, htxs, htx'⟩
    rw [haccounts, KeyedMap.lookup_insert_eq] at htxs
    split_ifs at htxs with heq
    · obtain rfl := Option.some.inj htxs
      rw [AccountTransactions.insert_snd] at htx'
      have hold : (m.entry initialNonces tx.initiatorAccount).transactions.lookup nonce = some tx' →
          m.Stores tx' := by
        intro hl
        unfold entry at hl
        cases htxs' : m.l2TransactionsPerAccount.lookup tx.initiatorAccount with
        | none =>
          rw [htxs'] at hl
          cases hl
        | some txs' =>
          rw [htxs'] at hl
          exact ⟨_, txs', nonce, htxs', hl⟩
      split_ifs at htx'
      · exact .inr (hold htx')
      · rw [KeyedMap.lookup_insert_eq] at htx'
        split_ifs at htx'
        · exact .inl (Option.some.inj htx').symm
        · exact .inr (hold htx')
    · exact .inr ⟨account, txs, nonce, htxs, htx'⟩

/-- The rule for the loop of `insert`. -/
theorem insert_keeps (inv : MempoolStore → Prop) {transactions : List Transaction}
    (hstep : ∀ m tx, tx.intoTransaction ∈ transactions → inv m →
      inv (m.insertL2Transaction tx initialNonces))
    {m' : MempoolStore} (hrun : m.insert transactions initialNonces = .ok m') (h : inv m) :
    inv m' := by
  unfold insert at hrun
  induction transactions generalizing m with
  | nil =>
    cases hrun
    exact h
  | cons tx transactions ih =>
    rw [List.foldlM_cons, Seq.bind_eq_ok] at hrun
    obtain ⟨m₁, hone, hrest⟩ := hrun
    refine ih (fun m tx' htx' => hstep m tx' (List.mem_cons_of_mem _ htx')) hrest ?_
    unfold insertOne at hone
    obtain ⟨commonData, execute, receivedTimestampMs⟩ := tx
    cases commonData with
    | l2 data =>
      cases hone
      exact hstep m ⟨execute, data, receivedTimestampMs⟩ List.mem_cons_self h
    | protocolUpgrade data => cases hone

/-- Insertions keep the nonces of the stored accounts. -/
theorem insert_keeps_nonce {transactions : List Transaction} {m' : MempoolStore}
    (hrun : m.insert transactions initialNonces = .ok m') {txs : AccountTransactions}
    (htxs : m.l2TransactionsPerAccount.lookup account = some txs) :
    ∃ txs', m'.l2TransactionsPerAccount.lookup account = some txs' ∧ txs'.nonce = txs.nonce := by
  refine insert_keeps initialNonces (fun m => ∃ txs',
    m.l2TransactionsPerAccount.lookup account = some txs' ∧ txs'.nonce = txs.nonce) ?_ hrun
    ⟨txs, htxs, rfl⟩
  rintro m tx - ⟨txs₁, htxs₁, hnonce₁⟩
  obtain ⟨txs₂, htxs₂, hnonce₂⟩ := (insertL2Transaction_keeps initialNonces tx).1 htxs₁
  exact ⟨txs₂, htxs₂, hnonce₂.trans hnonce₁⟩

end Insert

end MempoolStore

namespace AccountTransactions

/-- The account after its next transaction is handed out. -/
def advance (txs : AccountTransactions) : AccountTransactions :=
  ⟨txs.transactions.erase txs.nonce, txs.nonce + 1⟩

variable {txs : AccountTransactions} {account : Address} {tx : L2Tx}

theorem next_eq (htx : txs.transactions.lookup txs.nonce = some tx) :
    txs.next = .ok ((tx, txs.advance.score), txs.advance) := by
  unfold next
  rw [htx]
  rfl

theorem len_advance (htx : txs.transactions.lookup txs.nonce = some tx) :
    txs.advance.len + 1 = txs.len := by
  have htotal := KeyedMap.total_erase (fun _ => 1) txs.transactions txs.nonce
  rwa [htx] at htotal

theorem lookup_advance {nonce : Nonce} (h : txs.advance.transactions.lookup nonce = some tx) :
    nonce ≠ txs.nonce ∧ txs.transactions.lookup nonce = some tx := by
  rw [advance, KeyedMap.lookup_erase_eq] at h
  split_ifs at h with heq
  exact ⟨heq, h⟩

/-- The next nonce is greater, unless the last nonce of all is handed out. -/
theorem lt_add_one {nonce : Nonce} (h : nonce ≠ Fin.last _) : nonce < nonce + 1 := by
  have hval : nonce.val ≠ 2 ^ 32 - 1 := fun hval => h (Fin.ext hval)
  have hlt := nonce.isLt
  rw [Fin.lt_def, Fin.val_add_one_of_lt (Fin.lt_last_iff_ne_last.mpr h)]
  omega

theorem add_one_le {nonce nonce' : Nonce} (h : nonce < nonce') : nonce + 1 ≤ nonce' := by
  have hne : nonce ≠ Fin.last _ := (h.trans_le (Fin.le_last nonce')).ne
  rw [Fin.le_def, Fin.val_add_one_of_lt (Fin.lt_last_iff_ne_last.mpr hne)]
  exact h

theorem Keyed.advance (h : txs.Keyed account) : txs.advance.Keyed account where
  initiator hl := h.initiator (lookup_advance hl).2
  nonce_eq hl := h.nonce_eq (lookup_advance hl).2
  nonce_le hl := by
    obtain ⟨hne, hl⟩ := lookup_advance hl
    exact add_one_le (lt_of_le_of_ne (h.nonce_le hl) hne.symm)

end AccountTransactions

namespace MempoolStore

variable {m : MempoolStore}

theorem Inv.len_le_size (h : m.Inv) {account : Address} {txs : AccountTransactions}
    (htxs : m.l2TransactionsPerAccount.lookup account = some txs) : txs.len ≤ m.size := by
  have htotal := KeyedMap.total_erase AccountTransactions.len m.l2TransactionsPerAccount account
  have hsize : m.size = m.l2TransactionsPerAccount.total AccountTransactions.len := h.size
  rw [htxs] at htotal
  simp only [Option.map_some, Option.getD_some] at htotal
  omega

/-- A transaction is handed out from the nonce of its account, or there is none. -/
theorem nextTransaction_accounts {m' : MempoolStore} {transaction : Option Transaction}
    (h : m.nextTransaction = .ok (transaction, m')) :
    transaction = none ∧ m' = m ∨
    ∃ account txs tx, m.l2TransactionsPerAccount.lookup account = some txs ∧
      txs.transactions.lookup txs.nonce = some tx ∧ transaction = some tx.intoTransaction ∧
      m'.l2TransactionsPerAccount = m.l2TransactionsPerAccount.insert account txs.advance := by
  unfold nextTransaction at h
  cases hlast : m.l2PriorityQueue.last? with
  | none =>
    rw [hlast] at h
    cases h
    exact .inl ⟨rfl, rfl⟩
  | some p =>
    right
    obtain ⟨hrest, hfirst⟩ := OrderedSet.splitOff_last? hlast
    rw [hlast] at h
    simp only [hfirst, hrest, List.drop_succ_cons, List.drop_zero, List.foldlM_nil, bind,
      Except.bind, pure, Except.pure] at h
    cases htxs : m.l2TransactionsPerAccount.lookup p.account with
    | none =>
      simp only [htxs] at h
      cases h
    | some txs =>
      cases htx : txs.transactions.lookup txs.nonce with
      | none =>
        simp only [htxs, AccountTransactions.next, htx] at h
        cases h
      | some tx =>
        simp only [htxs, AccountTransactions.next_eq htx] at h
        split_ifs at h
        cases h
        exact ⟨p.account, txs, tx, htxs, htx, rfl, rfl⟩

/-- What handing out does on a queue with a first pointer: its account gives its transaction and
moves on. No panic is reached. -/
theorem Inv.nextTransaction_of_last (h : m.Inv) {p : MempoolScore}
    (hlast : m.l2PriorityQueue.last? = some p) :
    ∃ txs tx, m.l2TransactionsPerAccount.lookup p.account = some txs ∧
      txs.transactions.lookup txs.nonce = some tx ∧
      m.nextTransaction = .ok (some tx.intoTransaction,
        { m with
          l2TransactionsPerAccount := m.l2TransactionsPerAccount.insert p.account txs.advance
          l2PriorityQueue := insertScore (removeScore m.l2PriorityQueue (m.score p.account))
            txs.advance.score
          size := m.size - 1 }) := by
  have hp : m.score p.account = some p := (h.pointer p).mp (OrderedSet.last?_mem hlast)
  obtain ⟨txs, htxs, hscore⟩ := Option.bind_eq_some_iff.mp hp
  obtain ⟨tx, htx, -⟩ := Option.map_eq_some_iff.mp hscore
  refine ⟨txs, tx, htxs, htx, ?_⟩
  obtain ⟨hrest, hfirst⟩ := OrderedSet.splitOff_last? hlast
  have hsize := (AccountTransactions.len_advance htx).trans_le (h.len_le_size htxs)
  have hqueue : removeScore m.l2PriorityQueue (m.score p.account) = m.l2PriorityQueue.erase p := by
    rw [hp]
    rfl
  unfold nextTransaction
  rw [hlast]
  simp only [hfirst, hrest, List.drop_succ_cons, List.drop_zero, List.foldlM_nil]
  simp only [htxs, AccountTransactions.next_eq htx, hqueue, bind, Except.bind, pure, Except.pure]
  rw [if_neg (by omega)]

theorem nextTransaction_of_empty (h : m.l2PriorityQueue.last? = none) :
    m.nextTransaction = .ok (none, m) := by
  rw [nextTransaction, h]

/-- What handing out does: nothing on an empty queue; otherwise an account gives its transaction. -/
theorem Inv.nextTransaction_eq (h : m.Inv) :
    (m.nextTransaction = .ok (none, m) ∧ ∀ p, p ∉ m.l2PriorityQueue) ∨
    ∃ account txs tx, m.l2TransactionsPerAccount.lookup account = some txs ∧
      txs.transactions.lookup txs.nonce = some tx ∧
      m.nextTransaction = .ok (some tx.intoTransaction,
        { m with
          l2TransactionsPerAccount := m.l2TransactionsPerAccount.insert account txs.advance
          l2PriorityQueue := insertScore (removeScore m.l2PriorityQueue (m.score account))
            txs.advance.score
          size := m.size - 1 }) := by
  cases hlast : m.l2PriorityQueue.last? with
  | none => exact .inl ⟨nextTransaction_of_empty hlast, OrderedSet.last?_eq_none.mp hlast⟩
  | some p => exact .inr ⟨p.account, h.nextTransaction_of_last hlast⟩

/-- Replacing the pointer and the transactions of a stored account. -/
theorem Inv.replaceAccount (h : m.Inv) {account : Address} {txs : AccountTransactions}
    (htxs : m.l2TransactionsPerAccount.lookup account = some txs) (txs' : AccountTransactions)
    (size : ℕ) (hkeyed : txs'.Keyed account) (hsize : size + txs.len = m.size + txs'.len) :
    Inv { m with
      l2TransactionsPerAccount := m.l2TransactionsPerAccount.insert account txs'
      l2PriorityQueue := insertScore (removeScore m.l2PriorityQueue (m.score account)) txs'.score
      size := size } := by
  obtain ⟨hother, hself⟩ := h.mem_replacePointer account
    (insertScore (removeScore m.l2PriorityQueue (m.score account)) txs'.score)
    (fun p hp => hkeyed.score_account hp) (fun p => by rw [mem_insertScore, mem_removeScore])
  refine h.setAccount hkeyed hother hself ?_
  rw [htxs, Option.map_some, Option.getD_some]
  exact hsize

theorem Inv.advance (h : m.Inv) {account : Address} {txs : AccountTransactions} {tx : L2Tx}
    (htxs : m.l2TransactionsPerAccount.lookup account = some txs)
    (htx : txs.transactions.lookup txs.nonce = some tx) :
    Inv { m with
      l2TransactionsPerAccount := m.l2TransactionsPerAccount.insert account txs.advance
      l2PriorityQueue := insertScore (removeScore m.l2PriorityQueue (m.score account))
        txs.advance.score
      size := m.size - 1 } := by
  have hlen := AccountTransactions.len_advance htx
  have hle := h.len_le_size htxs
  exact h.replaceAccount htxs _ _ (h.keyed htxs).advance (by omega)

/-- What a rollback of a transaction does while its account stands right behind it: the account
goes back to the nonce of the transaction and has no pointer. -/
theorem rollback_eq {tx : L2Tx} {txs : AccountTransactions}
    (htxs : m.l2TransactionsPerAccount.lookup tx.initiatorAccount = some txs)
    (hnonce : txs.nonce = tx.nonce + 1) (hmax : tx.nonce ≠ Fin.last _) :
    m.rollback tx.intoTransaction = .ok { m with
      l2TransactionsPerAccount := m.l2TransactionsPerAccount.insert tx.initiatorAccount
        { txs with nonce := tx.nonce }
      l2PriorityQueue := removeScore m.l2PriorityQueue (m.score tx.initiatorAccount) } := by
  have hlt : tx.nonce < txs.nonce := hnonce ▸ AccountTransactions.lt_add_one hmax
  have hscore : m.score tx.initiatorAccount =
      (txs.transactions.lookup (tx.nonce + 1)).map AccountTransactions.scoreForTransaction := by
    rw [score, htxs, Option.bind_some, AccountTransactions.score, hnonce]
  have hreset : txs.reset tx.intoTransaction =
      .ok (m.score tx.initiatorAccount, { txs with nonce := tx.nonce }) := by
    rw [hscore, AccountTransactions.reset]
    simp only [L2Tx.intoTransaction_nonce, min_eq_right hlt.le]
  unfold MempoolStore.rollback
  simp only [L2Tx.intoTransaction_commonData, L2Tx.intoTransaction_initiatorAccount, htxs, hreset,
    bind, Except.bind]

theorem Inv.rollback (h : m.Inv) {tx : L2Tx} {txs : AccountTransactions}
    (htxs : m.l2TransactionsPerAccount.lookup tx.initiatorAccount = some txs)
    (hnonce : txs.nonce = tx.nonce + 1) (hmax : tx.nonce ≠ Fin.last _) :
    Inv { m with
      l2TransactionsPerAccount := m.l2TransactionsPerAccount.insert tx.initiatorAccount
        { txs with nonce := tx.nonce }
      l2PriorityQueue := removeScore m.l2PriorityQueue (m.score tx.initiatorAccount) } := by
  have hlt : tx.nonce < txs.nonce := hnonce ▸ AccountTransactions.lt_add_one hmax
  have hkeyed := h.keyed htxs
  have hnone : txs.transactions.lookup tx.nonce = none := by
    cases hl : txs.transactions.lookup tx.nonce with
    | none => rfl
    | some tx' => exact absurd (hkeyed.nonce_le hl) hlt.not_ge
  have hscore : AccountTransactions.score { txs with nonce := tx.nonce } = none := by
    rw [AccountTransactions.score, hnone]
    rfl
  have hinv := h.replaceAccount htxs { txs with nonce := tx.nonce } m.size
    ⟨hkeyed.initiator, hkeyed.nonce_eq, fun hl => hlt.le.trans (hkeyed.nonce_le hl)⟩ rfl
  rw [hscore] at hinv
  exact hinv

theorem isIndexed_iff {account : Address} :
    m.isIndexed account = true ↔ ∃ p ∈ m.l2PriorityQueue, p.account = account := by
  rw [isIndexed, List.contains_iff_mem, List.mem_map]
  exact Iff.rfl

theorem mem_purged {account : Address} :
    account ∈ m.gc.1 ↔ m.size ≥ m.capacity ∧ m.isIndexed account = false ∧
      (m.l2TransactionsPerAccount.lookup account).isSome = true := by
  unfold gc
  split_ifs with hfull
  · simp only [hfull, true_and, List.mem_map, Prod.exists, exists_and_right, exists_eq_right,
      KeyedMap.mem_toList, KeyedMap.lookup_filterKeys, Option.isSome_iff_exists]
    cases m.isIndexed account <;> simp
  · simp only [hfull, false_and, List.not_mem_nil]

/-- What a collection does: accounts without a pointer are dropped, the others stay. -/
theorem lookup_gc (account : Address) :
    m.gc.2.l2TransactionsPerAccount.lookup account =
      if account ∈ m.gc.1 then none else m.l2TransactionsPerAccount.lookup account := by
  simp only [mem_purged]
  unfold gc
  split_ifs with hfull hpurged hpurged
  · simp [KeyedMap.lookup_filterKeys, hpurged.2.1]
  · rw [KeyedMap.lookup_filterKeys]
    split_ifs with hindexed
    · rfl
    · cases hl : m.l2TransactionsPerAccount.lookup account with
      | none => rfl
      | some txs => exact absurd ⟨hfull, by simpa using hindexed, by simp [hl]⟩ hpurged
  · exact absurd hpurged.1 hfull
  · rfl

theorem Inv.gc (h : m.Inv) : Inv m.gc.2 := by
  have hqueue : m.gc.2.l2PriorityQueue = m.l2PriorityQueue := by
    unfold MempoolStore.gc
    split_ifs <;> rfl
  refine ⟨?_, ?_, ?_⟩
  · intro account txs hl
    rw [lookup_gc] at hl
    split_ifs at hl
    exact h.keyed hl
  · intro p
    rw [hqueue, h.pointer, score, score, lookup_gc]
    split_ifs with hpurged
    · -- a dropped account has no pointer
      refine ⟨fun hscore => ?_, fun hscore => by cases hscore⟩
      have hindexed := isIndexed_iff.mpr ⟨p, (h.pointer p).mpr hscore, rfl⟩
      rw [(mem_purged.mp hpurged).2.1] at hindexed
      cases hindexed
    · exact Iff.rfl
  · unfold MempoolStore.gc
    split_ifs
    · rfl
    · exact h.size

theorem lookup_getMempoolInfo (account : Address) :
    m.getMempoolInfo.2.l2TransactionsPerAccount.lookup account =
      if account ∈ m.getMempoolInfo.1.purgedAccounts then none
      else m.l2TransactionsPerAccount.lookup account :=
  lookup_gc (m := { m with stashedAccounts := [] }) account

theorem Inv.getMempoolInfo (h : m.Inv) : Inv m.getMempoolInfo.2 :=
  gc (m := { m with stashedAccounts := [] }) ⟨h.keyed, h.pointer, h.size⟩

theorem stores_getMempoolInfo {tx : L2Tx} (h : m.getMempoolInfo.2.Stores tx) : m.Stores tx := by
  obtain ⟨account, txs, nonce, htxs, htx⟩ := h
  rw [lookup_getMempoolInfo] at htxs
  split_ifs at htxs
  exact ⟨account, txs, nonce, htxs, htx⟩

end MempoolStore

end OlaOs
