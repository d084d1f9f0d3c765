import OlaOs.Dal.TransactionTable
import OlaOs.Mempool.Concurrent
import OlaOs.Node.Held

/-! An executed transaction keeps its row: when its miniblock is sealed, the row with its initiator
and nonce gets its hash, the number of the miniblock and its index. -/
namespace OlaOs

open TransactionsDal MempoolStore

/-- What the two locks of a transaction leave to the mempool: a rejected one is gone from it. -/
def InHand.held : InHand → Held
  | .holding tx => .holding tx
  | .rolledBack tx => .rolledBack tx
  | .idle | .rejecting _ => .idle

namespace NodeState

/-- The mempool and the sequencer without the table. -/
def shared (s : NodeState) : Shared := ⟨s.mempool, s.inHand.held⟩

/-- The conditions on a step under which no row is lost: a submitted transaction carries its own
hash; a collection finds the mempool below its capacity, or finds pointers to the accounts of all
transactions that the sequencer has taken and not sealed; and the numbers fit the columns. -/
def KeepsRows (keyOf : KeyOf) (s : NodeState) : NodeAction → Prop
  | .submitTx tx => tx.Signed keyOf
  | .getMempoolInfo => ∀ tx ∈ s.heldOut,
      s.mempool.size < s.mempool.capacity ∨ s.mempool.isIndexed tx.initiatorAccount = true
  | .nextTransaction => ∀ account tx, s.mempool.ready account = some tx → tx.nonce ≠ maxNonce
  | .includeTx _ => ∀ tx nonce, s.inHand = .holding tx → tx.nonce = some nonce → nonce.val < 2 ^ 31
  | .submitMiniblock => s.miniblockNumber < 2 ^ 31 ∧ s.pending.length ≤ 2 ^ 31
  | _ => True

/-- A node that has just started, after `reset_mempool`. -/
structure IsStarted (keyOf : KeyOf) (s : NodeState) : Prop where
  table : ∃ table, TableInv keyOf table ∧ s.table = resetMempool table
  mempool : ∃ nextPriorityId capacity, s.mempool = .new nextPriorityId capacity
  fetcher : s.fetcher = .idle
  inHand : s.inHand = .idle
  executed : s.pending = [] ∧ s.sealing = []

variable {keyOf : KeyOf} {s s' : NodeState} {a : NodeAction}

/-- A step of the node is a call on the mempool, or leaves mempool and sequencer alone. -/
theorem Stepped.shared (h : Stepped s a s') (hkeeps : s.KeepsRows keyOf a) :
    s'.shared = s.shared ∨ ∃ c, Safe s.shared c ∧ call s.shared c = some s'.shared := by
  cases h with
  | submitTx hrun => exact .inl rfl
  | getMempoolInfo hfetcher =>
    refine .inr ⟨.getMempoolInfo, fun tx htx => hkeeps tx ?_, rfl⟩
    refine List.mem_append_right _ ?_
    cases hhand : s.inHand <;> rw [NodeState.shared, hhand] at htx <;> cases htx <;>
      exact List.mem_singleton_self _
  | releaseStashed hfetcher => exact .inl rfl
  | deletePurged hfetcher => exact .inl rfl
  | selectRows hfetcher hperm hrun => exact .inl rfl
  | readNonces hfetcher => exact .inl rfl
  | @insertSynced transactions nonces m hfetcher hrun =>
    refine .inr ⟨.insert transactions nonces, trivial, ?_⟩
    simp [call, NodeState.shared, hrun, Except.toOption]
  | nextTransaction hhand hrun =>
    refine .inr ⟨.nextTransaction, hkeeps, ?_⟩
    simp [call, NodeState.shared, hhand, hrun, InHand.held, Except.toOption]
  | noTransaction hhand hrun =>
    refine .inr ⟨.nextTransaction, hkeeps, ?_⟩
    simp [call, NodeState.shared, hhand, hrun, InHand.held, Except.toOption]
  | includeTx hhand hhash =>
    refine .inr ⟨.includeTx, trivial, ?_⟩
    simp [call, NodeState.shared, hhand, InHand.held]
  | rollback hhand hrun =>
    refine .inr ⟨.rollback, trivial, ?_⟩
    simp [call, NodeState.shared, hhand, hrun, InHand.held, Except.toOption]
  | reinsert hhand hrun =>
    refine .inr ⟨.reinsert, trivial, ?_⟩
    simp [call, NodeState.shared, hhand, hrun, InHand.held, Except.toOption]
  | rejectInMempool hhand hrun =>
    refine .inr ⟨.reject, trivial, ?_⟩
    simp [call, NodeState.shared, hhand, hrun, InHand.held, Except.toOption]
  | markRejected hhand hhash =>
    left
    simp [NodeState.shared, hhand, InHand.held]
  | submitMiniblock hhand => exact .inl rfl
  | sealMiniblock hsealing hrun => exact .inl rfl

theorem Stepped.sharedInv (h : Stepped s a s') (hkeeps : s.KeepsRows keyOf a)
    (hinv : SharedInv s.shared) : SharedInv s'.shared := by
  rcases h.shared hkeeps with heq | ⟨c, hsafe, hcall⟩
  · rwa [heq]
  · exact hinv.call hsafe hcall

/-- The transactions that the node knows of, outside the table. -/
def Mentions (s : NodeState) (tx : Transaction) : Prop :=
  (∃ l2Tx : L2Tx, tx = l2Tx.intoTransaction ∧ s.mempool.Stores l2Tx) ∨
    tx ∈ s.fetcher.transactions ∨ tx ∈ s.heldOut

/-- A transaction with its own hash and a row in the table. -/
def HasRow (keyOf : KeyOf) (table : List TransactionRow) (tx : Transaction) : Prop :=
  ∃ l2Tx : L2Tx, tx = l2Tx.intoTransaction ∧ l2Tx.Signed keyOf ∧
    columnKey l2Tx.key ∈ keys table

/-- A selected row gives a transaction with a row. -/
theorem hasRow_selected (htable : TableInv keyOf s.table) {scan : List TransactionRow} {limit : ℕ}
    {transactions : List Transaction} (hperm : scan.isPerm s.table = true)
    (hrun : (TransactionsDal.selectRows s.table (selectedHashes scan limit)).2.mapM
      TransactionsDal.rowToTransaction = .ok transactions) {tx : Transaction}
    (htx : tx ∈ transactions) : HasRow keyOf s.table tx := by
  obtain ⟨row', hrow', htoTx⟩ := (Seq.mem_mapM hrun).2 tx htx
  obtain ⟨row, hrow, rfl⟩ := List.mem_map.mp hrow'
  obtain ⟨hmem, hhash⟩ := List.mem_filter.mp hrow
  -- the row that was scanned with this hash is the row itself
  obtain ⟨found, hfound, hsame⟩ := List.mem_map.mp (List.contains_iff_mem.mp hhash)
  have hselected := List.mem_of_mem_take hfound
  rw [List.mem_insertionSort, List.mem_filter] at hselected
  have hselectable := hselected.2
  have hinTable : found ∈ s.table := (List.isPerm_iff.mp hperm).mem_iff.mp hselected.1
  have hformat : found.txFormat ≠ some TransactionType.protocolUpgradeTransaction.txFormat := by
    intro hupgrade
    simp [isSelectable, hupgrade] at hselectable
  have hkey : found.key ≠ none := fun hnone => hformat (htable.upgrade found hinTable hnone)
  obtain rfl := htable.eq_of_hash hinTable hmem hsame hkey
  obtain ⟨l2Tx, rfl, hhash', hkeyOf, hkey'⟩ := htable.rowToTransaction hmem hformat htoTx
  refine ⟨l2Tx, rfl, ?_, mem_keys.mpr ⟨found, hmem, hkey'⟩⟩
  intro hash hh
  rw [hhash'] at hh
  obtain rfl := Option.some.inj hh
  exact hkeyOf

/-- The account of an executed transaction stands behind it, and so does a transaction of the
account that the sequencer holds. -/
def Behind (s : NodeState) (tx : Transaction) : Prop :=
  ∃ l2Tx txs, tx = L2Tx.intoTransaction l2Tx ∧
    s.mempool.l2TransactionsPerAccount.lookup l2Tx.initiatorAccount = some txs ∧
    l2Tx.nonce < txs.nonce ∧
    ∀ held : L2Tx, s.inHand = .holding held.intoTransaction →
      held.initiatorAccount = l2Tx.initiatorAccount → l2Tx.nonce < held.nonce

/-- No initiator and nonce is executed twice. -/
def DistinctKeys (executed : List TransactionExecutionResult) : Prop :=
  executed.Pairwise fun e e' => (e.transaction.initiatorAccount, e.transaction.nonce) ≠
    (e'.transaction.initiatorAccount, e'.transaction.nonce)

/-- What holds of a node in every run in which no row is lost. -/
structure NodeInv (keyOf : KeyOf) (s : NodeState) : Prop where
  shared : SharedInv s.shared
  table : TableInv keyOf s.table
  known : ∀ tx, s.Mentions tx → HasRow keyOf s.table tx
  purged : ∀ account ∈ s.fetcher.purgedAccounts,
    s.mempool.l2TransactionsPerAccount.lookup account = none ∧
      ∀ tx ∈ s.heldOut, tx.initiatorAccount ≠ account
  behind : ∀ e ∈ s.executed, s.Behind e.transaction
  distinct : DistinctKeys s.executed
  results : ∀ e ∈ s.executed, e.transaction.hash = some e.hash ∧
    ∀ nonce, e.transaction.nonce = some nonce → nonce.val < 2 ^ 31
  numbers : ∀ command ∈ s.sealing, command.1 < 2 ^ 31 ∧ command.2.length ≤ 2 ^ 31

/-- The transaction that the sequencer holds, with its account right behind it. -/
theorem NodeInv.returned (h : NodeInv keyOf s) {tx : Transaction} (hhand : s.inHand = .holding tx) :
    s.mempool.Returned tx := by
  have hheld := h.shared.held
  rwa [NodeState.shared, hhand] at hheld

/-- Rolling back the transaction in hand leaves its account behind the executed ones. -/
theorem behind_rollback {tx : Transaction} {m : MempoolStore}
    (hhand : s.inHand = .holding tx) (hrun : s.mempool.rollback tx = .ok m) {l2Tx : L2Tx}
    (hbehind : s.Behind l2Tx.intoTransaction) {inHand : InHand}
    (hinHand : ∀ tx, inHand ≠ .holding tx) :
    Behind { s with mempool := m, inHand := inHand } l2Tx.intoTransaction := by
  obtain ⟨l2Tx', txs, heq, htxs, hlt, hheld⟩ := hbehind
  obtain ⟨held, txs', rfl, htxs', hm⟩ := rollback_accounts hrun
  by_cases haccount : l2Tx'.initiatorAccount = held.initiatorAccount
  · rw [haccount, htxs'] at htxs
    obtain rfl := Option.some.inj htxs
    refine ⟨l2Tx', { txs' with nonce := min txs'.nonce held.nonce }, heq, ?_, ?_, ?_⟩
    · show m.l2TransactionsPerAccount.lookup _ = _
      rw [hm, haccount]
      exact AList.lookup_insert _
    · exact lt_min hlt (hheld held hhand haccount.symm)
    · exact fun held hholding => absurd hholding (hinHand _)
  · refine ⟨l2Tx', txs, heq, ?_, hlt, fun held hholding => absurd hholding (hinHand _)⟩
    show m.l2TransactionsPerAccount.lookup _ = _
    rw [hm, KeyedMap.lookup_insert_eq, if_neg haccount, htxs]

theorem NodeInv.behind_step (h : NodeInv keyOf s) (hstep : Stepped s a s')
    (hkeeps : s.KeepsRows keyOf a) {e : TransactionExecutionResult} (he : e ∈ s.executed) :
    s'.Behind e.transaction := by
  obtain ⟨l2Tx, txs, heq, htxs, hlt, hheld⟩ := h.behind e he
  cases hstep with
  | getMempoolInfo hfetcher =>
    refine ⟨l2Tx, txs, heq, ?_, hlt, hheld⟩
    have hsafe := hkeeps e.transaction (mem_heldOut.mpr (.inl ⟨e, he, rfl⟩))
    rw [heq] at hsafe
    exact (lookup_getMempoolInfo_of_safe hsafe).trans htxs
  | insertSynced hfetcher hrun =>
    obtain ⟨txs', htxs', hnonce⟩ := insert_keeps_nonce _ _ hrun htxs
    exact ⟨l2Tx, txs', heq, htxs', hnonce ▸ hlt, hheld⟩
  | reinsert hhand hrun =>
    obtain ⟨txs', htxs', hnonce⟩ := insert_keeps_nonce _ _ hrun htxs
    exact ⟨l2Tx, txs', heq, htxs', hnonce ▸ hlt, by simp⟩
  | noTransaction hhand hrun =>
    obtain ⟨-, rfl⟩ | ⟨_, _, _, _, _, hnone, _⟩ := nextTransaction_accounts hrun
    · exact ⟨l2Tx, txs, heq, htxs, hlt, by simp⟩
    · cases hnone
  | @nextTransaction tx m hhand hrun =>
    obtain ⟨hnone, -⟩ | ⟨account, txs', taken, htxs', htaken, htx, hm⟩ :=
      nextTransaction_accounts hrun
    · cases hnone
    obtain rfl := Option.some.inj htx
    have hkeyed := h.shared.inv.keyed htxs'
    have hmax : txs'.nonce ≠ maxNonce := by
      rw [← hkeyed.nonce_eq htaken]
      refine hkeeps account taken ?_
      rw [ready, htxs']
      exact htaken
    by_cases haccount : l2Tx.initiatorAccount = account
    · rw [haccount, htxs'] at htxs
      obtain rfl := Option.some.inj htxs
      refine ⟨l2Tx, txs'.advance, heq, ?_, ?_, ?_⟩
      · show m.l2TransactionsPerAccount.lookup _ = _
        rw [hm, haccount]
        exact AList.lookup_insert _
      · exact hlt.trans (AccountTransactions.lt_add_one hmax)
      · rintro held hholding -
        have hsame : taken.intoTransaction = held.intoTransaction := InHand.holding.inj hholding
        have hnonce : some taken.nonce = some held.nonce := congrArg Transaction.nonce hsame
        rw [← Option.some.inj hnonce, hkeyed.nonce_eq htaken]
        exact hlt
    · refine ⟨l2Tx, txs, heq, ?_, hlt, ?_⟩
      · show m.l2TransactionsPerAccount.lookup _ = _
        rw [hm, KeyedMap.lookup_insert_eq, if_neg haccount, htxs]
      · intro held hholding hinitiator
        have hsame : taken.intoTransaction = held.intoTransaction := InHand.holding.inj hholding
        have htakenAccount : taken.initiatorAccount = held.initiatorAccount :=
          congrArg Transaction.initiatorAccount hsame
        rw [hkeyed.initiator htaken, hinitiator] at htakenAccount
        exact absurd htakenAccount.symm haccount
  | includeTx hhand hhash => exact ⟨l2Tx, txs, heq, htxs, hlt, by simp⟩
  | rollback hhand hrun =>
    rw [heq]
    exact behind_rollback hhand hrun ⟨l2Tx, txs, rfl, htxs, hlt, hheld⟩ (by simp)
  | rejectInMempool hhand hrun =>
    rw [heq]
    exact behind_rollback hhand hrun ⟨l2Tx, txs, rfl, htxs, hlt, hheld⟩ (by simp)
  | markRejected hhand hhash => exact ⟨l2Tx, txs, heq, htxs, hlt, by simp⟩
  | _ => exact ⟨l2Tx, txs, heq, htxs, hlt, hheld⟩

/-- The included transaction is behind its account, and behind nothing that was executed. -/
theorem NodeInv.behind_include (h : NodeInv keyOf s) {tx : Transaction}
    (hhand : s.inHand = .holding tx) (pending : List TransactionExecutionResult) :
    Behind { s with inHand := .idle, pending := pending } tx ∧
    ∀ e ∈ s.executed, (e.transaction.initiatorAccount, e.transaction.nonce) ≠
      (tx.initiatorAccount, tx.nonce) := by
  obtain ⟨held, txs, rfl, htxs, hnonce, hmax⟩ := h.returned hhand
  refine ⟨⟨held, txs, rfl, htxs, hnonce ▸ AccountTransactions.lt_add_one hmax, nofun⟩, ?_⟩
  intro e he hsame
  obtain ⟨l2Tx, txs', heq, -, -, hheld⟩ := h.behind e he
  rw [heq] at hsame
  obtain ⟨haccount, hnonces⟩ := Prod.mk.inj hsame
  have hlt := hheld held hhand haccount.symm
  exact absurd (Option.some.inj hnonces) hlt.ne

theorem NodeInv.executed_step (h : NodeInv keyOf s) (hstep : Stepped s a s')
    (hkeeps : s.KeepsRows keyOf a) :
    (∀ e ∈ s'.executed, s'.Behind e.transaction) ∧ DistinctKeys s'.executed ∧
    ∀ e ∈ s'.executed, e.transaction.hash = some e.hash ∧
      ∀ nonce, e.transaction.nonce = some nonce → nonce.val < 2 ^ 31 := by
  refine ⟨fun e he => ?_, ?_, fun e he => ?_⟩
  · rcases hstep.mem_executed he with hold | ⟨hhand, hhash, status, rfl⟩
    · exact h.behind_step hstep hkeeps hold
    · cases hstep with
      | includeTx hhand' hhash' => exact (h.behind_include hhand _).1
  · cases hstep with
    | @includeTx tx hash status hhand hhash =>
      unfold DistinctKeys executed
      rw [← List.append_assoc]
      refine List.pairwise_append.mpr ⟨h.distinct, List.pairwise_singleton .., ?_⟩
      intro e he e' he'
      rw [List.mem_singleton.mp he']
      exact (h.behind_include hhand []).2 e he
    | submitMiniblock hhand =>
      have hsame : s.sealing.flatMap Prod.snd ++ s.pending =
          (s.sealing ++ [(s.miniblockNumber, s.pending)]).flatMap Prod.snd ++ [] := by
        simp [List.flatMap_append]
      have hdistinct := h.distinct
      unfold DistinctKeys executed at hdistinct ⊢
      rwa [hsame] at hdistinct
    | sealMiniblock hsealing hrun =>
      have hdistinct := h.distinct
      unfold DistinctKeys executed at hdistinct ⊢
      rw [hsealing, List.flatMap_cons, List.append_assoc] at hdistinct
      exact (List.pairwise_append.mp hdistinct).2.1
    | _ => exact h.distinct
  · rcases hstep.mem_executed he with hold | ⟨hhand, hhash, status, rfl⟩
    · exact h.results e hold
    · exact ⟨hhash, fun nonce hnonce => hkeeps e.transaction nonce hhand hnonce⟩

theorem NodeInv.numbers_step (h : NodeInv keyOf s) (hstep : Stepped s a s')
    (hkeeps : s.KeepsRows keyOf a) :
    ∀ command ∈ s'.sealing, command.1 < 2 ^ 31 ∧ command.2.length ≤ 2 ^ 31 := by
  cases hstep with
  | submitMiniblock hhand =>
    intro command hcommand
    rcases List.mem_append.mp hcommand with hcommand | hcommand
    · exact h.numbers command hcommand
    · rw [List.mem_singleton.mp hcommand]
      exact hkeeps
  | sealMiniblock hsealing hrun =>
    intro command hcommand
    exact h.numbers command (hsealing ▸ List.mem_cons_of_mem _ hcommand)
  | _ => exact h.numbers

/-- A purged account does not come back before its rows are deleted. -/
theorem NodeInv.purged_step (h : NodeInv keyOf s) (hstep : Stepped s a s')
    (hkeeps : s.KeepsRows keyOf a) :
    ∀ account ∈ s'.fetcher.purgedAccounts,
      s'.mempool.l2TransactionsPerAccount.lookup account = none ∧
        ∀ tx ∈ s'.heldOut, tx.initiatorAccount ≠ account := by
  -- an account that is still purged, once its entry is known to be missing
  have hkeep {account : Address} (hold : account ∈ s.fetcher.purgedAccounts)
      (hnone : s'.mempool.l2TransactionsPerAccount.lookup account = none) :
      s'.mempool.l2TransactionsPerAccount.lookup account = none ∧
        ∀ tx ∈ s'.heldOut, tx.initiatorAccount ≠ account := by
    refine ⟨hnone, fun tx htx => ?_⟩
    rcases hstep.mem_heldOut htx with htx | ⟨l2Tx, rfl, account', txs, nonce, htxs, hl2⟩
    · exact (h.purged account hold).2 tx htx
    · intro hsame
      have haccount : l2Tx.initiatorAccount = account' := (h.shared.inv.keyed htxs).initiator hl2
      rw [← haccount, show l2Tx.initiatorAccount = account from hsame,
        (h.purged account hold).1] at htxs
      cases htxs
  have hinsertAccount {account account' : Address} (hold : account ∈ s.fetcher.purgedAccounts)
      {m : MempoolStore} {txs txs' : AccountTransactions}
      (htxs : s.mempool.l2TransactionsPerAccount.lookup account' = some txs)
      (hm : m.l2TransactionsPerAccount =
        s.mempool.l2TransactionsPerAccount.insert account' txs') :
      m.l2TransactionsPerAccount.lookup account = none := by
    rw [hm, KeyedMap.lookup_insert_eq, if_neg, (h.purged account hold).1]
    rintro rfl
    rw [(h.purged account hold).1] at htxs
    cases htxs
  have hnext {account : Address} (hold : account ∈ s.fetcher.purgedAccounts) {m : MempoolStore}
      {transaction : Option Transaction} (hrun : s.mempool.nextTransaction = .ok (transaction, m)) :
      m.l2TransactionsPerAccount.lookup account = none := by
    obtain ⟨-, rfl⟩ | ⟨account', txs, taken, htxs, -, -, hm⟩ := nextTransaction_accounts hrun
    · exact (h.purged account hold).1
    · exact hinsertAccount hold htxs hm
  have hrollback {account : Address} (hold : account ∈ s.fetcher.purgedAccounts) {m : MempoolStore}
      {tx : Transaction} (hrun : s.mempool.rollback tx = .ok m) :
      m.l2TransactionsPerAccount.lookup account = none := by
    obtain ⟨held, txs, rfl, htxs, hm⟩ := rollback_accounts hrun
    exact hinsertAccount hold htxs hm
  intro account haccount
  cases hstep with
  | getMempoolInfo hfetcher =>
    constructor
    · rw [lookup_getMempoolInfo]
      exact if_pos haccount
    · rintro tx htx rfl
      exact notMem_purgedAccounts (hkeeps tx htx) haccount
  | releaseStashed hfetcher =>
    refine h.purged account ?_
    rw [hfetcher]
    exact haccount
  | deletePurged hfetcher => cases haccount
  | selectRows hfetcher hperm hrun => cases haccount
  | readNonces hfetcher => cases haccount
  | insertSynced hfetcher hrun => cases haccount
  | nextTransaction hhand hrun => exact hkeep haccount (hnext haccount hrun)
  | noTransaction hhand hrun => exact hkeep haccount (hnext haccount hrun)
  | rollback hhand hrun => exact hkeep haccount (hrollback haccount hrun)
  | rejectInMempool hhand hrun => exact hkeep haccount (hrollback haccount hrun)
  | @reinsert tx m hhand hrun =>
    refine hkeep haccount ?_
    obtain ⟨l2Tx, rfl⟩ := insert_isL2 hrun (List.mem_singleton_self tx)
    cases hrun
    have hne := (h.purged account haccount).2 l2Tx.intoTransaction
      (mem_heldOut.mpr (.inr (by rw [hhand]; rfl)))
    rw [lookup_insertL2Transaction, if_neg (fun heq => hne heq.symm)]
    exact (h.purged account haccount).1
  | _ => exact hkeep haccount (h.purged account haccount).1

section Seal

variable {number : ℕ} {executed : List TransactionExecutionResult}
  {sealing : List (ℕ × List TransactionExecutionResult)}

theorem NodeInv.hasRow (h : NodeInv keyOf s) {e : TransactionExecutionResult}
    (he : e ∈ s.executed) : HasRow keyOf s.table e.transaction :=
  h.known _ (.inr (.inr (mem_heldOut.mpr (.inl ⟨e, he, rfl⟩))))

theorem NodeInv.allL2 (h : NodeInv keyOf s)
    (hsealing : s.sealing = (number, executed) :: sealing) : AllL2 executed := by
  intro e he
  obtain ⟨l2Tx, heq, -⟩ := h.hasRow (mem_executed_of_sealing hsealing he)
  exact ⟨l2Tx, heq⟩

/-- The row of an executed transaction has the columns of its initiator, nonce and hash. -/
theorem NodeInv.executedRow (h : NodeInv keyOf s) {e : TransactionExecutionResult}
    (he : e ∈ s.executed) {i : ℕ} {row : ExecutedRow}
    (hrow : TransactionsDal.executedRow i e = some row) :
    ∃ l2Tx : L2Tx, e.transaction = l2Tx.intoTransaction ∧
      (row.initiatorAddress, row.nonce) = columnKey l2Tx.key ∧ row.hash = e.hash ∧
      row.indexInBlock = asI32 i ∧ keyOf e.hash = some l2Tx.key ∧
      columnKey l2Tx.key ∈ keys s.table := by
  obtain ⟨l2Tx, heq, hsigned, hmem⟩ := h.hasRow he
  obtain ⟨hhash, hnonce⟩ := h.results e he
  rw [heq] at hhash hnonce
  obtain ⟨haddress, hcolumn, hrowHash, hindex⟩ := executedRow_l2 heq hrow
  refine ⟨l2Tx, heq, ?_, hrowHash, hindex, hsigned _ hhash, hmem⟩
  rw [haddress, hcolumn, asI32_of_lt (hnonce l2Tx.nonce rfl)]
  rfl

theorem NodeInv.mark (h : NodeInv keyOf s)
    (hsealing : s.sealing = (number, executed) :: sealing) :
    ∃ table', markTxsAsExecutedInMiniblock s.table number executed = .ok table' ∧
      TableInv keyOf table' ∧
      table' = s.table.map fun row =>
        (executedRows executed).foldl (markIfKey (number : ℤ)) row := by
  have hnumber := (h.numbers (number, executed) (hsealing ▸ List.mem_cons_self)).1
  have hhashes : ∀ row ∈ executedRows executed,
      (keyOf row.hash).map columnKey = some (row.initiatorAddress, row.nonce) := by
    intro row hrow
    obtain ⟨i, e, he, hrow⟩ := mem_executedRows.mp hrow
    obtain ⟨l2Tx, -, hkey, hhash, -, hkeyOf, -⟩ := h.executedRow
      (mem_executed_of_sealing hsealing (List.mem_of_getElem? he)) hrow
    rw [hkey, hhash, hkeyOf]
    rfl
  obtain ⟨table', hrun, htable⟩ := h.table.foldlM_markL2 hnumber hhashes
  refine ⟨table', ((h.allL2 hsealing).mark_eq number).trans hrun, htable, ?_⟩
  rw [foldlM_markL2_eq hrun, asI32_of_lt hnumber]

end Seal

/-- The table after a step, and the rows of the transactions that the node knows of. -/
theorem NodeInv.table_step (h : NodeInv keyOf s) (hstep : Stepped s a s')
    (hkeeps : s.KeepsRows keyOf a) :
    TableInv keyOf s'.table ∧
    ∀ tx, s.Mentions tx → HasRow keyOf s.table tx → HasRow keyOf s'.table tx := by
  -- every statement but the deletion keeps all keys
  have hgrow (hkeys : keys s.table ⊆ keys s'.table) :
      ∀ tx, s.Mentions tx → HasRow keyOf s.table tx → HasRow keyOf s'.table tx := by
    rintro tx - ⟨l2Tx, rfl, hsigned, hmem⟩
    exact ⟨l2Tx, rfl, hsigned, hkeys hmem⟩
  have hsame (hkeys : keys s'.table = keys s.table) := hgrow (hkeys ▸ List.Subset.refl _)
  cases hstep with
  | submitTx hrun =>
    obtain ⟨htable, hkeys⟩ := h.table.insertTransactionL2 hkeeps hrun
    exact ⟨htable, hgrow hkeys⟩
  | releaseStashed hfetcher =>
    refine ⟨h.table.map (key_ite fun _ => rfl) fun row _ => ?_, hsame (keys_releaseStashed _)⟩
    split_ifs <;> exact .inl ⟨rfl, rfl⟩
  | @deletePurged purgedAccounts hfetcher =>
    refine ⟨h.table.filter _, ?_⟩
    rintro tx hmentions ⟨l2Tx, rfl, hsigned, hmem⟩
    refine ⟨l2Tx, rfl, hsigned, ?_⟩
    have hkept : l2Tx.initiatorAccount ∉ purgedAccounts := by
      intro hpurged
      have hpurged' : l2Tx.initiatorAccount ∈ s.fetcher.purgedAccounts := by
        rw [hfetcher]
        exact hpurged
      rcases hmentions with ⟨stored, heq, account, txs, nonce, htxs, htx⟩ | hfetched | hheld
      · have haccount : l2Tx.initiatorAccount = account := by
          rw [← (h.shared.inv.keyed htxs).initiator htx]
          exact congrArg Transaction.initiatorAccount heq
        rw [← haccount, (h.purged _ hpurged').1] at htxs
        cases htxs
      · rw [hfetcher] at hfetched
        cases hfetched
      · exact (h.purged _ hpurged').2 _ hheld rfl
    obtain ⟨row, hrow, hkey⟩ := mem_keys.mp hmem
    refine mem_keys.mpr ⟨row, List.mem_filter.mpr ⟨hrow, ?_⟩, hkey⟩
    obtain ⟨nonce, -, heq⟩ := Option.map_eq_some_iff.mp hkey
    have haddress : row.initiatorAddress = l2Tx.initiatorAccount := congrArg Prod.fst heq
    simp [haddress, hkept]
  | selectRows hfetcher hperm hrun =>
    refine ⟨h.table.map (key_ite fun _ => rfl) fun row _ => ?_, hsame (keys_selectRows _)⟩
    split_ifs <;> exact .inl ⟨rfl, rfl⟩
  | markRejected hhand hhash =>
    refine ⟨h.table.map (fun row => ?_) fun row _ => ?_, hsame (keys_markTxAsRejected _ _)⟩
    · split_ifs <;> rfl
    · split_ifs <;> exact .inl ⟨rfl, rfl⟩
  | sealMiniblock hsealing hrun =>
    obtain ⟨table', hrun', htable, heq⟩ := h.mark hsealing
    rw [hrun] at hrun'
    obtain rfl := Except.ok.inj hrun'
    refine ⟨htable, hsame ?_⟩
    rw [heq]
    exact keys_map fun row => key_foldl_markIfKey ..
  | _ => exact ⟨h.table, hsame rfl⟩

theorem NodeInv.known_step (h : NodeInv keyOf s) (hstep : Stepped s a s')
    (hkeeps : s.KeepsRows keyOf a) : ∀ tx, s'.Mentions tx → HasRow keyOf s'.table tx := by
  obtain ⟨-, hrows⟩ := h.table_step hstep hkeeps
  have hold (tx : Transaction) (htx : s.Mentions tx) : HasRow keyOf s'.table tx :=
    hrows tx htx (h.known tx htx)
  rintro tx (⟨l2Tx, rfl, hstores⟩ | hfetched | hheld)
  · rcases hstep.stores hstores with hstores | hfetched | hheld
    · exact hold _ (.inl ⟨l2Tx, rfl, hstores⟩)
    · exact hold _ (.inr (.inl hfetched))
    · exact hold _ (.inr (.inr hheld))
  · cases hstep with
    | getMempoolInfo hfetcher => cases hfetched
    | releaseStashed hfetcher => cases hfetched
    | deletePurged hfetcher => cases hfetched
    | insertSynced hfetcher hrun => cases hfetched
    | selectRows hfetcher hperm hrun =>
      obtain ⟨l2Tx, rfl, hsigned, hmem⟩ := hasRow_selected h.table hperm hrun hfetched
      refine ⟨l2Tx, rfl, hsigned, ?_⟩
      dsimp only
      rwa [keys_selectRows]
    | readNonces hfetcher =>
      refine hold tx (.inr (.inl ?_))
      rw [hfetcher]
      exact hfetched
    | _ => exact hold tx (.inr (.inl hfetched))
  · rcases hstep.mem_heldOut hheld with hheld | ⟨l2Tx, rfl, hstores⟩
    · exact hold tx (.inr (.inr hheld))
    · exact hold _ (.inl ⟨l2Tx, rfl, hstores⟩)

theorem NodeInv.step (h : NodeInv keyOf s) (hkeeps : s.KeepsRows keyOf a)
    (hrun : s.step a = some s') : NodeInv keyOf s' := by
  have hstep := stepped_of_step hrun
  obtain ⟨hbehind, hdistinct, hresults⟩ := h.executed_step hstep hkeeps
  exact {
    shared := hstep.sharedInv hkeeps h.shared
    table := (h.table_step hstep hkeeps).1
    known := h.known_step hstep hkeeps
    purged := h.purged_step hstep hkeeps
    behind := hbehind
    distinct := hdistinct
    results := hresults
    numbers := h.numbers_step hstep hkeeps }

theorem IsStarted.nodeInv (h : IsStarted keyOf s) : NodeInv keyOf s := by
  obtain ⟨⟨table, htable, heq⟩, ⟨nextPriorityId, capacity, hmempool⟩, hfetcher, hhand, hpending,
    hsealing⟩ := h
  have hexecuted : s.executed = [] := by
    simp [NodeState.executed, hpending, hsealing]
  have hheld : s.heldOut = [] := by
    simp [heldOut, hexecuted, hhand, InHand.tx?]
  refine ⟨⟨?_, ?_⟩, heq ▸ htable.resetMempool, ?_, ?_, ?_, ?_, ?_, ?_⟩
  · show s.mempool.Inv
    rw [hmempool]
    exact inv_new nextPriorityId capacity
  · rw [NodeState.shared, hhand]
    trivial
  · rintro tx (⟨l2Tx, -, account, txs, nonce, htxs, -⟩ | hfetched | hmem)
    · rw [hmempool] at htxs
      cases htxs
    · rw [hfetcher] at hfetched
      cases hfetched
    · rw [hheld] at hmem
      cases hmem
  · simp [hfetcher, Fetcher.purgedAccounts]
  · simp [hexecuted]
  · rw [hexecuted]
    exact List.Pairwise.nil
  · simp [hexecuted]
  · simp [hsealing]

/-- The rows that a miniblock seals: each executed L2 transaction has one row for its initiator and
nonce, that row gets its hash, the number of the miniblock and its index, and all other rows
stay. -/
structure SealsRows (table table' : List TransactionRow) (number : ℕ)
    (executed : List TransactionExecutionResult) : Prop where
  marked : ∀ (i : ℕ) e data, executed[i]? = some e → e.transaction.commonData = .l2 data →
    ∃ (j : ℕ) (row row' : TransactionRow), table[j]? = some row ∧
      hasKey data.initiatorAddress data.nonce.val row = true ∧
      (∀ row₂ ∈ table, hasKey data.initiatorAddress data.nonce.val row₂ = true → row₂ = row) ∧
      table'[j]? = some row' ∧ row'.hash = e.hash ∧ row'.miniblockNumber = some (number : ℤ) ∧
      row'.indexInBlock = some (i : ℤ)
  others : ∀ (j : ℕ) row, table[j]? = some row →
    (∀ e ∈ executed, ∀ data, e.transaction.commonData = .l2 data →
      hasKey data.initiatorAddress data.nonce.val row = false) → table'[j]? = some row

theorem NodeInv.pairwise_executedRows (h : NodeInv keyOf s) {number : ℕ}
    {executed : List TransactionExecutionResult}
    {sealing : List (ℕ × List TransactionExecutionResult)}
    (hsealing : s.sealing = (number, executed) :: sealing) :
    (executedRows executed).Pairwise fun row row' =>
      (row.initiatorAddress, row.nonce) ≠ (row'.initiatorAddress, row'.nonce) := by
  have hdistinct : DistinctKeys executed := by
    have hall := h.distinct
    unfold DistinctKeys NodeState.executed at hall
    rw [hsealing, List.flatMap_cons, List.append_assoc] at hall
    exact (List.pairwise_append.mp hall).1
  have hindexed : (indexed executed).Pairwise fun e e' =>
      (e.2.transaction.initiatorAccount, e.2.transaction.nonce) ≠
        (e'.2.transaction.initiatorAccount, e'.2.transaction.nonce) := by
    have hsnd : (indexed executed).map Prod.snd = executed := by
      simp [indexed, List.map_map, Function.comp_def]
    unfold DistinctKeys at hdistinct
    rw [← hsnd, List.pairwise_map] at hdistinct
    exact hdistinct
  unfold executedRows
  refine List.pairwise_filterMap.mpr (hindexed.imp_of_mem ?_)
  rintro ⟨i, e⟩ ⟨i', e'⟩ he he' hne row hrow row' hrow' hsame
  have hmem {i : ℕ} {e : TransactionExecutionResult} (he : (i, e) ∈ indexed executed) :
      e ∈ s.executed := by
    obtain ⟨⟨e₁, i₁⟩, hzip, heq⟩ := List.mem_map.mp he
    cases heq
    exact mem_executed_of_sealing hsealing
      (List.mem_of_getElem? (List.mem_zipIdx_iff_getElem?.mp hzip))
  obtain ⟨l2Tx, heq, hkey, -⟩ := h.executedRow (hmem he) hrow
  obtain ⟨l2Tx', heq', hkey', -⟩ := h.executedRow (hmem he') hrow'
  rw [hkey, hkey'] at hsame
  obtain ⟨haddress, hnonce⟩ := Prod.mk.inj (columnKey_injective hsame)
  refine hne ?_
  show (e.transaction.initiatorAccount, e.transaction.nonce) =
    (e'.transaction.initiatorAccount, e'.transaction.nonce)
  rw [heq, heq']
  simp only [L2Tx.intoTransaction_initiatorAccount, L2Tx.intoTransaction_nonce, haddress, hnonce]

/-- In every run whose steps keep the rows, a miniblock is sealed into the rows of its
transactions. -/
theorem reaches_sealsRows (keyOf : KeyOf) (s : NodeState)
    (h : Transition.Reaches NodeState.step (KeepsRows keyOf) (IsStarted keyOf) s) (number : ℕ)
    (executed : List TransactionExecutionResult)
    (sealing : List (ℕ × List TransactionExecutionResult))
    (hsealing : s.sealing = (number, executed) :: sealing) :
    ∃ table', markTxsAsExecutedInMiniblock s.table number executed = .ok table' ∧
      SealsRows s.table table' number executed := by
  have hinv : NodeInv keyOf s := h.invariant (NodeInv keyOf) (fun _ hs => hs.nodeInv)
    fun _ _ _ hs hkeeps hrun => hs.step hkeeps hrun
  obtain ⟨table', hrun, -, htable'⟩ := hinv.mark hsealing
  refine ⟨table', hrun, ?_, ?_⟩
  · intro i e data he hdata
    have hmem := mem_executed_of_sealing hsealing (List.mem_of_getElem? he)
    obtain ⟨executedRow, hexecutedRow⟩ : ∃ row, TransactionsDal.executedRow i e = some row := by
      unfold TransactionsDal.executedRow
      rw [hdata]
      exact ⟨_, rfl⟩
    obtain ⟨l2Tx, heq, hcolumns, hhash, hindex, -, hkeys⟩ := hinv.executedRow hmem hexecutedRow
    have hkey : columnKey l2Tx.key = (data.initiatorAddress, (data.nonce.val : ℤ)) := by
      rw [heq] at hdata
      cases hdata
      rfl
    rw [hkey] at hcolumns hkeys
    obtain ⟨row, hrow, hrowKey⟩ := mem_keys.mp hkeys
    obtain ⟨j, hj⟩ := List.mem_iff_getElem?.mp hrow
    refine ⟨j, row, markRow number executedRow row, hj, hasKey_iff.mpr hrowKey, ?_, ?_, hhash, rfl,
      ?_⟩
    · intro row₂ hrow₂ hkey₂
      exact hinv.table.eq_of_key hrow₂ hrow (hasKey_iff.mp hkey₂) hrowKey
    · rw [htable', List.getElem?_map, hj, Option.map_some, foldl_markIfKey_of_mem
        (hinv.pairwise_executedRows hsealing) (mem_executedRows.mpr ⟨i, e, he, hexecutedRow⟩)
        (hrowKey.trans (congrArg some hcolumns.symm))]
    · show some executedRow.indexInBlock = _
      have hlength := (hinv.numbers (number, executed) (hsealing ▸ List.mem_cons_self)).2
      have hi : i < executed.length := (List.getElem?_eq_some_iff.mp he).1
      rw [hindex, asI32_of_lt (by simp only at hlength; omega)]
  · intro j row hj hnot
    rw [htable', List.getElem?_map, hj, Option.map_some]
    congr 1
    refine foldl_markIfKey_of_not fun executedRow hexecutedRow => ?_
    obtain ⟨i, e, he, hrow⟩ := mem_executedRows.mp hexecutedRow
    have he' := List.mem_of_getElem? he
    obtain ⟨l2Tx, heq, hcolumns, -⟩ :=
      hinv.executedRow (mem_executed_of_sealing hsealing he') hrow
    obtain ⟨haddress, hnonce⟩ := Prod.mk.inj hcolumns
    rw [haddress, hnonce]
    exact hnot e he' l2Tx.commonData (by rw [heq]; rfl)

def sampleKeyOf : KeyOf := fun hash => some (hash, 0)

theorem isStarted_sampleNode (capacity : ℕ) : IsStarted sampleKeyOf (sampleNode capacity) where
  table := ⟨[], ⟨fun _ h => absurd h List.not_mem_nil, List.nodup_nil,
    fun _ h => absurd h List.not_mem_nil⟩, rfl⟩
  mempool := ⟨0, capacity, rfl⟩
  fetcher := rfl
  inHand := rfl
  executed := ⟨rfl, rfl⟩

/-- A transaction is submitted, fetched, executed and sealed. -/
theorem reaches_sealsRows_sample : ∃ s e,
    Transition.Reaches NodeState.step (KeepsRows sampleKeyOf) (IsStarted sampleKeyOf) s ∧
    s.sealing = [(0, [e])] ∧ e.transaction = (sampleSubmitted .zero .zero 5).intoTransaction ∧
    ∃ table', markTxsAsExecutedInMiniblock s.table 0 [e] = .ok table' ∧
      SealsRows s.table table' 0 [e] := by
  have hsigned : (sampleSubmitted .zero .zero 5).Signed sampleKeyOf := by
    rintro hash ⟨⟩
    rfl
  have hsubmitted : Transition.Reaches NodeState.step (KeepsRows sampleKeyOf)
    (IsStarted sampleKeyOf)
      { sampleNode 10 with table := [sampleRow (sampleSubmitted .zero .zero 5)] } :=
    Transition.Reaches.next (.submitTx (sampleSubmitted .zero .zero 5))
      (.start (isStarted_sampleNode 10)) hsigned rfl
  have hinformed := hsubmitted.next NodeAction.getMempoolInfo (by
    intro tx htx
    exact absurd htx List.not_mem_nil) rfl
  have hreleased := hinformed.next NodeAction.releaseStashed (by trivial) rfl
  have hdeleted := hreleased.next NodeAction.deletePurged (by trivial) rfl
  have hselected := hdeleted.next
    (NodeAction.selectRows [sampleRow (sampleSubmitted .zero .zero 5)] 10) (by trivial) rfl
  have hsynced := hselected.next (NodeAction.readNonces ∅) (by trivial) rfl
  have hfetched := hsynced.next NodeAction.insertSynced (by trivial) rfl
  have hmempool := Run.insert_of_ne [(sampleSubmitted .zero .zero 5).intoTransaction] ∅
    (Run.getMempoolInfo (.new 0 10)) rfl (by decide)
  have hheld := hfetched.next NodeAction.nextTransaction (by
    intro account tx hready
    exact hmempool.runInv.noMaxNonce tx (stores_of_ready hready)) rfl
  have hincluded := hheld.next (NodeAction.includeTx .success) (by
    rintro tx nonce ⟨⟩ ⟨⟩
    decide) rfl
  have hsubmittedMiniblock := hincluded.next NodeAction.submitMiniblock (by
    show 0 < 2 ^ 31 ∧ 1 ≤ 2 ^ 31
    decide) rfl
  exact ⟨_, _, hsubmittedMiniblock, rfl, rfl,
    reaches_sealsRows sampleKeyOf _ hsubmittedMiniblock 0 _ [] rfl⟩

/-- At the capacity the account of an executed transaction is purged, the fetcher deletes its row,
and the sealed miniblock finds none. -/
theorem reaches_sealsRows_counterexample : ∃ s e,
    Transition.Reaches NodeState.step (fun _ _ => True) (IsStarted sampleKeyOf) s ∧
    s.sealing = [(0, [e])] ∧ e.transaction = (sampleSubmitted .zero .zero 5).intoTransaction ∧
    (∀ row ∈ s.table, hasKey .zero 0 row = false) ∧
    markTxsAsExecutedInMiniblock s.table 0 [e] = .ok s.table := by
  refine ⟨_, _, Transition.reaches_run
    (sampleFetch [sampleSubmitted .zero .zero 5, sampleSubmitted sampleAddress sampleAddress 9] ++
      [.nextTransaction, .includeTx .success, .getMempoolInfo, .releaseStashed, .deletePurged,
        .submitMiniblock]) (.start (isStarted_sampleNode 1)) (fun _ _ => trivial) rfl, rfl, rfl,
    ?_, rfl⟩
  decide

end NodeState

end OlaOs
