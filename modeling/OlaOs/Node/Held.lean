import OlaOs.Mempool.Accounts
import OlaOs.Node.Rows

/-! Where the transactions of a node come from: what the sequencer has taken comes from the mempool,
and what the mempool stores comes from the fetcher or back from the sequencer. -/
namespace OlaOs

open TransactionsDal MempoolStore

/-- The transactions on their way into the mempool. -/
def Fetcher.transactions : Fetcher → List Transaction
  | .selected transactions | .synced transactions _ => transactions
  | _ => []

/-- The accounts whose rows the fetcher is about to delete. -/
def Fetcher.purgedAccounts : Fetcher → List Address
  | .informed _ purgedAccounts | .released purgedAccounts => purgedAccounts
  | _ => []

namespace NodeState

variable {s s' : NodeState} {a : NodeAction}

theorem mem_heldOut {tx : Transaction} :
    tx ∈ s.heldOut ↔ (∃ e ∈ s.executed, e.transaction = tx) ∨ s.inHand.tx? = some tx := by
  simp [heldOut, List.mem_append, List.mem_map]

theorem mem_executed_of_sealing {number : ℕ} {executed : List TransactionExecutionResult}
    {sealing : List (ℕ × List TransactionExecutionResult)}
    (hsealing : s.sealing = (number, executed) :: sealing)
    {e : TransactionExecutionResult} (he : e ∈ executed) : e ∈ s.executed := by
  unfold NodeState.executed
  rw [hsealing, List.flatMap_cons, List.append_assoc]
  exact List.mem_append_left _ he

/-- An executed transaction was executed before, or was in the sequencer's hands. -/
theorem Stepped.mem_executed (h : Stepped s a s') {e : TransactionExecutionResult}
    (he : e ∈ s'.executed) :
    e ∈ s.executed ∨ s.inHand = .holding e.transaction ∧ e.transaction.hash = some e.hash ∧
      ∃ status, a = .includeTx status := by
  cases h with
  | @includeTx tx hash status hhand hhash =>
    unfold executed at he
    rw [← List.append_assoc] at he
    rcases List.mem_append.mp he with he | he
    · exact .inl he
    · rw [List.mem_singleton.mp he]
      exact .inr ⟨hhand, hhash, status, rfl⟩
  | submitMiniblock hhand =>
    left
    simpa [executed, List.flatMap_append] using he
  | sealMiniblock hsealing hrun =>
    left
    simp only [executed, hsealing, List.flatMap_cons, List.append_assoc] at he ⊢
    exact List.mem_append_right _ he
  | _ => exact .inl he

/-- What the sequencer has taken came from the mempool. -/
theorem Stepped.mem_heldOut (h : Stepped s a s') {tx : Transaction} (htx : tx ∈ s'.heldOut) :
    tx ∈ s.heldOut ∨ ∃ l2Tx : L2Tx, tx = l2Tx.intoTransaction ∧ s.mempool.Stores l2Tx := by
  have hexecuted (he : ∃ e ∈ s'.executed, e.transaction = tx) : tx ∈ s.heldOut := by
    obtain ⟨e, he, rfl⟩ := he
    rcases h.mem_executed he with he | ⟨hhand, -, -⟩
    · exact NodeState.mem_heldOut.mpr (.inl ⟨e, he, rfl⟩)
    · refine NodeState.mem_heldOut.mpr (.inr ?_)
      rw [hhand]
      rfl
  rcases NodeState.mem_heldOut.mp htx with he | hhand'
  · exact .inl (hexecuted he)
  · cases h with
    | @nextTransaction tx' m hhand hrun =>
      right
      obtain rfl : tx' = tx := Option.some.inj hhand'
      obtain ⟨hnone, -⟩ | ⟨account, txs, l2Tx, htxs, hl2, heq, -⟩ := nextTransaction_accounts hrun
      · cases hnone
      · exact ⟨l2Tx, Option.some.inj heq, account, txs, txs.nonce, htxs, hl2⟩
    | rollback hhand hrun =>
      refine .inl (NodeState.mem_heldOut.mpr (.inr ?_))
      rw [hhand]
      exact hhand'
    | rejectInMempool hhand hrun =>
      refine .inl (NodeState.mem_heldOut.mpr (.inr ?_))
      rw [hhand]
      exact hhand'
    | noTransaction hhand hrun => cases hhand'
    | includeTx hhand hhash => cases hhand'
    | reinsert hhand hrun => cases hhand'
    | markRejected hhand hhash => cases hhand'
    | _ => exact .inl (NodeState.mem_heldOut.mpr (.inr hhand'))

/-- What the mempool stores it had, or the fetcher or the sequencer gave it. -/
theorem Stepped.stores (h : Stepped s a s') {tx : L2Tx} (htx : s'.mempool.Stores tx) :
    s.mempool.Stores tx ∨ tx.intoTransaction ∈ s.fetcher.transactions ∨
      tx.intoTransaction ∈ s.heldOut := by
  cases h with
  | getMempoolInfo hfetcher => exact .inl (stores_getMempoolInfo htx)
  | insertSynced hfetcher hrun =>
    rcases stores_of_insert hrun htx with hmem | hstores
    · refine .inr (.inl ?_)
      rw [hfetcher]
      exact hmem
    · exact .inl hstores
  | nextTransaction hhand hrun => exact .inl (stores_of_nextTransaction hrun htx)
  | noTransaction hhand hrun => exact .inl (stores_of_nextTransaction hrun htx)
  | rollback hhand hrun => exact .inl (stores_of_rollback hrun htx)
  | rejectInMempool hhand hrun => exact .inl (stores_of_rollback hrun htx)
  | reinsert hhand hrun =>
    rcases stores_of_insert hrun htx with hmem | hstores
    · refine .inr (.inr (NodeState.mem_heldOut.mpr (.inr ?_)))
      rw [hhand, List.mem_singleton.mp hmem]
      rfl
    · exact .inl hstores
  | _ => exact .inl htx

/-- A submitted transaction with nonce zero. -/
def sampleSubmitted (initiator : Address) (hash : H256) (receivedTimestampMs : U64) : L2Tx :=
  ⟨⟨.zero, [], none⟩, ⟨0, initiator, [], .olaRawTransaction, some ⟨hash, []⟩⟩,
    receivedTimestampMs⟩

/-- A node with an empty table. -/
def sampleNode (capacity : ℕ) : NodeState := ⟨[], .new 0 capacity, .idle, .idle, [], [], 0⟩

/-- The row of a submitted transaction. -/
def sampleRow (tx : L2Tx) : TransactionRow :=
  let hash := tx.hash.getD .zero
  writeTx (emptyRow hash tx) hash [] tx

/-- Transactions are submitted and fetched. -/
def sampleFetch (txs : List L2Tx) : List NodeAction :=
  txs.map .submitTx ++ [.getMempoolInfo, .releaseStashed, .deletePurged,
    .selectRows (txs.map sampleRow) 10, .readNonces ∅, .insertSynced]

end NodeState

end OlaOs
