import OlaOs.Node.System

/-! What a step of the node does, case by case, and what the statements on the `transactions` table
do to the initiators and nonces of its rows. -/
namespace OlaOs

open TransactionsDal

namespace NodeState

/-- The steps with their effects; `next_transaction` may find nothing. -/
inductive Stepped (s : NodeState) : NodeAction → NodeState → Prop where
  | submitTx {tx : L2Tx} {result : L2TxSubmissionResult} {table : List TransactionRow} :
      insertTransactionL2 s.table tx = .ok (result, table) →
      Stepped s (.submitTx tx) { s with table := table }
  | getMempoolInfo : s.fetcher = .idle →
      Stepped s .getMempoolInfo { s with
        mempool := s.mempool.getMempoolInfo.2
        fetcher := .informed s.mempool.getMempoolInfo.1.stashedAccounts
          s.mempool.getMempoolInfo.1.purgedAccounts }
  | releaseStashed {stashedAccounts purgedAccounts : List Address} :
      s.fetcher = .informed stashedAccounts purgedAccounts →
      Stepped s .releaseStashed { s with
        table := TransactionsDal.releaseStashed s.table stashedAccounts
        fetcher := .released purgedAccounts }
  | deletePurged {purgedAccounts : List Address} : s.fetcher = .released purgedAccounts →
      Stepped s .deletePurged { s with
        table := TransactionsDal.deletePurged s.table purgedAccounts
        fetcher := .deleted }
  | selectRows {scan : List TransactionRow} {limit : ℕ} {transactions : List Transaction} :
      s.fetcher = .deleted → scan.isPerm s.table = true →
      (TransactionsDal.selectRows s.table (selectedHashes scan limit)).2.mapM rowToTransaction =
        .ok transactions →
      Stepped s (.selectRows scan limit) { s with
        table := (TransactionsDal.selectRows s.table (selectedHashes scan limit)).1
        fetcher := .selected transactions }
  | readNonces {transactions : List Transaction} {nonces : KeyedMap Address Nonce} :
      s.fetcher = .selected transactions →
      Stepped s (.readNonces nonces) { s with fetcher := .synced transactions nonces }
  | insertSynced {transactions : List Transaction} {nonces : KeyedMap Address Nonce}
      {m : MempoolStore} : s.fetcher = .synced transactions nonces →
      s.mempool.insert transactions nonces = .ok m →
      Stepped s .insertSynced { s with mempool := m, fetcher := .idle }
  | nextTransaction {tx : Transaction} {m : MempoolStore} : s.inHand = .idle →
      s.mempool.nextTransaction = .ok (some tx, m) →
      Stepped s .nextTransaction { s with mempool := m, inHand := .holding tx }
  | noTransaction {m : MempoolStore} : s.inHand = .idle →
      s.mempool.nextTransaction = .ok (none, m) →
      Stepped s .nextTransaction { s with mempool := m, inHand := .idle }
  | includeTx {tx : Transaction} {hash : H256} {status : TxExecutionStatus} :
      s.inHand = .holding tx → tx.hash = some hash →
      Stepped s (.includeTx status) { s with
        inHand := .idle
        pending := s.pending ++ [⟨tx, hash, {}, status, none⟩] }
  | rollback {tx : Transaction} {m : MempoolStore} : s.inHand = .holding tx →
      s.mempool.rollback tx = .ok m →
      Stepped s .rollback { s with mempool := m, inHand := .rolledBack tx }
  | reinsert {tx : Transaction} {m : MempoolStore} : s.inHand = .rolledBack tx →
      s.mempool.insert [tx] ∅ = .ok m →
      Stepped s .reinsert { s with mempool := m, inHand := .idle }
  | rejectInMempool {tx : Transaction} {m : MempoolStore} : s.inHand = .holding tx →
      s.mempool.rollback tx = .ok m →
      Stepped s .rejectInMempool { s with mempool := m, inHand := .rejecting tx }
  | markRejected {tx : Transaction} {hash : H256} {error : String} : s.inHand = .rejecting tx →
      tx.hash = some hash →
      Stepped s (.markRejected error) { s with
        table := markTxAsRejected s.table hash ("rejected: " ++ error)
        inHand := .idle }
  | submitMiniblock : s.inHand = .idle →
      Stepped s .submitMiniblock { s with
        pending := []
        sealing := s.sealing ++ [(s.miniblockNumber, s.pending)]
        miniblockNumber := s.miniblockNumber + 1 }
  | sealMiniblock {number : ℕ} {executed : List TransactionExecutionResult}
      {sealing : List (ℕ × List TransactionExecutionResult)} {table : List TransactionRow} :
      s.sealing = (number, executed) :: sealing →
      markTxsAsExecutedInMiniblock s.table number executed = .ok table →
      Stepped s .sealMiniblock { s with table := table, sealing := sealing }

/-- Every step is one of these. -/
theorem stepped_of_step {s s' : NodeState} {a : NodeAction} (h : s.step a = some s') :
    Stepped s a s' := by
  cases a with
  | submitTx tx =>
    obtain ⟨⟨result, table⟩, hrun, rfl⟩ := Option.map_eq_some_iff.mp h
    exact .submitTx (Seq.toOption_eq_some.mp hrun)
  | getMempoolInfo =>
    dsimp only [step] at h
    split at h
    · cases h
      exact .getMempoolInfo ‹_›
    · cases h
  | releaseStashed =>
    dsimp only [step] at h
    split at h
    · cases h
      exact .releaseStashed ‹_›
    · cases h
  | deletePurged =>
    dsimp only [step] at h
    split at h
    · cases h
      exact .deletePurged ‹_›
    · cases h
  | selectRows scan limit =>
    dsimp only [step] at h
    split at h
    · split_ifs at h with hperm
      obtain ⟨transactions, hrun, rfl⟩ := Option.map_eq_some_iff.mp h
      exact .selectRows ‹_› hperm (Seq.toOption_eq_some.mp hrun)
    · cases h
  | readNonces nonces =>
    dsimp only [step] at h
    split at h
    · cases h
      exact .readNonces ‹_›
    · cases h
  | insertSynced =>
    dsimp only [step] at h
    split at h
    · obtain ⟨m, hrun, rfl⟩ := Option.map_eq_some_iff.mp h
      exact .insertSynced ‹_› (Seq.toOption_eq_some.mp hrun)
    · cases h
  | nextTransaction =>
    dsimp only [step] at h
    split at h
    · obtain ⟨⟨transaction, m⟩, hrun, rfl⟩ := Option.map_eq_some_iff.mp h
      cases transaction with
      | none => exact .noTransaction ‹_› (Seq.toOption_eq_some.mp hrun)
      | some tx => exact .nextTransaction ‹_› (Seq.toOption_eq_some.mp hrun)
    · cases h
  | includeTx status =>
    dsimp only [step] at h
    split at h
    · obtain ⟨hash, hhash, rfl⟩ := Option.map_eq_some_iff.mp h
      exact .includeTx ‹_› hhash
    · cases h
  | rollback =>
    dsimp only [step] at h
    split at h
    · obtain ⟨m, hrun, rfl⟩ := Option.map_eq_some_iff.mp h
      exact .rollback ‹_› (Seq.toOption_eq_some.mp hrun)
    · cases h
  | reinsert =>
    dsimp only [step] at h
    split at h
    · obtain ⟨m, hrun, rfl⟩ := Option.map_eq_some_iff.mp h
      exact .reinsert ‹_› (Seq.toOption_eq_some.mp hrun)
    · cases h
  | rejectInMempool =>
    dsimp only [step] at h
    split at h
    · obtain ⟨m, hrun, rfl⟩ := Option.map_eq_some_iff.mp h
      exact .rejectInMempool ‹_› (Seq.toOption_eq_some.mp hrun)
    · cases h
  | markRejected error =>
    dsimp only [step] at h
    split at h
    · obtain ⟨hash, hhash, rfl⟩ := Option.map_eq_some_iff.mp h
      exact .markRejected ‹_› hhash
    · cases h
  | submitMiniblock =>
    dsimp only [step] at h
    split at h
    · cases h
      exact .submitMiniblock ‹_›
    · cases h
  | sealMiniblock =>
    dsimp only [step] at h
    split at h
    · cases h
    · obtain ⟨table, hrun, rfl⟩ := Option.map_eq_some_iff.mp h
      exact .sealMiniblock ‹_› (Seq.toOption_eq_some.mp hrun)

end NodeState

end OlaOs
