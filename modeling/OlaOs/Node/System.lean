import OlaOs.Dal.Transactions
import OlaOs.Lib.Seq
import OlaOs.Lib.Transition
import OlaOs.Mempool.Run

/-! The API servers, the mempool fetcher and the sequencer around the `transactions` table and the
mempool. Every statement and every call under the lock of the mempool is a step of its own. -/
namespace OlaOs

open TransactionsDal

/-- Where an iteration of `MempoolFetcher::run` stands. -/
inductive Fetcher where
  | idle
  | informed (stashedAccounts purgedAccounts : List Address)
  | released (purgedAccounts : List Address)
  | deleted
  | selected (transactions : List Transaction)
  | synced (transactions : List Transaction) (nonces : KeyedMap Address Nonce)

/-- What the sequencer does with a transaction: it executes it, rolls it back between the two calls
of `MempoolIO::rollback`, or rejects it between the two halves of `MempoolIO::reject`. -/
inductive InHand where
  | idle
  | holding (tx : Transaction)
  | rolledBack (tx : Transaction)
  | rejecting (tx : Transaction)

/-- The transaction in the sequencer's hands. -/
def InHand.tx? : InHand → Option Transaction
  | .idle => none
  | .holding tx | .rolledBack tx | .rejecting tx => some tx

structure NodeState where
  table : List TransactionRow
  mempool : MempoolStore
  fetcher : Fetcher
  inHand : InHand
  /-- The executed transactions of the open miniblock. -/
  pending : List TransactionExecutionResult
  /-- The commands in the queue of the miniblock sealer. -/
  sealing : List (ℕ × List TransactionExecutionResult)
  miniblockNumber : ℕ

inductive NodeAction where
  | submitTx (tx : L2Tx)
  | getMempoolInfo
  | releaseStashed
  | deletePurged
  | selectRows (scan : List TransactionRow) (limit : ℕ)
  | readNonces (nonces : KeyedMap Address Nonce)
  | insertSynced
  | nextTransaction
  | includeTx (status : TxExecutionStatus)
  | rollback
  | reinsert
  | rejectInMempool
  | markRejected (error : String)
  | submitMiniblock
  | sealMiniblock

namespace NodeState

/-- The result of a synced selection: the rows that enter the mempool, as transactions. -/
def select (s : NodeState) (hashes : List H256) : Option NodeState :=
  let result := TransactionsDal.selectRows s.table hashes
  (result.2.mapM rowToTransaction).toOption.map fun transactions =>
    { s with table := result.1, fetcher := .selected transactions }

/-- One step; a step that is not due, and one that panics, leads nowhere. -/
def step (s : NodeState) : NodeAction → Option NodeState
  | .submitTx tx => (insertTransactionL2 s.table tx).toOption.map fun r => { s with table := r.2 }
  | .getMempoolInfo =>
    match s.fetcher with
    | .idle => some { s with
        mempool := s.mempool.getMempoolInfo.2
        fetcher := .informed s.mempool.getMempoolInfo.1.stashedAccounts
          s.mempool.getMempoolInfo.1.purgedAccounts }
    | _ => none
  | .releaseStashed =>
    match s.fetcher with
    | .informed stashedAccounts purgedAccounts => some { s with
        table := TransactionsDal.releaseStashed s.table stashedAccounts
        fetcher := .released purgedAccounts }
    | _ => none
  | .deletePurged =>
    match s.fetcher with
    | .released purgedAccounts => some { s with
        table := TransactionsDal.deletePurged s.table purgedAccounts
        fetcher := .deleted }
    | _ => none
  | .selectRows scan limit =>
    match s.fetcher with
    | .deleted => if scan.isPerm s.table then s.select (selectedHashes scan limit) else none
    | _ => none
  | .readNonces nonces =>
    match s.fetcher with
    | .selected transactions => some { s with fetcher := .synced transactions nonces }
    | _ => none
  | .insertSynced =>
    match s.fetcher with
    | .synced transactions nonces => (s.mempool.insert transactions nonces).toOption.map fun m =>
        { s with mempool := m, fetcher := .idle }
    | _ => none
  | .nextTransaction =>
    match s.inHand with
    | .idle => s.mempool.nextTransaction.toOption.map fun r =>
        { s with
          mempool := r.2
          inHand := match r.1 with
            | some tx => .holding tx
            | none => .idle }
    | _ => none
  | .includeTx status =>
    match s.inHand with
    | .holding tx => tx.hash.map fun hash =>
        { s with inHand := .idle, pending := s.pending ++ [⟨tx, hash, {}, status, none⟩] }
    | _ => none
  | .rollback =>
    match s.inHand with
    | .holding tx => (s.mempool.rollback tx).toOption.map fun m =>
        { s with mempool := m, inHand := .rolledBack tx }
    | _ => none
  | .reinsert =>
    match s.inHand with
    | .rolledBack tx => (s.mempool.insert [tx] ∅).toOption.map fun m =>
        { s with mempool := m, inHand := .idle }
    | _ => none
  | .rejectInMempool =>
    match s.inHand with
    | .holding tx => (s.mempool.rollback tx).toOption.map fun m =>
        { s with mempool := m, inHand := .rejecting tx }
    | _ => none
  | .markRejected error =>
    match s.inHand with
    | .rejecting tx => tx.hash.map fun hash =>
        { s with table := markTxAsRejected s.table hash ("rejected: " ++ error), inHand := .idle }
    | _ => none
  | .submitMiniblock =>
    match s.inHand with
    | .idle => some { s with
        pending := []
        sealing := s.sealing ++ [(s.miniblockNumber, s.pending)]
        miniblockNumber := s.miniblockNumber + 1 }
    | _ => none
  | .sealMiniblock =>
    match s.sealing with
    | [] => none
    | (miniblockNumber, executed) :: sealing =>
      (markTxsAsExecutedInMiniblock s.table miniblockNumber executed).toOption.map fun table =>
        { s with table := table, sealing := sealing }

/-- The executed transactions that are not sealed yet. -/
def executed (s : NodeState) : List TransactionExecutionResult :=
  s.sealing.flatMap Prod.snd ++ s.pending

/-- The transactions that the sequencer has taken and neither sealed, rejected nor given back. -/
def heldOut (s : NodeState) : List Transaction :=
  s.executed.map TransactionExecutionResult.transaction ++ s.inHand.tx?.toList

end NodeState

end OlaOs
