import Mathlib.Data.List.Sort
import OlaOs.Sequencer.Updates

/-! The `transactions` table (`dal/src/transactions_dal.rs`, `dal/migrations`), statement by
statement. -/
namespace OlaOs

/-- `n as i32` -/
def asI32 (n : ℕ) : ℤ := Int.bmod n (2 ^ 32)

/-- `n as i64` -/
def asI64 (n : ℕ) : ℤ := Int.bmod n (2 ^ 64)

theorem asI32_of_lt {n : ℕ} (h : n < 2 ^ 31) : asI32 n = n := by
  unfold asI32
  rw [Int.bmod_eq_of_le] <;> omega

/-- The codes of the transaction types in the column `tx_format`. -/
def TransactionType.txFormat (t : TransactionType) : ℤ := t.code.val

/-- A row of `transactions`. `received_at` is in milliseconds. -/
structure TransactionRow where
  hash : H256
  isPriority : Bool
  initiatorAddress : Address
  nonce : Option ℤ
  signature : Option (List UInt8)
  input : Option (List UInt8)
  data : Execute
  receivedAt : U64
  priorityOpId : Option ℤ
  miniblockNumber : Option ℤ
  indexInBlock : Option ℤ
  l1BatchNumber : Option ℤ
  error : Option String
  txFormat : Option ℤ
  contractAddress : Option Address
  inMempool : Bool
  deriving DecidableEq

inductive L2TxSubmissionResult where
  | added
  | replaced
  | alreadyExecuted
  | duplicate
  deriving DecidableEq

/-- The panics of the data access layer. -/
inductive DalPanic where
  | noInputData
  | uniqueViolation
  | foreignKeyViolation
  | noNonce
  | noSignature
  | noInput
  | unsupportedTxType
  deriving DecidableEq

namespace TransactionsDal

/-- Does the row stand for the initiator and nonce, by the unique index of the table? -/
def hasKey (initiatorAddress : Address) (nonce : ℤ) (row : TransactionRow) : Bool :=
  row.initiatorAddress = initiatorAddress ∧ row.nonce = some nonce

/-- Is the hash, the primary key, in use by a row with another initiator or nonce? -/
def hashTaken (table : List TransactionRow) (hash : H256) (initiatorAddress : Address) (nonce : ℤ) :
    Bool :=
  table.any fun row => row.hash = hash && !hasKey initiatorAddress nonce row

/-- The columns that both the insertion and the replacement by `tx` set. -/
def writeTx (row : TransactionRow) (hash : H256) (input : List UInt8) (tx : L2Tx) :
    TransactionRow :=
  { row with
    hash := hash
    signature := some tx.commonData.signature
    input := some input
    data := tx.execute
    txFormat := some tx.commonData.transactionType.txFormat
    contractAddress := some tx.execute.contractAddress
    inMempool := false
    receivedAt := tx.receivedTimestampMs
    error := none }

/-- A row with the initiator and nonce of `tx` and nothing else. -/
def emptyRow (hash : H256) (tx : L2Tx) : TransactionRow where
  hash := hash
  isPriority := false
  initiatorAddress := tx.initiatorAccount
  nonce := some tx.nonce.val
  signature := none
  input := none
  data := tx.execute
  receivedAt := tx.receivedTimestampMs
  priorityOpId := none
  miniblockNumber := none
  indexInBlock := none
  l1BatchNumber := none
  error := none
  txFormat := none
  contractAddress := none
  inMempool := false

/-- `insert_transaction_l2`: add a row, or replace the pending row with its initiator and nonce. -/
def insertTransactionL2 (table : List TransactionRow) (tx : L2Tx) :
    Except DalPanic (L2TxSubmissionResult × List TransactionRow) :=
  match tx.commonData.input with
  | none => .error .noInputData
  | some input =>
    let key := hasKey tx.initiatorAccount tx.nonce.val
    match table.find? key with
    | some old =>
      if old.isPriority = false ∧ old.miniblockNumber = none then
        if hashTaken table input.hash tx.initiatorAccount tx.nonce.val then .ok (.duplicate, table)
        else .ok (.replaced,
          table.map fun row => if key row then writeTx row input.hash input.data tx else row)
      else .ok (.alreadyExecuted, table)
    | none =>
      if table.any fun row => row.hash = input.hash then .ok (.duplicate, table)
      else .ok (.added, table ++ [writeTx (emptyRow input.hash tx) input.hash input.data tx])

/-- The columns of an executed L2 transaction in the `UPDATE` of
`mark_txs_as_executed_in_miniblock`, with its index. -/
structure ExecutedRow where
  initiatorAddress : Address
  nonce : ℤ
  hash : H256
  signature : List UInt8
  txFormat : ℤ
  indexInBlock : ℤ
  error : Option String
  input : List UInt8
  data : Execute

/-- `error` is empty, and stored as `NULL`, for a successful transaction. -/
def executedError : TxExecutionStatus → Option String
  | .success => none
  | .failure => some "Entrypoint-based tx failed"

def executedRow (indexInBlock : ℕ) (result : TransactionExecutionResult) : Option ExecutedRow :=
  match result.transaction.commonData with
  | .l2 data => some {
      initiatorAddress := result.transaction.initiatorAccount
      nonce := asI32 data.nonce.val
      hash := result.hash
      signature := data.signature
      txFormat := data.transactionType.txFormat
      indexInBlock := asI32 indexInBlock
      error := executedError result.executionStatus
      input := data.inputData.getD []
      data := result.transaction.execute }
  | .protocolUpgrade _ => none

def markRow (miniblockNumber : ℤ) (executed : ExecutedRow) (row : TransactionRow) :
    TransactionRow :=
  { row with
    hash := executed.hash
    signature := some executed.signature
    input := some executed.input
    data := executed.data
    txFormat := some executed.txFormat
    miniblockNumber := some miniblockNumber
    indexInBlock := some executed.indexInBlock
    error := executed.error
    contractAddress := some executed.data.contractAddress
    inMempool := false }

/-- The update of one executed transaction. Without a row for its initiator and nonce it does
nothing; it fails on the primary key, and on the reference to the miniblock. -/
def markL2 (miniblockNumber : ℕ) (table : List TransactionRow) (executed : ExecutedRow) :
    Except DalPanic (List TransactionRow) :=
  let key := hasKey executed.initiatorAddress executed.nonce
  if table.any key then
    if hashTaken table executed.hash executed.initiatorAddress executed.nonce then
      .error .uniqueViolation
    else if asI32 miniblockNumber ≠ miniblockNumber then .error .foreignKeyViolation
    else .ok (table.map fun row =>
      if key row then markRow (asI32 miniblockNumber) executed row else row)
  else .ok table

/-- The update of an executed protocol upgrade, found by its hash. -/
def markUpgrade (miniblockNumber : ℕ) (table : List TransactionRow)
    (executed : ℕ × TransactionExecutionResult) : List TransactionRow :=
  table.map fun row => if row.hash = executed.2.hash then
    { row with
      miniblockNumber := some (asI32 miniblockNumber)
      indexInBlock := some (asI32 executed.1)
      error := executedError executed.2.executionStatus
      inMempool := false }
  else row

def isUpgrade (executed : ℕ × TransactionExecutionResult) : Bool :=
  match executed.2.transaction.commonData with
  | .l2 _ => false
  | .protocolUpgrade _ => true

/-- The executed transactions of a miniblock with their indices. -/
def indexed (transactions : List TransactionExecutionResult) :
    List (ℕ × TransactionExecutionResult) :=
  transactions.zipIdx.map fun e => (e.2, e.1)

def markTxsAsExecutedInMiniblock (table : List TransactionRow) (miniblockNumber : ℕ)
    (transactions : List TransactionExecutionResult) : Except DalPanic (List TransactionRow) := do
  let marked ← ((indexed transactions).filterMap fun e => executedRow e.1 e.2).foldlM
    (markL2 miniblockNumber) table
  .ok (((indexed transactions).filter isUpgrade).foldl (markUpgrade miniblockNumber) marked)

/-- `mark_txs_as_executed_in_l1_batch` finds the rows by the hashes of the executed transactions. -/
def markTxsAsExecutedInL1Batch (table : List TransactionRow) (blockNumber : ℕ)
    (transactions : List TransactionExecutionResult) : List TransactionRow :=
  table.map fun row =>
    if (transactions.map TransactionExecutionResult.hash).contains row.hash then
      { row with l1BatchNumber := some blockNumber }
    else row

/-- `mark_tx_as_rejected` finds the row by the hash of the rejected transaction. -/
def markTxAsRejected (table : List TransactionRow) (transactionHash : H256) (error : String) :
    List TransactionRow :=
  table.map fun row => if row.hash = transactionHash then { row with error := some error } else row

/-- `remove_stuck_txs`, for the transactions received before `since`. -/
def removeStuckTxs (table : List TransactionRow) (since : U64) : List TransactionRow :=
  table.filter fun row => !(row.miniblockNumber.isNone && row.receivedAt < since &&
    !row.isPriority && row.error.isNone)

def resetMempool (table : List TransactionRow) : List TransactionRow :=
  table.map fun row => { row with inMempool := false }

/-- `sync_mempool`, first statement: rows of stashed accounts leave the mempool. -/
def releaseStashed (table : List TransactionRow) (stashedAccounts : List Address) :
    List TransactionRow :=
  table.map fun row => if row.inMempool && stashedAccounts.contains row.initiatorAddress then
    { row with inMempool := false } else row

/-- Second statement: rows of purged accounts are deleted. -/
def deletePurged (table : List TransactionRow) (purgedAccounts : List Address) :
    List TransactionRow :=
  table.filter fun row => !(row.inMempool && purgedAccounts.contains row.initiatorAddress)

/-- The condition of the third statement; a comparison with a missing `tx_format` is not true. -/
def isSelectable (row : TransactionRow) : Bool :=
  row.miniblockNumber.isNone && !row.inMempool && row.error.isNone &&
    match row.txFormat with
    | some txFormat => txFormat ≠ TransactionType.protocolUpgradeTransaction.txFormat
    | none => false

/-- The order of the third statement: priority operations first, then by their id, missing ids
last, then by the time of arrival. -/
def selectedBefore (a b : TransactionRow) : Bool :=
  if a.isPriority ≠ b.isPriority then a.isPriority
  else
    match a.priorityOpId, b.priorityOpId with
    | some i, some j => if i ≠ j then i < j else a.receivedAt ≤ b.receivedAt
    | some _, none => true
    | none, some _ => false
    | none, none => a.receivedAt ≤ b.receivedAt

/-- The hashes that the third statement selects when it reads the rows in the order `scan`. -/
def selectedHashes (scan : List TransactionRow) (limit : ℕ) : List H256 :=
  (((scan.filter isSelectable).insertionSort fun a b => selectedBefore a b = true).take limit).map
    TransactionRow.hash

/-- Third statement: the selected rows enter the mempool and are returned. -/
def selectRows (table : List TransactionRow) (hashes : List H256) :
    List TransactionRow × List TransactionRow :=
  (table.map fun row => if hashes.contains row.hash then { row with inMempool := true } else row,
    (table.filter fun row => hashes.contains row.hash).map fun row =>
      { row with inMempool := true })

/-- The transaction type of a row, from the last byte of `tx_format`. -/
def rowType : Option ℤ → Option TransactionType
  | none => some .eip712Transaction
  | some txFormat =>
    if txFormat % 256 = 0x71 then some .eip712Transaction
    else if txFormat % 256 = 0x02 then some .eip1559Transaction
    else if txFormat % 256 = 0x10 then some .olaRawTransaction
    else none

/-- `n as u32` -/
def asNonce (n : ℤ) : Nonce := Fin.ofNat _ (n % (2 ^ 32 : ℤ)).toNat

/-- `From<StorageTransaction> for Transaction` -/
def rowToTransaction (row : TransactionRow) : Except DalPanic Transaction :=
  if row.txFormat = some TransactionType.protocolUpgradeTransaction.txFormat then
    .ok ⟨.protocolUpgrade ⟨row.initiatorAddress, row.hash⟩, row.data, row.receivedAt⟩
  else
    match row.nonce, rowType row.txFormat, row.signature, row.input with
    | none, _, _, _ => .error .noNonce
    | _, none, _, _ => .error .unsupportedTxType
    | _, _, none, _ => .error .noSignature
    | _, _, _, none => .error .noInput
    | some nonce, some transactionType, some signature, some input =>
      .ok ⟨.l2 ⟨asNonce nonce, row.initiatorAddress, signature, transactionType,
        some ⟨row.hash, input⟩⟩, row.data, row.receivedAt⟩

end TransactionsDal

end OlaOs
