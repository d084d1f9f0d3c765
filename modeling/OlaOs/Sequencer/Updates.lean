import OlaOs.Dedup.WritesDeduplicator
import OlaOs.Sequencer.BatchExecutor

/-! The included transactions of a batch and its miniblocks (`ola_core/src/sequencer/updates`). -/
namespace OlaOs

abbrev ProtocolVersionId := U16

structure TransactionExecutionResult where
  transaction : Transaction
  hash : H256
  executionInfo : ExecutionMetrics := {}
  executionStatus : TxExecutionStatus
  revertReason : Option String

structure MiniblockUpdates where
  executedTransactions : List TransactionExecutionResult
  events : List VmEvent
  storageLogs : List StorageLogQuery
  blockExecutionMetrics : ExecutionMetrics
  txsEncodingSize : ℕ
  timestamp : U64

structure L1BatchUpdates where
  executedTransactions : List TransactionExecutionResult := []
  blockStorageLogs : List StorageLogQuery := []
  blockExecutionMetrics : ExecutionMetrics := {}
  txsEncodingSize : ℕ := 0

structure UpdatesManager where
  batchTimestamp : U64
  protocolVersion : ProtocolVersionId
  l1Batch : L1BatchUpdates
  miniblock : MiniblockUpdates
  storageWritesDeduplicator : StorageWritesDeduplicator

def MiniblockUpdates.new (timestamp : U64) : MiniblockUpdates := ⟨[], [], [], {}, 0, timestamp⟩

/-- `extend_from_executed_transaction`, for a transaction of the encoded size `size`. -/
def MiniblockUpdates.extendFromExecutedTransaction {T : Type} (miniblock : MiniblockUpdates)
    (tx : Transaction) (size : ℕ) (txExecutionResult : VmTxExeResult T)
    (executionMetrics : ExecutionMetrics) : Except SequencerPanic MiniblockUpdates :=
  match tx.hash with
  | none => .error .noInputData
  | some hash => .ok { miniblock with
      events := miniblock.events ++ txExecutionResult.result.events
      storageLogs := miniblock.storageLogs ++ txExecutionResult.result.storageLogs
      blockExecutionMetrics := miniblock.blockExecutionMetrics + executionMetrics
      txsEncodingSize := miniblock.txsEncodingSize + size
      executedTransactions := miniblock.executedTransactions ++
        [⟨tx, hash, executionMetrics, txExecutionResult.status,
          txExecutionResult.result.revertReason⟩] }

def L1BatchUpdates.extendFromSealedMiniblock (l1Batch : L1BatchUpdates)
    (miniblockUpdates : MiniblockUpdates) : L1BatchUpdates where
  executedTransactions := l1Batch.executedTransactions ++ miniblockUpdates.executedTransactions
  blockStorageLogs := l1Batch.blockStorageLogs ++ miniblockUpdates.storageLogs
  blockExecutionMetrics := l1Batch.blockExecutionMetrics + miniblockUpdates.blockExecutionMetrics
  txsEncodingSize := l1Batch.txsEncodingSize + miniblockUpdates.txsEncodingSize

namespace UpdatesManager

def new (batchTimestamp : U64) (protocolVersion : ProtocolVersionId) : UpdatesManager :=
  ⟨batchTimestamp, protocolVersion, {}, .new batchTimestamp, {}⟩

def pushMiniblock (updates : UpdatesManager) (newMiniblockTimestamp : U64) : UpdatesManager :=
  { updates with
    l1Batch := updates.l1Batch.extendFromSealedMiniblock updates.miniblock
    miniblock := .new newMiniblockTimestamp }

def extendFromExecutedTransaction {T : Type} (updates : UpdatesManager) (tx : Transaction)
    (size : ℕ) (txExecutionResult : VmTxExeResult T) (executionMetrics : ExecutionMetrics) :
    Except SequencerPanic UpdatesManager := do
  let miniblock ← updates.miniblock.extendFromExecutedTransaction tx size txExecutionResult
    executionMetrics
  .ok { updates with
    storageWritesDeduplicator :=
      updates.storageWritesDeduplicator.apply txExecutionResult.result.storageLogs
    miniblock := miniblock }

def pendingExecutedTransactionsLen (updates : UpdatesManager) : ℕ :=
  updates.l1Batch.executedTransactions.length + updates.miniblock.executedTransactions.length

def pendingTxsEncodingSize (updates : UpdatesManager) : ℕ :=
  updates.l1Batch.txsEncodingSize + updates.miniblock.txsEncodingSize

/-- The transactions included so far, sealed miniblocks first. -/
def included (updates : UpdatesManager) : List Transaction :=
  (updates.l1Batch.executedTransactions ++ updates.miniblock.executedTransactions).map
    TransactionExecutionResult.transaction

variable {updates : UpdatesManager}

@[simp] theorem included_new (batchTimestamp : U64) (protocolVersion : ProtocolVersionId) :
    (new batchTimestamp protocolVersion).included = [] := rfl

@[simp] theorem included_pushMiniblock (newMiniblockTimestamp : U64) :
    (updates.pushMiniblock newMiniblockTimestamp).included = updates.included := by
  simp [included, pushMiniblock, L1BatchUpdates.extendFromSealedMiniblock, MiniblockUpdates.new]

theorem included_extend {T : Type} {tx : Transaction} {size : ℕ} {result : VmTxExeResult T}
    {metrics : ExecutionMetrics} {updates' : UpdatesManager}
    (h : updates.extendFromExecutedTransaction tx size result metrics = .ok updates') :
    updates'.included = updates.included ++ [tx] := by
  unfold extendFromExecutedTransaction MiniblockUpdates.extendFromExecutedTransaction at h
  cases hhash : tx.hash with
  | none =>
    rw [hhash] at h
    cases h
  | some hash =>
    rw [hhash] at h
    cases h
    simp [included]

/-- A transaction goes into the miniblock in progress. -/
theorem l1Batch_extend {T : Type} {tx : Transaction} {size : ℕ} {result : VmTxExeResult T}
    {metrics : ExecutionMetrics} {updates' : UpdatesManager}
    (h : updates.extendFromExecutedTransaction tx size result metrics = .ok updates') :
    updates'.l1Batch = updates.l1Batch := by
  unfold extendFromExecutedTransaction MiniblockUpdates.extendFromExecutedTransaction at h
  cases hhash : tx.hash with
  | none =>
    rw [hhash] at h
    cases h
  | some hash =>
    rw [hhash] at h
    cases h
    rfl

end UpdatesManager

end OlaOs
