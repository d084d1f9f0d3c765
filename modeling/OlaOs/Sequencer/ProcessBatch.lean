import OlaOs.Sequencer.SealCriteria
import OlaOs.Sequencer.Updates

/-! The main loop of the sequencer for one batch (`ola_core/src/sequencer/sequencer.rs`). -/
namespace OlaOs

/-- The executor's block manager, the sealer, and the size of the ABI encoding of a transaction. -/
structure SequencerEnv (σ T : Type) where
  manager : BlockExeManager σ T
  sealer : SealManager
  encodedSize : ExecuteTransactionCommon → Execute → ℕ

/-- `encoded_transaction_size`; the encoding leaves out when a transaction was received. -/
def SequencerEnv.encodedTransactionSize {σ T : Type} (env : SequencerEnv σ T) (tx : Transaction) :
    ℕ :=
  env.encodedSize tx.commonData tx.execute

/-- The calls to `SequencerIO` that change the mempool or the database. -/
inductive IoCall where
  | sealMiniblock (updates : UpdatesManager)
  | rollback (tx : Transaction)
  | reject (rejected : Transaction) (error : String)

/-- A call to `execute_tx` that succeeded. -/
structure Execution where
  transaction : Transaction
  txIndexInL1Batch : U32
  result : VmPartialExecutionResult

/-- A batch in progress, with the calls that it has made. -/
structure BatchState (σ : Type) where
  executor : σ
  updates : UpdatesManager
  io : List IoCall := []
  executions : List Execution := []

/-- What one turn of the loop of `process_l1_batch` reads from outside: the two deadlines, the
timestamp of a new miniblock, and the next transaction. -/
structure Turn where
  batchDeadlinePassed : Bool
  miniblockDeadlinePassed : Bool
  newTimestamp : U64
  nextTx : Option Transaction

structure MiniblockReexecuteData where
  number : ℕ
  timestamp : U64
  txs : List Transaction

/-- What the end of a batch hands to `seal_l1_batch` and to the object store. -/
structure FinishedBatch (T : Type) where
  updates : UpdatesManager
  blockResult : VmBlockResult
  txTraces : List T

namespace Sequencer

variable {σ T : Type} (env : SequencerEnv σ T)

/-- The resolution that an execution result leads to, and the writes counter after it. -/
def resolve (updates : UpdatesManager) (tx : Transaction) :
    TxExecutionResult T → SealResolution × StorageWritesDeduplicator
  | .bootloaderOutOfGasForTx => (.excludeAndSeal, updates.storageWritesDeduplicator)
  | .bootloaderOutOfGasForBlockTip => (.excludeAndSeal, updates.storageWritesDeduplicator)
  | .rejectedByVm .notEnoughGasProvided => (.excludeAndSeal, updates.storageWritesDeduplicator)
  | .rejectedByVm rejectionReason =>
    (.unexecutable rejectionReason.toString, updates.storageWritesDeduplicator)
  | .success txResult _ entrypointDryRunResult =>
    let encodingLen := env.encodedTransactionSize tx
    let logsToApply := txResult.result.storageLogs ++ entrypointDryRunResult.storageLogs
    let (blockWritesMetrics, deduplicator) :=
      updates.storageWritesDeduplicator.applyAndRollback logsToApply
    let txData : SealData :=
      ⟨encodingLen, StorageWritesDeduplicator.applyOnEmptyState logsToApply⟩
    let blockData : SealData :=
      ⟨txData.cumulativeSize + updates.pendingTxsEncodingSize, blockWritesMetrics⟩
    (env.sealer.shouldSealL1Batch (updates.pendingExecutedTransactionsLen + 1) blockData txData,
      deduplicator)

/-- The call to the executor for `tx`, if it succeeded. -/
def execution (tx : Transaction) (txIndexInL1Batch : U32) : TxExecutionResult T → List Execution
  | .success txResult _ _ => [⟨tx, txIndexInL1Batch, txResult.result⟩]
  | .rejectedByVm _ | .bootloaderOutOfGasForTx | .bootloaderOutOfGasForBlockTip => []

def processOneTx (s : BatchState σ) (tx : Transaction) :
    Except SequencerPanic ((SealResolution × TxExecutionResult T) × BatchState σ) := do
  let txIndexInL1Batch : U32 := Fin.ofNat _ s.updates.pendingExecutedTransactionsLen
  let (execResult, executor) ← BatchExecutor.tx env.manager s.executor tx txIndexInL1Batch
  let (resolution, deduplicator) := resolve env s.updates tx execResult
  .ok ((resolution, execResult),
    { s with
      executor := executor
      updates := { s.updates with storageWritesDeduplicator := deduplicator }
      executions := s.executions ++ execution tx txIndexInL1Batch execResult })

/-- The match of `process_l1_batch` on the resolution. -/
def applyResolution (s : BatchState σ) (tx : Transaction) (execResult : TxExecutionResult T) :
    SealResolution → Except SequencerPanic (BatchState σ)
  | .noSeal | .includeAndSeal =>
    match execResult with
    | .success txResult txMetrics _ => do
      let updates ← s.updates.extendFromExecutedTransaction tx (env.encodedTransactionSize tx)
        txResult txMetrics
      .ok { s with updates := updates }
    | _ => .error .unreachableInclusion
  | .excludeAndSeal => .ok { s with io := s.io ++ [.rollback tx] }
  | .unexecutable reason => .ok { s with io := s.io ++ [.reject tx reason] }

def shouldSealL1BatchUnconditionally (turn : Turn) (s : BatchState σ) : Bool :=
  s.updates.pendingExecutedTransactionsLen ≠ 0 && turn.batchDeadlinePassed

def shouldSealMiniblock (turn : Turn) (s : BatchState σ) : Bool :=
  !s.updates.miniblock.executedTransactions.isEmpty && turn.miniblockDeadlinePassed

/-- Seal the miniblock and start the next one. -/
def sealMiniblock (newTimestamp : U64) (s : BatchState σ) : BatchState σ :=
  { s with
    updates := s.updates.pushMiniblock newTimestamp
    io := s.io ++ [.sealMiniblock s.updates] }

/-- The state in which a turn asks for its transaction. -/
def startTurn (turn : Turn) (s : BatchState σ) : BatchState σ :=
  if shouldSealMiniblock turn s then sealMiniblock turn.newTimestamp s else s

/-- One turn of the loop of `process_l1_batch`; it says whether the batch is to be sealed. -/
def processTurn (turn : Turn) (s : BatchState σ) : Except SequencerPanic (Bool × BatchState σ) := do
  if shouldSealL1BatchUnconditionally turn s then .ok (true, s)
  else
    match turn.nextTx with
    | none => .ok (false, startTurn turn s)
    | some tx =>
      let ((resolution, execResult), s) ← processOneTx env (startTurn turn s) tx
      let s ← applyResolution env s tx execResult resolution
      .ok (resolution.shouldSeal, s)

/-- The loop of `process_l1_batch`. When the turns run out the node has been stopped. -/
def processTurns : List Turn → BatchState σ → Except SequencerPanic (Bool × BatchState σ)
  | [], s => .ok (false, s)
  | turn :: turns, s => do
    let (done, s) ← processTurn env turn s
    if done then .ok (true, s) else processTurns turns s

def processUpgradeTx (s : BatchState σ) (protocolUpgradeTx : Transaction) :
    Except SequencerPanic (BatchState σ) := do
  if s.updates.pendingExecutedTransactionsLen ≠ 0 then .error .upgradeNotFirst
  else
    let ((resolution, execResult), s) ← processOneTx env s protocolUpgradeTx
    match resolution, execResult with
    | .noSeal, .success txResult txMetrics _ | .includeAndSeal, .success txResult txMetrics _ =>
      if txResult.status ≠ .success then .error .failedUpgrade
      else do
        let updates ← s.updates.extendFromExecutedTransaction protocolUpgradeTx
          (env.encodedTransactionSize protocolUpgradeTx) txResult txMetrics
        .ok { s with updates := updates }
    | .noSeal, _ | .includeAndSeal, _ => .error .unreachableInclusion
    | .excludeAndSeal, _ => .error .unreachableInclusion
    | .unexecutable _, _ => .error .unexecutableUpgrade

def processL1Batch (s : BatchState σ) (protocolUpgradeTx : Option Transaction) (turns : List Turn) :
    Except SequencerPanic (Bool × BatchState σ) := do
  match protocolUpgradeTx with
  | some tx => do
    let s ← processUpgradeTx env s tx
    processTurns env turns s
  | none => processTurns env turns s

/-- Run a stored transaction again, with the index that `restore_state` counts; anything but a
success is a panic. -/
def reexecute (loop : BatchState σ × U32) (tx : Transaction) :
    Except SequencerPanic (BatchState σ × U32) := do
  let (s, txIndexInL1Batch) := loop
  let (execResult, executor) ← BatchExecutor.tx env.manager s.executor tx txIndexInL1Batch
  match execResult with
  | .success txResult txMetrics _ => do
    let updates ← s.updates.extendFromExecutedTransaction tx (env.encodedTransactionSize tx)
      txResult txMetrics
    .ok ({ s with
        executor := executor
        updates := updates
        executions := s.executions ++ [⟨tx, txIndexInL1Batch, txResult.result⟩] },
      txIndexInL1Batch + 1)
  | _ => .error .reexecutionFailed

/-- The miniblocks of `restore_state`; every one but the first is pushed. -/
def reexecuteMiniblocks : Bool → List MiniblockReexecuteData → BatchState σ × U32 →
    Except SequencerPanic (BatchState σ × U32)
  | _, [], loop => .ok loop
  | first, miniblock :: miniblocks, (s, txIndexInL1Batch) => do
    let s := if first then s
      else { s with updates := s.updates.pushMiniblock miniblock.timestamp }
    let loop ← miniblock.txs.foldlM (reexecute env) (s, txIndexInL1Batch)
    reexecuteMiniblocks false miniblocks loop

def restoreState (miniblocks : List MiniblockReexecuteData) (newTimestamp : U64)
    (s : BatchState σ) : Except SequencerPanic (BatchState σ) := do
  if miniblocks.isEmpty then .ok s
  else
    let (s, _) ← reexecuteMiniblocks env true miniblocks (s, 0)
    .ok { s with updates := s.updates.pushMiniblock newTimestamp }

/-- The last miniblock of a batch is sealed, and the fictive one started. -/
def sealLastMiniblock (fictiveMiniblockTimestamp : U64) (s : BatchState σ) : BatchState σ :=
  if s.updates.miniblock.executedTransactions.isEmpty then s
  else sealMiniblock fictiveMiniblockTimestamp s

/-- The end of a batch: the last miniblock is sealed and the executor finishes. -/
def finish (fictiveMiniblockTimestamp : U64) (s : BatchState σ) :
    Except SequencerPanic (FinishedBatch T) := do
  let s := sealLastMiniblock fictiveMiniblockTimestamp s
  let (blockResult, txTraces) ← BatchExecutor.finishBatch env.manager s.executor
    (Fin.ofNat _ s.updates.pendingExecutedTransactionsLen)
  .ok ⟨s.updates, blockResult, txTraces⟩

/-- What a batch reads from outside, from its start to its end. -/
structure BatchInput where
  batchTimestamp : U64
  protocolVersion : ProtocolVersionId
  pendingMiniblocks : List MiniblockReexecuteData
  protocolUpgradeTx : Option Transaction
  turns : List Turn
  newTimestamp : U64
  fictiveMiniblockTimestamp : U64

/-- The batch after its stored miniblocks are executed again. -/
def start (input : BatchInput) (init : σ) : Except SequencerPanic (BatchState σ) :=
  restoreState env input.pendingMiniblocks input.newTimestamp
    { executor := init, updates := .new input.batchTimestamp input.protocolVersion }

/-- One batch of `run_inner`, on a fresh executor. -/
def runBatch (input : BatchInput) (init : σ) :
    Except SequencerPanic (Option (FinishedBatch T)) := do
  let s ← start env input init
  let (done, s) ← processL1Batch env s input.protocolUpgradeTx input.turns
  if done then do
    let finished ← finish env input.fictiveMiniblockTimestamp s
    .ok (some finished)
  else .ok none

end Sequencer

end OlaOs
