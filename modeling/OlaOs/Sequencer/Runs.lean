import OlaOs.Dal.Blocks
import OlaOs.Dal.Distinct
import OlaOs.Lib.Transition
import OlaOs.Sequencer.Clock
import OlaOs.Sequencer.SealLogic

/-! Runs of the sequencer over the database, with restarts (`run_inner` in
`ola_core/src/sequencer/sequencer.rs`, `sequencer/io/mempool.rs`, `sequencer/io/common.rs`). The API
servers and the mempool fetcher change the `transactions` table between any two steps, the task that
seals miniblocks runs beside the sequencer, and the process can stop at any point. Storage logs and
the other tables only decide whether a step panics, and then the process stops as in a crash. -/
namespace OlaOs

/-- What a batch is started with. -/
structure L1BatchParams where
  blockNumber : ℕ
  blockTimestamp : U64
  previousBlockHash : U256
  protocolVersion : ProtocolVersionId
  deriving DecidableEq

structure ProtocolUpgradeTx where
  execute : Execute
  commonData : ProtocolUpgradeTxCommonData
  receivedTimestampMs : U64

/-- `From<ProtocolUpgradeTx> for Transaction` -/
def ProtocolUpgradeTx.intoTransaction (tx : ProtocolUpgradeTx) : Transaction :=
  ⟨.protocolUpgrade tx.commonData, tx.execute, tx.receivedTimestampMs⟩

/-- A call of `MempoolIO::seal_miniblock` whose command is in the queue of the miniblock sealer. -/
structure Submission where
  updates : UpdatesManager
  l1BatchNumber : ℕ
  miniblockNumber : ℕ

def Submission.command (submission : Submission) : MiniblockSealCommand :=
  submission.updates.sealMiniblockCommand submission.l1BatchNumber submission.miniblockNumber

/-- Where `run_inner` is: waiting for the parameters of a batch, in `process_l1_batch`, past it, in
`seal_l1_batch`, or returned. -/
inductive Phase (σ T : Type) where
  | waiting (sealedBatchProtocolVersion : Option ProtocolVersionId)
  | processing (params : L1BatchParams) (batch : BatchState σ)
  | finishing (params : L1BatchParams) (batch : BatchState σ)
  | sealing (params : L1BatchParams) (finished : FinishedBatch T)
  | stopped

structure SequencerProcess (σ T : Type) where
  currentL1BatchNumber : ℕ
  currentMiniblockNumber : ℕ
  commands : List Submission
  phase : Phase σ T

inductive RunPanic where
  | clock (panic : ClockPanic)
  | batch (panic : SequencerPanic)
  | dal (panic : DalPanic)
  | noL1Batch
  | noMiniblockRange
  | noProtocolVersion
  | emptyPendingBatch
  | noPreviousMiniblock
  | batchTimestampsDontMatch
  | timestampNotLarger
  deriving DecidableEq

/-- The database, the process while there is one, the last panic, and the updates from which the
last stored miniblock of the open batch was made. -/
structure RunState (σ T : Type) where
  tables : SequencerTables
  process : Option (SequencerProcess σ T)
  panic : Option RunPanic := none
  stored : Option UpdatesManager := none

/-- The statements of the API servers and of the mempool fetcher. -/
inductive TableStatement where
  | submitTx (tx : L2Tx)
  | removeStuckTxs (since : U64)
  | resetMempool
  | releaseStashed (stashedAccounts : List Address)
  | deletePurged (purgedAccounts : List Address)
  | selectRows (scan : List TransactionRow) (limit : ℕ)

/-- The steps, with what they read from outside: the state of a new executor, the hash of the
previous batch, and the clock. -/
inductive RunAction (σ : Type) where
  | start (scan : List TransactionRow) (previousBlockHash : U256) (executor : σ)
      (attempts : List (List ℕ))
  | newBatch (previousBlockHash : U256) (protocolVersion : ProtocolVersionId)
      (upgradeTx : Option ProtocolUpgradeTx) (executor : σ) (attempts : List (List ℕ))
  | checkDeadlines (batchDeadlinePassed miniblockDeadlinePassed : Bool) (attempts : List (List ℕ))
  | nextTx (tx : Transaction)
  | finish (attempts : List (List ℕ))
  | sealL1Batch
  | writeMiniblock
  | cancel
  | crash
  | statement (statement : TableStatement)

def succU32 (n : ℕ) : ℕ := (n + 1) % 2 ^ 32

def predU32 (n : ℕ) : ℕ := (n + (2 ^ 32 - 1)) % 2 ^ 32

/-- `MempoolIO::seal_miniblock` -/
def SequencerProcess.sealMiniblock {σ T : Type} (p : SequencerProcess σ T)
    (updates : UpdatesManager) : SequencerProcess σ T :=
  { p with
    commands := p.commands ++ [⟨updates, p.currentL1BatchNumber, p.currentMiniblockNumber⟩]
    currentMiniblockNumber := succU32 p.currentMiniblockNumber }

/-- The row of a miniblock. -/
def MiniblockSealCommand.header (command : MiniblockSealCommand) : MiniblockHeaderRow :=
  ⟨command.miniblockNumber, command.miniblock.timestamp, some command.protocolVersion, none⟩

namespace RunState

open TransactionsDal

variable {σ T : Type} (env : SequencerEnv σ T) (s : RunState σ T)

def atPhase (p : SequencerProcess σ T) (phase : Phase σ T) : RunState σ T :=
  { s with process := some { p with phase := phase } }

/-- The process has ended. -/
def down (panic : Option RunPanic) : RunState σ T := { s with process := none, panic := panic }

/-- The process that `MempoolIO::new` makes. -/
def newProcess : Except RunPanic (SequencerProcess σ T) :=
  match s.tables.getNewestL1BatchNumber with
  | none => .error .noL1Batch
  | some number => .ok {
      currentL1BatchNumber := succU32 number
      currentMiniblockNumber := succU32 s.tables.getSealedMiniblockNumber
      commands := []
      phase := .waiting none }

/-- The first miniblock after the last sealed batch, in `load_pending_batch`. -/
def pendingMiniblockHeader (currentL1BatchNumber : ℕ) :
    Except RunPanic (Option MiniblockHeaderRow) :=
  match s.tables.lastMiniblockOfL1Batch (predU32 currentL1BatchNumber) with
  | none => .error .noMiniblockRange
  | some last => .ok (s.tables.getMiniblockHeader (succU32 last))

/-- `load_pending_batch` -/
def loadPendingBatch (currentL1BatchNumber : ℕ) (scan : List TransactionRow)
    (previousBlockHash : U256) :
    Except RunPanic (Option (L1BatchParams × List MiniblockReexecuteData)) := do
  match ← s.pendingMiniblockHeader currentL1BatchNumber with
  | none => .ok none
  | some header =>
    match header.protocolVersion with
    | none => .error .noProtocolVersion
    | some protocolVersion =>
      let pendingMiniblocks ←
        (getMiniblocksToReexecute scan s.tables.miniblocks).mapError .dal
      .ok (some (⟨currentL1BatchNumber, header.timestamp, previousBlockHash, protocolVersion⟩,
        pendingMiniblocks))

/-- A batch with nothing in it. -/
def newBatchState (params : L1BatchParams) (executor : σ) : BatchState σ where
  executor := executor
  updates := .new params.blockTimestamp params.protocolVersion

/-- The start of `run_inner`: a stored batch is executed again, up to its next miniblock. -/
def start (scan : List TransactionRow) (previousBlockHash : U256) (executor : σ)
    (attempts : List (List ℕ)) : Except RunPanic (RunState σ T) := do
  let p ← s.newProcess
  match ← s.loadPendingBatch p.currentL1BatchNumber scan previousBlockHash with
  | none => .ok (s.atPhase p (.waiting none))
  | some (params, pendingMiniblocks) =>
    if pendingMiniblocks.isEmpty then .error .emptyPendingBatch
    else
      let (batch, _) ← (Sequencer.reexecuteMiniblocks env true pendingMiniblocks
        (newBatchState params executor, 0)).mapError .batch
      match ← (Clock.retry batch.updates.miniblock.timestamp attempts).mapError .clock with
      | none => .ok (s.atPhase p .stopped)
      | some newTimestamp => .ok (s.atPhase p (.processing params
          { batch with updates := batch.updates.pushMiniblock newTimestamp }))

/-- The upgrade transaction of a batch whose version is not that of the last one. -/
def processUpgrade (sealedBatchProtocolVersion : Option ProtocolVersionId) (params : L1BatchParams)
    (upgradeTx : Option ProtocolUpgradeTx) (batch : BatchState σ) :
    Except SequencerPanic (BatchState σ) :=
  match sealedBatchProtocolVersion, upgradeTx with
  | some version, some tx =>
    if params.protocolVersion = version then .ok batch
    else Sequencer.processUpgradeTx env batch tx.intoTransaction
  | _, _ => .ok batch

/-- `wait_for_new_batch_params`, and the batch that follows. -/
def newBatch (p : SequencerProcess σ T) (sealedBatchProtocolVersion : Option ProtocolVersionId)
    (previousBlockHash : U256) (protocolVersion : ProtocolVersionId)
    (upgradeTx : Option ProtocolUpgradeTx) (executor : σ) (attempts : List (List ℕ)) :
    Except RunPanic (RunState σ T) :=
  match s.tables.getMiniblockTimestamp (predU32 p.currentMiniblockNumber) with
  | none => .error .noPreviousMiniblock
  | some prevMiniblockTimestamp => do
    match ← (Clock.retry prevMiniblockTimestamp attempts).mapError .clock with
    | none => .ok (s.atPhase p .stopped)
    | some timestamp =>
      let params : L1BatchParams :=
        ⟨p.currentL1BatchNumber, timestamp, previousBlockHash, protocolVersion⟩
      let batch ← (processUpgrade env sealedBatchProtocolVersion params upgradeTx
        (newBatchState params executor)).mapError .batch
      .ok (s.atPhase p (.processing params batch))

/-- The two checks at the top of the loop of `process_l1_batch`. -/
def checkDeadlines (p : SequencerProcess σ T) (params : L1BatchParams) (batch : BatchState σ)
    (batchDeadlinePassed miniblockDeadlinePassed : Bool) (attempts : List (List ℕ)) :
    Except RunPanic (RunState σ T) :=
  let turn : Turn := ⟨batchDeadlinePassed, miniblockDeadlinePassed, 0, none⟩
  if Sequencer.shouldSealL1BatchUnconditionally turn batch then
    .ok (s.atPhase p (.finishing params batch))
  else if Sequencer.shouldSealMiniblock turn batch then do
    match ← (Clock.retry batch.updates.miniblock.timestamp attempts).mapError .clock with
    | none => .ok (s.atPhase (p.sealMiniblock batch.updates) .stopped)
    | some newTimestamp => .ok (s.atPhase (p.sealMiniblock batch.updates)
        (.processing params (Sequencer.sealMiniblock newTimestamp batch)))
  else .ok s

/-- The table after a transaction is tried: a rejected one is marked. -/
def markRejected (table : List TransactionRow) (tx : Transaction) :
    SealResolution → List TransactionRow
  | .unexecutable reason =>
    match tx.hash with
    | some hash => markTxAsRejected table hash ("rejected: " ++ reason)
    | none => table
  | .noSeal | .includeAndSeal | .excludeAndSeal => table

/-- The rest of the loop, for the next transaction. -/
def nextTx (p : SequencerProcess σ T) (params : L1BatchParams) (batch : BatchState σ)
    (tx : Transaction) : Except RunPanic (RunState σ T) := do
  let ((resolution, execResult), batch) ← (Sequencer.processOneTx env batch tx).mapError .batch
  let batch ← (Sequencer.applyResolution env batch tx execResult resolution).mapError .batch
  .ok {
    tables := { s.tables with transactions := markRejected s.tables.transactions tx resolution }
    process := some { p with
      phase := if resolution.shouldSeal then .finishing params batch else .processing params batch }
    panic := s.panic
    stored := s.stored }

/-- The end of a batch, up to `seal_l1_batch`. -/
def finish (p : SequencerProcess σ T) (params : L1BatchParams) (batch : BatchState σ)
    (attempts : List (List ℕ)) : Except RunPanic (RunState σ T) :=
  if batch.updates.miniblock.executedTransactions.isEmpty then do
    let finished ← (Sequencer.finish env batch.updates.miniblock.timestamp batch).mapError .batch
    .ok (s.atPhase p (.sealing params finished))
  else do
    match ← (Clock.retry batch.updates.miniblock.timestamp attempts).mapError .clock with
    | none => .ok (s.atPhase (p.sealMiniblock batch.updates) .stopped)
    | some fictiveMiniblockTimestamp =>
      let finished ← (Sequencer.finish env fictiveMiniblockTimestamp batch).mapError .batch
      .ok (s.atPhase (p.sealMiniblock batch.updates) (.sealing params finished))

/-- The statements of `UpdatesManager::seal_l1_batch` on the tables, with its assertion. -/
def insertBatch (p : SequencerProcess σ T) (params : L1BatchParams) (updates : UpdatesManager)
    (prevTimestamp : U64) : Except RunPanic SequencerTables := do
  let miniblockCommand :=
    updates.sealMiniblockCommand p.currentL1BatchNumber p.currentMiniblockNumber
  let tables ← (s.tables.insertMiniblock miniblockCommand.header).mapError .dal
  if ¬ prevTimestamp < params.blockTimestamp then .error .timestampNotLarger
  else
    let tables ←
      (tables.insertL1Batch ⟨p.currentL1BatchNumber, params.blockTimestamp⟩).mapError .dal
    let tables := tables.markMiniblocksAsExecutedInL1Batch p.currentL1BatchNumber
    .ok { tables with
      transactions := markTxsAsExecutedInL1Batch tables.transactions p.currentL1BatchNumber
        updates.l1Batch.executedTransactions }

/-- `MempoolIO::seal_l1_batch`; it waits for the queue and for the previous batch. -/
def sealL1Batch (p : SequencerProcess σ T) (params : L1BatchParams) (updates : UpdatesManager) :
    Option (Except RunPanic (RunState σ T)) :=
  if updates.batchTimestamp ≠ params.blockTimestamp then some (.error .batchTimestampsDontMatch)
  else
    match p.commands, s.tables.prevL1BatchTimestamp p.currentL1BatchNumber with
    | [], some prevTimestamp => some do
      let tables ← s.insertBatch p params updates prevTimestamp
      .ok {
        tables := tables
        process := some {
          currentL1BatchNumber := succU32 p.currentL1BatchNumber
          currentMiniblockNumber := succU32 p.currentMiniblockNumber
          commands := []
          phase := .waiting (some updates.protocolVersion) }
        panic := s.panic
        stored := none }
    | _, _ => none

/-- The miniblock sealer writes the first command of the queue. -/
def writeMiniblock (p : SequencerProcess σ T) (submission : Submission)
    (commands : List Submission) : Except RunPanic (RunState σ T) := do
  let tables ← (s.tables.insertMiniblock submission.command.header).mapError .dal
  let transactions ← (markTxsAsExecutedInMiniblock tables.transactions
    submission.command.miniblockNumber
    submission.command.miniblock.executedTransactions).mapError .dal
  .ok {
    tables := { tables with transactions := transactions }
    process := some { p with commands := commands }
    panic := s.panic
    stored := some submission.updates }

/-- The `transactions` table after a statement of another component. -/
def execute (table : List TransactionRow) : TableStatement → Option (List TransactionRow)
  | .submitTx tx => (insertTransactionL2 table tx).toOption.map Prod.snd
  | .removeStuckTxs since => some (removeStuckTxs table since)
  | .resetMempool => some (resetMempool table)
  | .releaseStashed stashedAccounts => some (releaseStashed table stashedAccounts)
  | .deletePurged purgedAccounts => some (deletePurged table purgedAccounts)
  | .selectRows scan limit =>
    if scan.isPerm table then some (selectRows table (selectedHashes scan limit)).1 else none

/-- A step that is due, or its panic. -/
def advance : RunAction σ → Option (Except RunPanic (RunState σ T))
  | .start scan previousBlockHash executor attempts =>
    if s.process.isNone && scan.isPerm s.tables.transactions then
      some (s.start env scan previousBlockHash executor attempts)
    else none
  | .newBatch previousBlockHash protocolVersion upgradeTx executor attempts =>
    s.process.bind fun p =>
      match p.phase with
      | .waiting sealedBatchProtocolVersion =>
        some (s.newBatch env p sealedBatchProtocolVersion previousBlockHash protocolVersion
          upgradeTx executor attempts)
      | _ => none
  | .checkDeadlines batchDeadlinePassed miniblockDeadlinePassed attempts =>
    s.process.bind fun p =>
      match p.phase with
      | .processing params batch =>
        some (s.checkDeadlines p params batch batchDeadlinePassed miniblockDeadlinePassed attempts)
      | _ => none
  | .nextTx tx =>
    s.process.bind fun p =>
      match p.phase with
      | .processing params batch => some (s.nextTx env p params batch tx)
      | _ => none
  | .finish attempts =>
    s.process.bind fun p =>
      match p.phase with
      | .finishing params batch => some (s.finish env p params batch attempts)
      | _ => none
  | .sealL1Batch =>
    s.process.bind fun p =>
      match p.phase with
      | .sealing params finished => s.sealL1Batch p params finished.updates
      | _ => none
  | .writeMiniblock =>
    s.process.bind fun p =>
      match p.commands with
      | submission :: commands => some (s.writeMiniblock p submission commands)
      | [] => none
  | .cancel => s.process.map fun p => .ok (s.atPhase p .stopped)
  | .crash => some (.ok (s.down s.panic))
  | .statement statement => (execute s.tables.transactions statement).map fun transactions =>
      .ok { s with tables := { s.tables with transactions := transactions } }

/-- One step; a panic ends the process. -/
def step (action : RunAction σ) : Option (RunState σ T) :=
  (s.advance env action).map fun result =>
    match result with
    | .ok s' => s'
    | .error panic => s.down (some panic)

/-- The genesis batch and its miniblock, with no executed transaction. -/
structure Initial : Prop where
  miniblocks : ∃ protocolVersion, s.tables.miniblocks = [⟨0, 0, some protocolVersion, some 0⟩]
  l1Batches : s.tables.l1Batches = [⟨0, 0⟩]
  transactions : ∀ row ∈ s.tables.transactions,
    row.miniblockNumber = none ∧ row.l1BatchNumber = none
  apart : s.tables.transactions.Pairwise Apart
  process : s.process = none
  panic : s.panic = none
  stored : s.stored = none

/-- The database of a new node. -/
def newNode : RunState σ T where
  tables := ⟨[⟨0, 0, some 0, some 0⟩], [⟨0, 0⟩], []⟩
  process := none

theorem newNode_initial : (newNode : RunState σ T).Initial where
  miniblocks := ⟨0, rfl⟩
  l1Batches := rfl
  transactions _ hrow := nomatch hrow
  apart := .nil
  process := rfl
  panic := rfl
  stored := rfl

/-- The `transactions` table after the given actions of a new node. -/
def tableAfter (actions : List (RunAction σ)) : List TransactionRow :=
  ((Transition.run (fun s action => s.step env action) (newNode : RunState σ T) actions).map
    fun s => s.tables.transactions).getD []

/-- A transaction with an initiator and a hash of its own. -/
def sampleTx (n : U256) : L2Tx :=
  ⟨⟨.zero, [], none⟩, ⟨0, u256ToH256 n, List.replicate 64 0, .olaRawTransaction,
    some ⟨u256ToH256 n, []⟩⟩, 0⟩

/-- Three transactions are submitted and enter the mempool. -/
def sampleFetched : List (RunAction σ) :=
  let submitted := [.statement (.submitTx (sampleTx 1)), .statement (.submitTx (sampleTx 2)),
    .statement (.submitTx (sampleTx 3))]
  submitted ++ [.statement (.selectRows (tableAfter env submitted) 10)]

end RunState

end OlaOs
