import Mathlib.Data.List.SplitBy
import OlaOs.Dal.StorageLogs

/-! Sealing miniblocks and batches (`sequencer/io/seal_logic.rs`, `sequencer/io/mempool.rs`) and the
genesis batch (`genesis.rs`), as far as they concern storage logs and events. The statements on the
other tables, the wait for the previous state root and the check of timestamps only decide whether a
batch is sealed; the comparison with the running write counters comes after the commit. -/
namespace OlaOs

def StorageLog.newReadLog (key : StorageKey) (value : H256) : StorageLog := ⟨.read, key, value⟩

def StorageLog.newWriteLog (key : StorageKey) (value : H256) : StorageLog := ⟨.write, key, value⟩

def StorageLog.fromLogQuery (log : StorageLogQuery) : StorageLog :=
  let key := log.logQuery.storageKey
  if log.logQuery.rwFlag then
    if log.logQuery.rollback then newWriteLog key (u256ToH256 log.logQuery.readValue)
    else newWriteLog key (u256ToH256 log.logQuery.writtenValue)
  else newReadLog key (u256ToH256 log.logQuery.readValue)

structure MiniblockSealCommand where
  l1BatchNumber : ℕ
  miniblockNumber : ℕ
  miniblock : MiniblockUpdates
  firstTxIndex : ℕ
  protocolVersion : ProtocolVersionId

/-- The transaction of a group of events. -/
structure IncludedTxLocation where
  txHash : H256
  txIndexInMiniblock : ℕ
  txInitiatorAddress : Address

namespace MiniblockSealCommand

def assertValidMiniblock (command : MiniblockSealCommand) (isFictive : Bool) :
    Except String Unit :=
  if command.miniblock.executedTransactions.isEmpty ≠ isFictive then
    .error "assertion `left == right` failed"
  else
    let firstTxIndex := command.firstTxIndex
    let nextTxIndex := firstTxIndex + command.miniblock.executedTransactions.length
    let (start, stop) := if isFictive then (nextTxIndex, nextTxIndex + 1)
      else (firstTxIndex, nextTxIndex)
    if command.miniblock.events.all fun event =>
      start ≤ event.location.2.val && event.location.2.val < stop
    then
      if command.miniblock.storageLogs.all fun log =>
        start ≤ log.logQuery.txNumberInBlock.val && log.logQuery.txNumberInBlock.val < stop
      then .ok () else .error "assertion failed: tx_index_range.contains(&tx_index)"
    else .error "assertion failed: tx_index_range.contains(&tx_index)"

/-- A transaction of the miniblock, by its index in the batch. -/
def transaction (command : MiniblockSealCommand) (index : ℕ) : Except String Transaction :=
  if index < command.firstTxIndex then .error "attempt to subtract with overflow"
  else
    match command.miniblock.executedTransactions[index - command.firstTxIndex]? with
    | none => .error "index out of bounds"
    | some txResult => .ok txResult.transaction

/-- `hash` of a transaction, which panics without input data. -/
def hashOf (tx : Transaction) : Except String H256 :=
  match tx.hash with
  | some hash => .ok hash
  | none => .error "Transaction must have input data"

/-- The transaction hash of a group of logs; the fictive miniblock has none. -/
def groupHash (command : MiniblockSealCommand) (isFictive : Bool) (txIndex : ℕ) :
    Except String H256 :=
  if isFictive then
    if txIndex = command.firstTxIndex then .ok .zero else .error "assertion `left == right` failed"
  else do
    let tx ← command.transaction txIndex
    hashOf tx

/-- The write logs of a miniblock, by runs of one transaction. -/
def extractWriteLogs (command : MiniblockSealCommand) (isFictive : Bool) :
    Except String (List (H256 × List StorageLog)) :=
  (command.miniblock.storageLogs.splitBy fun a b =>
    a.logQuery.txNumberInBlock = b.logQuery.txNumberInBlock).mapM fun group => do
      let txIndex := (group.head?.map fun log => log.logQuery.txNumberInBlock.val).getD 0
      let txHash ← command.groupHash isFictive txIndex
      return (txHash, (group.filter fun log => log.logQuery.rwFlag).map StorageLog.fromLogQuery)

/-- The hash and the initiator of the transaction of a group of entries. -/
def groupLocation (command : MiniblockSealCommand) (isFictive : Bool) (txIndex : ℕ) :
    Except String (H256 × Address) :=
  if isFictive then
    if txIndex = command.firstTxIndex then .ok (.zero, .zero)
    else .error "assertion `left == right` failed"
  else do
    let tx ← command.transaction txIndex
    let hash ← hashOf tx
    return (hash, tx.initiatorAccount)

/-- Entries by runs of one transaction, with where it is included. -/
def groupByTxLocation {α : Type} (command : MiniblockSealCommand) (entries : List α)
    (isFictive : Bool) (txLocation : α → ℕ) : Except String (List (IncludedTxLocation × List α)) :=
  (entries.splitBy fun a b => txLocation a = txLocation b).mapM fun group => do
    let txIndex := (group.head?.map txLocation).getD 0
    let (txHash, txInitiatorAddress) ← command.groupLocation isFictive txIndex
    -- the index is not below the first one here: `groupLocation` would have panicked
    return (⟨txHash, txIndex - command.firstTxIndex, txInitiatorAddress⟩, group)

def extractEvents (command : MiniblockSealCommand) (isFictive : Bool) :
    Except String (List (IncludedTxLocation × List VmEvent)) :=
  command.groupByTxLocation command.miniblock.events isFictive fun event => event.location.2.val

def sealInner (hash : List UInt8 → H256) (command : MiniblockSealCommand) (storage : StorageTables)
    (isFictive : Bool) : Except String StorageTables := do
  command.assertValidMiniblock isFictive
  let transaction ← storage.insertMiniblock command.miniblockNumber
  let writeLogs ← command.extractWriteLogs isFictive
  let transaction ← transaction.insertStorageLogs hash command.miniblockNumber writeLogs
  let _ ← command.extractEvents isFictive
  return transaction

end MiniblockSealCommand

namespace UpdatesManager

def extendFromFictiveTransaction (updates : UpdatesManager)
    (result : VmPartialExecutionResult) : UpdatesManager :=
  { updates with
    storageWritesDeduplicator := updates.storageWritesDeduplicator.apply result.storageLogs
    miniblock := { updates.miniblock with
      events := updates.miniblock.events ++ result.events
      storageLogs := updates.miniblock.storageLogs ++ result.storageLogs } }

def sealMiniblockCommand (updates : UpdatesManager) (l1BatchNumber miniblockNumber : ℕ) :
    MiniblockSealCommand where
  l1BatchNumber := l1BatchNumber
  miniblockNumber := miniblockNumber
  miniblock := updates.miniblock
  firstTxIndex := updates.l1Batch.executedTransactions.length
  protocolVersion := updates.protocolVersion

/-- The end of `seal_l1_batch`: the deduplicated queries go into `protective_reads` and
`initial_writes`. -/
def insertDeduplicated (hash : List UInt8 → H256) (transaction : StorageTables)
    (currentL1BatchNumber : ℕ) (dedupedLogQueries : List LogQuery) :
    Except String StorageTables := do
  let (deduplicatedWrites, protectiveReads) := dedupedLogQueries.partition LogQuery.rwFlag
  let transaction ← transaction.insertProtectiveReads currentL1BatchNumber protectiveReads
  let nonInitialWrites := transaction.filterWrittenSlots
    (deduplicatedWrites.map fun log => log.storageKey.hashedKey hash)
  let writtenStorageKeys := (deduplicatedWrites.map LogQuery.storageKey).filter
    fun key => key.hashedKey hash ∉ nonInitialWrites
  let transaction ← setMissingInitialWritesIndices hash transaction
  transaction.insertInitialWrites hash currentL1BatchNumber writtenStorageKeys

def sealL1Batch (hash : List UInt8 → H256) (updates : UpdatesManager) (storage : StorageTables)
    (currentMiniblockNumber currentL1BatchNumber : ℕ) (blockResult : VmBlockResult) :
    Except String StorageTables := do
  let updates := updates.extendFromFictiveTransaction blockResult.blockTipResult
  let miniblockCommand := updates.sealMiniblockCommand currentL1BatchNumber currentMiniblockNumber
  let transaction ← miniblockCommand.sealInner hash storage true
  let (_, dedupedLogQueries) ← sortStorageAccessQueries
    (blockResult.fullResult.storageLogQueries.map StorageLogQuery.logQuery)
  let transaction ← transaction.insertL1Batch ⟨currentL1BatchNumber, true⟩
  let transaction := transaction.markMiniblocksAsExecutedInL1Batch currentL1BatchNumber
  insertDeduplicated hash transaction currentL1BatchNumber dedupedLogQueries

end UpdatesManager

/-- What the sequencer holds between two steps: its numbers and the batch in progress, and the
database. -/
structure SequencerIo where
  storage : StorageTables
  currentMiniblockNumber : ℕ
  currentL1BatchNumber : ℕ
  updates : UpdatesManager

namespace SequencerIo

/-- A miniblock is sealed, and the next one started. The numbers are `u32`. -/
def sealMiniblock (hash : List UInt8 → H256) (io : SequencerIo) (newTimestamp : U64) :
    Except String SequencerIo := do
  let command := io.updates.sealMiniblockCommand io.currentL1BatchNumber io.currentMiniblockNumber
  let storage ← command.sealInner hash io.storage false
  return { io with
    storage := storage
    currentMiniblockNumber := (io.currentMiniblockNumber + 1) % 2 ^ 32
    updates := io.updates.pushMiniblock newTimestamp }

/-- A batch is sealed with its fictive miniblock, and the next one started. -/
def sealL1Batch (hash : List UInt8 → H256) (io : SequencerIo) (blockResult : VmBlockResult)
    (batchTimestamp : U64) (protocolVersion : ProtocolVersionId) : Except String SequencerIo := do
  let storage ← io.updates.sealL1Batch hash io.storage io.currentMiniblockNumber
    io.currentL1BatchNumber blockResult
  return {
    storage := storage
    currentMiniblockNumber := (io.currentMiniblockNumber + 1) % 2 ^ 32
    currentL1BatchNumber := (io.currentL1BatchNumber + 1) % 2 ^ 32
    updates := .new batchTimestamp protocolVersion }

end SequencerIo

namespace Genesis

/-- The query for log `logIndex` of the group `txIndex`. -/
def logQuery (txIndex logIndex : ℕ) (storageLog : StorageLog) : LogQuery where
  timestamp := Fin.ofNat _ (txIndex * 2 ^ 16 + logIndex)
  txNumberInBlock := Fin.ofNat _ txIndex
  auxByte := 0
  shardId := 0
  address := storageLog.key.account
  key := h256ToU256 storageLog.key.key
  readValue := h256ToU256 .zero
  writtenValue := h256ToU256 storageLog.value
  rwFlag := storageLog.kind = .write
  rollback := false
  isService := false

def logQueries (storageLogs : List (H256 × List StorageLog)) : List LogQuery :=
  storageLogs.zipIdx.flatMap fun (entry, txIndex) =>
    entry.2.zipIdx.map fun (storageLog, logIndex) => logQuery txIndex logIndex storageLog

/-- `insert_system_contracts`, from the write logs of the system contracts and of the system
context on. -/
def insertSystemContracts (hash : List UInt8 → H256) (storage : StorageTables)
    (storageLogs : List (H256 × List StorageLog)) : Except String StorageTables := do
  let transaction ← storage.insertStorageLogs hash 0 storageLogs
  let (_, dedupedLogQueries) ← sortStorageAccessQueries (logQueries storageLogs)
  let (deduplicatedWrites, protectiveReads) := dedupedLogQueries.partition LogQuery.rwFlag
  let transaction ← transaction.insertProtectiveReads 0 protectiveReads
  transaction.insertInitialWrites hash 0 (deduplicatedWrites.map LogQuery.storageKey)

def createGenesisL1Batch (hash : List UInt8 → H256) (storage : StorageTables)
    (storageLogs : List (H256 × List StorageLog)) : Except String StorageTables := do
  let transaction ← storage.insertL1Batch ⟨0, true⟩
  let transaction ← transaction.insertMiniblock 0
  let transaction := transaction.markMiniblocksAsExecutedInL1Batch 0
  insertSystemContracts hash transaction storageLogs

end Genesis

end OlaOs
