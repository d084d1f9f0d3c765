import OlaOs.Dal.Transactions
import OlaOs.Lib.KeyedMap
import OlaOs.Types.Log

/-! The tables of miniblocks, storage logs, protective reads and initial writes
(`dal/migrations`), and the statements on them (`dal/src/blocks_dal.rs`, `storage_logs_dal.rs`,
`storage_logs_dedup_dal.rs`). A statement that fails is an error, since its result is unwrapped.
Foreign keys hold by the order in which the callers insert the rows. -/
namespace OlaOs

/-- A row of `storage_logs`, without its timestamps. -/
structure StorageLogRow where
  hashedKey : H256
  address : Address
  key : H256
  value : H256
  operationNumber : ℕ
  txHash : H256
  miniblockNumber : ℕ
  deriving DecidableEq

/-- A row of `miniblocks`: its number and the column that the sealing of a batch fills in. -/
structure MiniblockRow where
  number : ℕ
  l1BatchNumber : Option ℤ
  deriving DecidableEq

structure ProtectiveReadRow where
  l1BatchNumber : ℕ
  address : Address
  key : H256
  deriving DecidableEq

/-- A row of `initial_writes`. There are fewer than `2 ^ 63` indices, since every one belongs to a
row of `storage_logs` with its own `u32` miniblock number and `INT` operation number. -/
structure InitialWriteRow where
  hashedKey : H256
  l1BatchNumber : ℕ
  index : Option ℕ
  deriving DecidableEq

structure L1BatchHeader where
  number : ℕ
  isFinished : Bool
  deriving DecidableEq

structure StorageTables where
  l1Batches : List L1BatchHeader := []
  miniblocks : List MiniblockRow := []
  storageLogs : List StorageLogRow := []
  protectiveReads : List ProtectiveReadRow := []
  initialWrites : List InitialWriteRow := []
  deriving DecidableEq

/-- Add rows to a table with a primary key. -/
def insertRows {ρ κ : Type} [DecidableEq κ] (primaryKey : ρ → κ) (table rows : List ρ) :
    Except String (List ρ) :=
  if ((table ++ rows).map primaryKey).Nodup then .ok (table ++ rows)
  else .error "duplicate key value violates unique constraint"

namespace StorageLogRow

def storageKey (row : StorageLogRow) : StorageKey := ⟨row.address, row.key⟩

/-- `ORDER BY miniblock_number, operation_number` -/
def precedes (a b : StorageLogRow) : Bool :=
  a.miniblockNumber < b.miniblockNumber ||
    (a.miniblockNumber = b.miniblockNumber && a.operationNumber ≤ b.operationNumber)

end StorageLogRow

namespace StorageTables

variable (hash : List UInt8 → H256) (t : StorageTables)

/-! Blocks -/

def insertL1Batch (header : L1BatchHeader) : Except String StorageTables := do
  let l1Batches ← insertRows L1BatchHeader.number t.l1Batches [header]
  return { t with l1Batches := l1Batches }

def insertMiniblock (number : ℕ) : Except String StorageTables := do
  let miniblocks ← insertRows MiniblockRow.number t.miniblocks [⟨number, none⟩]
  return { t with miniblocks := miniblocks }

/-- `mark_miniblocks_as_executed_in_l1_batch` casts the number to `i32`. -/
def markMiniblocksAsExecutedInL1Batch (l1BatchNumber : ℕ) : StorageTables :=
  { t with miniblocks := t.miniblocks.map fun row =>
      { row with l1BatchNumber := row.l1BatchNumber.or (some (asI32 l1BatchNumber)) } }

def getSealedL1BatchNumber : Except String ℕ :=
  match ((t.l1Batches.filter L1BatchHeader.isFinished).map L1BatchHeader.number).max? with
  | some number => .ok number
  | none => .error "DAL invocation before genesis"

def getL1BatchHeader (number : ℕ) : Option L1BatchHeader :=
  t.l1Batches.find? fun header => header.number = number

/-- The numbers of the miniblocks of a batch. -/
def miniblocksOf (l1BatchNumber : ℕ) : List ℕ :=
  (t.miniblocks.filter fun row => row.l1BatchNumber = some (l1BatchNumber : ℤ)).map
    MiniblockRow.number

def getMiniblockRangeOfL1Batch (l1BatchNumber : ℕ) : Option (ℕ × ℕ) :=
  match (t.miniblocksOf l1BatchNumber).min?, (t.miniblocksOf l1BatchNumber).max? with
  | some min, some max => some (min, max)
  | _, _ => none

/-! Storage logs -/

/-- The rows for the logs of a miniblock, grouped by transaction. The operations of all groups are
numbered together, from 0 on. -/
def storageLogRows (blockNumber : ℕ) (logs : List (H256 × List StorageLog)) : List StorageLogRow :=
  ((logs.flatMap fun entry => entry.2.map fun log => (entry.1, log)).zipIdx).map
    fun ((txHash, log), operationNumber) =>
      ⟨log.key.hashedKey hash, log.key.account, log.key.key, log.value, operationNumber, txHash,
        blockNumber⟩

/-- `insert_storage_logs`; `operation_number` is an `INT`. -/
def insertStorageLogs (blockNumber : ℕ) (logs : List (H256 × List StorageLog)) :
    Except String StorageTables := do
  let rows := storageLogRows hash blockNumber logs
  if rows.length > 2 ^ 31 then .error "value is out of range for type integer"
  else
    let storageLogs ← insertRows
      (fun row => (row.hashedKey, row.miniblockNumber, row.operationNumber)) t.storageLogs rows
    return { t with storageLogs := storageLogs }

/-- The rows that satisfy a condition, in the order of the operations. -/
def orderedLogs (p : StorageLogRow → Bool) : List StorageLogRow :=
  (t.storageLogs.filter p).mergeSort StorageLogRow.precedes

/-- `get_touched_slots_for_l1_batch`; without a miniblock the bounds are `NULL` and no row
matches. -/
def getTouchedSlotsForL1Batch (l1BatchNumber : ℕ) : KeyedMap StorageKey H256 :=
  match (t.miniblocksOf l1BatchNumber).min?, (t.miniblocksOf l1BatchNumber).max? with
  | some min, some max =>
    let rows := t.orderedLogs fun row => min ≤ row.miniblockNumber && row.miniblockNumber ≤ max
    .ofList (rows.map fun row => (row.storageKey, row.value))
  | _, _ => ∅

def resolveHashedKeys (hashedKeys : List H256) : Except String (List StorageKey) :=
  hashedKeys.mapM fun hashedKey =>
    match (t.orderedLogs fun row => row.hashedKey = hashedKey).head? with
    | some row => .ok row.storageKey
    | none => .error "called `Option::unwrap()` on a `None` value"

def getStorageValues (hashedKeys : List H256) (miniblockNumber : ℕ) :
    KeyedMap H256 (Option H256) :=
  .ofList (hashedKeys.map fun hashedKey => (hashedKey,
    ((t.orderedLogs fun row => row.hashedKey = hashedKey &&
      row.miniblockNumber ≤ miniblockNumber).getLast?).map StorageLogRow.value))

def getPreviousStorageValues (hashedKeys : List H256) (nextL1Batch : ℕ) :
    Except String (KeyedMap H256 (Option H256)) :=
  match t.getMiniblockRangeOfL1Batch nextL1Batch with
  | none => .error "called `Option::unwrap()` on a `None` value"
  | some (miniblockNumber, _) =>
    if miniblockNumber = 0 then .ok (.ofList (hashedKeys.map fun hashedKey => (hashedKey, none)))
    else .ok (t.getStorageValues hashedKeys (miniblockNumber - 1))

/-! Protective reads and initial writes -/

def insertProtectiveReads (l1BatchNumber : ℕ) (readLogs : List LogQuery) :
    Except String StorageTables := do
  let protectiveReads ← insertRows
    (fun row : ProtectiveReadRow => (row.address, row.key, row.l1BatchNumber)) t.protectiveReads
    (readLogs.map fun log => ⟨l1BatchNumber, log.address, u256ToH256 log.key⟩)
  return { t with protectiveReads := protectiveReads }

/-- The set of keys, in the order of the rows. -/
def getProtectiveReadsForL1Batch (l1BatchNumber : ℕ) : List StorageKey :=
  ((t.protectiveReads.filter fun row => row.l1BatchNumber = l1BatchNumber).map
    fun row => (⟨row.address, row.key⟩ : StorageKey)).dedup

/-- `max_set_enumeration_index`: the row with the greatest index. -/
def maxSetEnumerationIndex : Option (ℕ × ℕ) :=
  ((t.initialWrites.filterMap fun row => row.index.map fun index =>
    (index, row.l1BatchNumber)).mergeSort fun a b => b.1 ≤ a.1).head?

def insertInitialWrites (l1BatchNumber : ℕ) (writtenStorageKeys : List StorageKey) :
    Except String StorageTables := do
  let hashedKeys := writtenStorageKeys.map (StorageKey.hashedKey hash)
  let lastIndex := (t.maxSetEnumerationIndex.map Prod.fst).getD 0
  let initialWrites ← insertRows InitialWriteRow.hashedKey t.initialWrites
    ((hashedKeys.zipIdx (lastIndex + 1)).map fun (hashedKey, index) =>
      ⟨hashedKey, l1BatchNumber, some index⟩)
  return { t with initialWrites := initialWrites }

def filterWrittenSlots (hashedKeys : List H256) : List H256 :=
  (t.initialWrites.filter fun row => row.hashedKey ∈ hashedKeys).map InitialWriteRow.hashedKey

/-- `ORDER BY index`, with `NULL` last. -/
def indexPrecedes : Option ℕ → Option ℕ → Bool
  | some a, some b => a ≤ b
  | none, some _ => false
  | _, none => true

def initialWritesForBatch (l1BatchNumber : ℕ) : List (H256 × Option ℕ) :=
  ((t.initialWrites.filter fun row => row.l1BatchNumber = l1BatchNumber).map
    fun row => (row.hashedKey, row.index)).mergeSort fun a b => indexPrecedes a.2 b.2

def setIndicesForInitialWrites (indexedKeys : List (H256 × ℕ)) : StorageTables :=
  { t with initialWrites := t.initialWrites.map fun row =>
      match indexedKeys.find? fun e => e.1 = row.hashedKey with
      | some e => { row with index := some e.2 }
      | none => row }

end StorageTables

/-- One turn of the loop of `set_missing_initial_writes_indices`. -/
def setMissingIndicesOfBatch (hash : List UInt8 → H256) (state : StorageTables × ℕ)
    (currentL1Batch : ℕ) : Except String (StorageTables × ℕ) := do
  let hashedKeys := (state.1.initialWritesForBatch currentL1Batch).map Prod.fst
  let storageKeys ← state.1.resolveHashedKeys hashedKeys
  let indexedKeys := ((storageKeys.mergeSort fun a b => a ≤ b).zipIdx state.2).map
    fun (key, index) => (key.hashedKey hash, index)
  return (state.1.setIndicesForInitialWrites indexedKeys, state.2 + indexedKeys.length)

/-- `set_missing_initial_writes_indices` (`sequencer/io/common.rs`). The loop runs inside a
transaction that seals no batch. -/
def setMissingInitialWritesIndices (hash : List UInt8 → H256) (t : StorageTables) :
    Except String StorageTables := do
  let (nextIndex, startFromBatch) := match t.maxSetEnumerationIndex with
    | some (index, l1BatchNumber) => (index + 1, l1BatchNumber + 1)
    | none => (1, 0)
  let sealedBatch ← t.getSealedL1BatchNumber
  let (t, _) ← (List.range' startFromBatch (sealedBatch + 1 - startFromBatch)).foldlM
    (setMissingIndicesOfBatch hash) (t, nextIndex)
  return t

end OlaOs
