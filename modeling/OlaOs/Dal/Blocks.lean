import Mathlib.Data.List.SplitBy
import OlaOs.Dal.Transactions
import OlaOs.Sequencer.ProcessBatch

/-! The rows of miniblocks and batches that a restarted sequencer reads (`dal/src/blocks_dal.rs`),
and the transactions that it executes again (`get_miniblocks_to_reexecute` in
`dal/src/transactions_dal.rs`). -/
namespace OlaOs

/-- A row of `miniblocks`, with its header. -/
structure MiniblockHeaderRow where
  number : ℕ
  timestamp : U64
  protocolVersion : Option ProtocolVersionId
  l1BatchNumber : Option ℤ
  deriving DecidableEq

/-- The update of `mark_miniblocks_as_executed_in_l1_batch`, which casts the number to `i32`. -/
def MiniblockHeaderRow.markBatch (row : MiniblockHeaderRow) (l1BatchNumber : ℕ) :
    MiniblockHeaderRow :=
  { row with l1BatchNumber := row.l1BatchNumber.or (some (asI32 l1BatchNumber)) }

structure L1BatchRow where
  number : ℕ
  timestamp : U64
  deriving DecidableEq

structure SequencerTables where
  miniblocks : List MiniblockHeaderRow
  l1Batches : List L1BatchRow
  transactions : List TransactionRow
  deriving DecidableEq

/-- `n as u32`, for a column. -/
def asU32 (n : ℤ) : ℕ := (n % 2 ^ 32).toNat

namespace SequencerTables

variable (t : SequencerTables)

def insertMiniblock (row : MiniblockHeaderRow) : Except DalPanic SequencerTables :=
  if t.miniblocks.any fun other => other.number = row.number then .error .uniqueViolation
  else .ok { t with miniblocks := t.miniblocks ++ [row] }

def insertL1Batch (row : L1BatchRow) : Except DalPanic SequencerTables :=
  if t.l1Batches.any fun other => other.number = row.number then .error .uniqueViolation
  else .ok { t with l1Batches := t.l1Batches ++ [row] }

def markMiniblocksAsExecutedInL1Batch (l1BatchNumber : ℕ) : SequencerTables :=
  { t with miniblocks := t.miniblocks.map (·.markBatch l1BatchNumber) }

/-- `get_sealed_miniblock_number`; zero without a miniblock. -/
def getSealedMiniblockNumber : ℕ := (t.miniblocks.map MiniblockHeaderRow.number).max?.getD 0

/-- The number of `get_newest_l1_batch_header`, which fails on an empty table. -/
def getNewestL1BatchNumber : Option ℕ := (t.l1Batches.map L1BatchRow.number).max?

/-- The last miniblock of `get_miniblock_range_of_l1_batch`. -/
def lastMiniblockOfL1Batch (l1BatchNumber : ℕ) : Option ℕ :=
  ((t.miniblocks.filter fun row => row.l1BatchNumber = some (l1BatchNumber : ℤ)).map
    MiniblockHeaderRow.number).max?

def getMiniblockHeader (miniblockNumber : ℕ) : Option MiniblockHeaderRow :=
  t.miniblocks.find? fun row => row.number = miniblockNumber

def getMiniblockTimestamp (miniblockNumber : ℕ) : Option U64 :=
  (t.getMiniblockHeader miniblockNumber).map MiniblockHeaderRow.timestamp

/-- The timestamp that `wait_for_prev_l1_batch_params` waits for. -/
def prevL1BatchTimestamp (number : ℕ) : Option U64 :=
  if number = 0 then some 0
  else (t.l1Batches.find? fun row => row.number = number - 1).map L1BatchRow.timestamp

end SequencerTables

namespace TransactionsDal

/-- The rows with a miniblock and without a batch. -/
def isPending (row : TransactionRow) : Bool :=
  row.miniblockNumber.isSome && row.l1BatchNumber.isNone

/-- `ORDER BY miniblock_number, index_in_block`, missing indices last. -/
def executedBefore (a b : TransactionRow) : Bool :=
  if a.miniblockNumber = b.miniblockNumber then
    match a.indexInBlock, b.indexInBlock with
    | some i, some j => i ≤ j
    | some _, none => true
    | none, some _ => false
    | none, none => true
  else a.miniblockNumber.getD 0 < b.miniblockNumber.getD 0

/-- The rows of the first query, when it reads the table in the order `scan`, by miniblocks. -/
def pendingGroups (scan : List TransactionRow) : List (List TransactionRow) :=
  ((scan.filter isPending).insertionSort fun a b => executedBefore a b = true).splitBy fun a b =>
    a.miniblockNumber = b.miniblockNumber

/-- The miniblock of a group. -/
def groupNumber (group : List TransactionRow) : ℕ :=
  asU32 ((group.head?.bind TransactionRow.miniblockNumber).getD 0)

/-- `SELECT timestamp FROM miniblocks WHERE number BETWEEN .. AND .. ORDER BY number` -/
def timestampsBetween (miniblocks : List MiniblockHeaderRow) (fromMiniblock toMiniblock : ℕ) :
    List U64 :=
  ((miniblocks.filter fun row =>
      decide (fromMiniblock ≤ row.number) && decide (row.number ≤ toMiniblock)).insertionSort
    fun a b => a.number ≤ b.number).map MiniblockHeaderRow.timestamp

def getMiniblocksToReexecute (scan : List TransactionRow) (miniblocks : List MiniblockHeaderRow) :
    Except DalPanic (List MiniblockReexecuteData) := do
  let transactionsByMiniblock ← (pendingGroups scan).mapM fun group => do
    let txs ← group.mapM rowToTransaction
    .ok (groupNumber group, txs)
  match transactionsByMiniblock.head?, transactionsByMiniblock.getLast? with
  | some first, some last =>
    let timestamps := timestampsBetween miniblocks first.1 last.1
    .ok (transactionsByMiniblock.zipWith (fun group timestamp => ⟨group.1, timestamp, group.2⟩)
      timestamps)
  | _, _ => .ok []

end TransactionsDal

end OlaOs
