import OlaOs.Sequencer.SealLogic

/-! The table `events` (`dal/src/events_dal.rs`) and the logs that the API makes of its rows
(`dal/src/models/storage_event.rs`). -/
namespace OlaOs

/-- A row of `events`, without its timestamps. A topic column without bytes is no topic. -/
structure EventRow where
  miniblockNumber : ℕ
  txHash : H256
  txIndexInBlock : ℕ
  address : Address
  eventIndexInBlock : ℕ
  eventIndexInTx : ℕ
  topic1 : Option H256
  topic2 : Option H256
  topic3 : Option H256
  topic4 : Option H256
  value : List UInt8
  txInitiatorAddress : Address
  deriving DecidableEq

namespace Api

/-- `api::Log`; the numbers are `U64` and `U256`. -/
structure Log where
  address : H256
  topics : List H256
  data : List UInt8
  blockHash : Option H256
  blockNumber : Option ℕ
  l1BatchNumber : Option ℕ
  transactionHash : Option H256
  transactionIndex : Option ℕ
  logIndex : Option ℕ
  transactionLogIndex : Option ℕ
  logType : Option String
  removed : Option Bool
  deriving DecidableEq

end Api

/-- `From<StorageWeb3Log> for Log`. The columns of a block hash and a batch are null. The index in
the transaction is that in the block here too. -/
def EventRow.intoLog (row : EventRow) : Api.Log where
  address := row.address
  topics := [row.topic1, row.topic2, row.topic3, row.topic4].filterMap id
  data := row.value
  blockHash := none
  blockNumber := some (row.miniblockNumber % 2 ^ 32)
  l1BatchNumber := none
  transactionHash := some row.txHash
  transactionIndex := some row.txIndexInBlock
  logIndex := some row.eventIndexInBlock
  transactionLogIndex := some row.eventIndexInBlock
  logType := none
  removed := some false

namespace EventsDal

/-- The events of a miniblock with their places, the events of one transaction numbered from 0. -/
def locatedEvents (allBlockEvents : List (IncludedTxLocation × List VmEvent)) :
    List (IncludedTxLocation × VmEvent × ℕ) :=
  allBlockEvents.flatMap fun (txLocation, events) =>
    events.zipIdx.map fun (event, eventIndexInTx) => (txLocation, event, eventIndexInTx)

def eventRow (blockNumber : ℕ) (entry : (IncludedTxLocation × VmEvent × ℕ) × ℕ) : EventRow :=
  let ((txLocation, event, eventIndexInTx), eventIndexInBlock) := entry
  { miniblockNumber := blockNumber
    txHash := txLocation.txHash
    txIndexInBlock := txLocation.txIndexInMiniblock
    address := event.address
    eventIndexInBlock := eventIndexInBlock
    eventIndexInTx := eventIndexInTx
    topic1 := event.indexedTopics[0]?
    topic2 := event.indexedTopics[1]?
    topic3 := event.indexedTopics[2]?
    topic4 := event.indexedTopics[3]?
    value := event.value
    txInitiatorAddress := txLocation.txInitiatorAddress }

/-- `save_events`; the indices are `INT` columns. -/
def saveEvents (table : List EventRow) (blockNumber : ℕ)
    (allBlockEvents : List (IncludedTxLocation × List VmEvent)) : Except String (List EventRow) :=
  let rows := (locatedEvents allBlockEvents).zipIdx.map (eventRow blockNumber)
  if rows.all fun row => row.txIndexInBlock < 2 ^ 31 && row.eventIndexInBlock < 2 ^ 31 then
    insertRows (fun row : EventRow => (row.miniblockNumber, row.eventIndexInBlock)) table rows
  else .error "value is out of range for type integer"

/-- `ORDER BY miniblock_number ASC, event_index_in_block ASC` -/
def precedes (a b : EventRow) : Bool :=
  a.miniblockNumber < b.miniblockNumber ||
    (a.miniblockNumber = b.miniblockNumber && a.eventIndexInBlock ≤ b.eventIndexInBlock)

def orderedEvents (table : List EventRow) (p : EventRow → Bool) : List EventRow :=
  (table.filter p).mergeSort precedes

/-- `get_logs_by_tx_hashes` -/
def getLogsByTxHashes (table : List EventRow) (hashes : List H256) :
    KeyedMap H256 (List Api.Log) :=
  let storageLogs := orderedEvents table fun row => row.txHash ∈ hashes
  storageLogs.foldl (fun result storageLog =>
    result.insert storageLog.txHash
      ((result.lookup storageLog.txHash).getD [] ++ [storageLog.intoLog])) ∅

theorem lookup_collectLogs (rows : List EventRow) (txHash : H256) :
    (rows.foldl (fun (result : KeyedMap H256 (List Api.Log)) storageLog =>
      result.insert storageLog.txHash
        ((result.lookup storageLog.txHash).getD [] ++ [storageLog.intoLog])) ∅).lookup txHash =
      if (rows.filter fun row => row.txHash = txHash) = [] then none
      else some ((rows.filter fun row => row.txHash = txHash).map EventRow.intoLog) := by
  induction rows using List.reverseRecOn with
  | nil => rfl
  | append_singleton rows row ih =>
    rw [List.foldl_append, List.foldl_cons, List.foldl_nil, KeyedMap.lookup_insert_eq,
      List.filter_append]
    by_cases hrow : txHash = row.txHash
    · subst hrow
      rw [ih]
      split_ifs with hnil <;> simp_all
    · simp [hrow, Ne.symm hrow, ih]

/-- A hash among those that a query asks for. -/
theorem txHash_and_mem {hashes : List H256} {txHash : H256} (h : txHash ∈ hashes)
    (row : EventRow) : (decide (row.txHash = txHash) && decide (row.txHash ∈ hashes)) =
      decide (row.txHash = txHash) := by
  by_cases hrow : row.txHash = txHash
  · simp [hrow, h]
  · simp [hrow]

end EventsDal

end OlaOs
