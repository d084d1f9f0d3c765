import Mathlib.Data.Finset.Card
import OlaOs.Dedup.SortSpec
import OlaOs.Lib.KeyedMap

/-! `StorageWritesDeduplicator` (`types/src/storage_writes_deduplicator.rs`): the number of slots
that a batch changes, kept up to date while its transactions come in. -/
namespace OlaOs

structure UpdateItem where
  key : StorageKey
  isInsertion : Bool
  isWriteInitial : Bool
  deriving DecidableEq

/-- The counters are integers, so that lowering one below zero stays visible. A `usize` that wraps
is the remainder of the counter by `2 ^ 64`; one that is checked panics below zero. -/
structure DeduplicatedWritesMetrics where
  initialStorageWrites : ℤ := 0
  repeatedStorageWrites : ℤ := 0
  deriving DecidableEq

/-- `field_to_change`, with the change. -/
def DeduplicatedWritesMetrics.change (metrics : DeduplicatedWritesMetrics) (isWriteInitial : Bool)
    (f : ℤ → ℤ) : DeduplicatedWritesMetrics :=
  if isWriteInitial then
    { metrics with initialStorageWrites := f metrics.initialStorageWrites }
  else { metrics with repeatedStorageWrites := f metrics.repeatedStorageWrites }

structure StorageWritesDeduplicator where
  initialValues : KeyedMap StorageKey U256 := ∅
  modifiedKeys : Finset StorageKey := ∅
  metrics : DeduplicatedWritesMetrics := {}

/-- The storage key of a query; it does not name the shard. -/
def LogQuery.storageKey (q : LogQuery) : StorageKey := ⟨q.address, u256ToH256 q.key⟩

namespace StorageWritesDeduplicator

/-- The body of the loop of `process_storage_logs`, for a log with `rw_flag`. -/
def processLog (d : StorageWritesDeduplicator) (log : StorageLogQuery) :
    StorageWritesDeduplicator × List UpdateItem :=
  let key := log.logQuery.storageKey
  let initialValue := (d.initialValues.lookup key).getD log.logQuery.readValue
  let d := { d with initialValues := d.initialValues.insert key initialValue }
  let wasKeyModified := decide (key ∈ d.modifiedKeys)
  let isKeyModified :=
    if log.logQuery.rollback then decide (initialValue ≠ log.logQuery.readValue)
    else decide (initialValue ≠ log.logQuery.writtenValue)
  let isWriteInitial := decide (log.logType = .initialWrite)
  match wasKeyModified, isKeyModified with
  | true, false =>
    ({ d with
        modifiedKeys := d.modifiedKeys.erase key
        metrics := d.metrics.change isWriteInitial (· - 1) },
      [⟨key, false, isWriteInitial⟩])
  | false, true =>
    ({ d with
        modifiedKeys := insert key d.modifiedKeys
        metrics := d.metrics.change isWriteInitial (· + 1) },
      [⟨key, true, isWriteInitial⟩])
  | _, _ => (d, [])

def processStorageLogs (d : StorageWritesDeduplicator) :
    List StorageLogQuery → StorageWritesDeduplicator × List UpdateItem
  | [] => (d, [])
  | log :: logs =>
    if log.logQuery.rwFlag then
      let step := d.processLog log
      let rest := processStorageLogs step.1 logs
      (rest.1, step.2 ++ rest.2)
    else processStorageLogs d logs

/-- The body of the loop of `rollback`. -/
def undo (d : StorageWritesDeduplicator) (item : UpdateItem) : StorageWritesDeduplicator :=
  if item.isInsertion then
    { d with
      modifiedKeys := d.modifiedKeys.erase item.key
      metrics := d.metrics.change item.isWriteInitial (· - 1) }
  else
    { d with
      modifiedKeys := insert item.key d.modifiedKeys
      metrics := d.metrics.change item.isWriteInitial (· + 1) }

def rollback (d : StorageWritesDeduplicator) (updates : List UpdateItem) :
    StorageWritesDeduplicator :=
  updates.reverse.foldl undo d

def apply (d : StorageWritesDeduplicator) (logs : List StorageLogQuery) :
    StorageWritesDeduplicator :=
  (d.processStorageLogs logs).1

def applyAndRollback (d : StorageWritesDeduplicator) (logs : List StorageLogQuery) :
    DeduplicatedWritesMetrics × StorageWritesDeduplicator :=
  let result := d.processStorageLogs logs
  (result.1.metrics, result.1.rollback result.2)

def applyOnEmptyState (logs : List StorageLogQuery) : DeduplicatedWritesMetrics :=
  (apply {} logs).metrics

end StorageWritesDeduplicator

/-- The sanity check of `seal_l1_batch`: the deduplicated writes against the running counters, on
`usize`. -/
def sealWritesAgree (dedupedLogQueries : List LogQuery) (metrics : DeduplicatedWritesMetrics) :
    Bool :=
  decide ((dedupedLogQueries.filter LogQuery.rwFlag).length % 2 ^ 64 =
    (metrics.initialStorageWrites + metrics.repeatedStorageWrites) % 2 ^ 64)

end OlaOs
