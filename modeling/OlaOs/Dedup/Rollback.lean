import OlaOs.Dedup.WritesDeduplicator

/-! What one write log does to the write counters, what rolling it back restores, and what two
deduplicators with different pasts make of the same logs. -/
namespace OlaOs

namespace StorageLogQuery

def isWriteInitial (log : StorageLogQuery) : Bool := decide (log.logType = .initialWrite)

/-- The value of the slot after the log. -/
def newValue (log : StorageLogQuery) : U256 :=
  if log.logQuery.rollback then log.logQuery.readValue else log.logQuery.writtenValue

end StorageLogQuery

/-- The value that the first write to a slot reads. -/
def firstRead (logs : List StorageLogQuery) (key : StorageKey) : Option U256 :=
  (logs.find? fun log => log.logQuery.rwFlag && decide (log.logQuery.storageKey = key)).map
    fun log => log.logQuery.readValue

theorem firstRead_append (logs logs' : List StorageLogQuery) (key : StorageKey) :
    firstRead (logs ++ logs') key = (firstRead logs key).or (firstRead logs' key) := by
  unfold firstRead
  rw [List.find?_append, Option.map_or]

theorem firstRead_cons_of_read {log : StorageLogQuery} (h : log.logQuery.rwFlag = false)
    (logs : List StorageLogQuery) (key : StorageKey) :
    firstRead (log :: logs) key = firstRead logs key := by
  simp [firstRead, h]

theorem firstRead_cons_of_write {log : StorageLogQuery} (h : log.logQuery.rwFlag = true)
    (logs : List StorageLogQuery) (key : StorageKey) :
    firstRead (log :: logs) key =
      if key = log.logQuery.storageKey then some log.logQuery.readValue
      else firstRead logs key := by
  unfold firstRead
  by_cases hkey : key = log.logQuery.storageKey
  · simp [h, hkey]
  · simp [h, hkey, Ne.symm hkey]

theorem firstRead_isSome {logs : List StorageLogQuery} {log : StorageLogQuery} (h : log ∈ logs)
    (hrw : log.logQuery.rwFlag = true) :
    (firstRead logs log.logQuery.storageKey).isSome = true := by
  unfold firstRead
  rw [Option.isSome_map, List.find?_isSome]
  exact ⟨log, h, by simp [hrw]⟩

/-- The same changed slots, and the same counters. -/
structure SameWrites (d d' : StorageWritesDeduplicator) : Prop where
  modifiedKeys : d.modifiedKeys = d'.modifiedKeys
  metrics : d.metrics = d'.metrics

namespace StorageWritesDeduplicator

variable (d : StorageWritesDeduplicator)

/-- The value that the slot of a log had before its first write. -/
def initialValue (log : StorageLogQuery) : U256 :=
  (d.initialValues.lookup log.logQuery.storageKey).getD log.logQuery.readValue

/-- Does the log set a changed slot back to its initial value? -/
def restores (log : StorageLogQuery) : Bool :=
  decide (log.logQuery.storageKey ∈ d.modifiedKeys) && decide (d.initialValue log = log.newValue)

/-- Does the log change a slot that had its initial value? -/
def modifies (log : StorageLogQuery) : Bool :=
  decide (log.logQuery.storageKey ∉ d.modifiedKeys) && decide (d.initialValue log ≠ log.newValue)

/-- The three cases of a write log. -/
theorem processLog_cases (log : StorageLogQuery) :
    (d.restores log = true ∧ d.modifies log = false ∧
      log.logQuery.storageKey ∈ d.modifiedKeys ∧ d.initialValue log = log.newValue ∧
      d.processLog log =
        ({ initialValues := d.initialValues.insert log.logQuery.storageKey (d.initialValue log)
           modifiedKeys := d.modifiedKeys.erase log.logQuery.storageKey
           metrics := d.metrics.change log.isWriteInitial (· - 1) },
          [⟨log.logQuery.storageKey, false, log.isWriteInitial⟩])) ∨
    (d.restores log = false ∧ d.modifies log = true ∧
      log.logQuery.storageKey ∉ d.modifiedKeys ∧ d.initialValue log ≠ log.newValue ∧
      d.processLog log =
        ({ initialValues := d.initialValues.insert log.logQuery.storageKey (d.initialValue log)
           modifiedKeys := insert log.logQuery.storageKey d.modifiedKeys
           metrics := d.metrics.change log.isWriteInitial (· + 1) },
          [⟨log.logQuery.storageKey, true, log.isWriteInitial⟩])) ∨
    (d.restores log = false ∧ d.modifies log = false ∧
      (log.logQuery.storageKey ∈ d.modifiedKeys ↔ d.initialValue log ≠ log.newValue) ∧
      d.processLog log =
        ({ d with
           initialValues := d.initialValues.insert log.logQuery.storageKey (d.initialValue log) },
          [])) := by
  have hnow : (if log.logQuery.rollback then
        decide (d.initialValue log ≠ log.logQuery.readValue)
      else decide (d.initialValue log ≠ log.logQuery.writtenValue)) =
        decide (d.initialValue log ≠ log.newValue) := by
    unfold StorageLogQuery.newValue
    cases log.logQuery.rollback <;> rfl
  have hisInitial : decide (log.logType = .initialWrite) = log.isWriteInitial := rfl
  have hvalue₀ : (d.initialValues.lookup log.logQuery.storageKey).getD log.logQuery.readValue =
      d.initialValue log := rfl
  unfold restores modifies
  unfold processLog
  simp only [hvalue₀, hnow, hisInitial]
  by_cases hmem : log.logQuery.storageKey ∈ d.modifiedKeys
  · by_cases hvalue : d.initialValue log = log.newValue
    · exact .inl (by simp [hmem, hvalue])
    · exact .inr (.inr (by simp [hmem, hvalue]))
  · by_cases hvalue : d.initialValue log = log.newValue
    · exact .inr (.inr (by simp [hmem, hvalue]))
    · exact .inr (.inl (by simp [hmem, hvalue]))

theorem initialValues_processLog (log : StorageLogQuery) :
    (d.processLog log).1.initialValues =
      d.initialValues.insert log.logQuery.storageKey (d.initialValue log) := by
  rcases d.processLog_cases log with ⟨-, -, -, -, heq⟩ | ⟨-, -, -, -, heq⟩ | ⟨-, -, -, heq⟩ <;>
    rw [heq]

/-- A slot is changed after a log if its value is not the initial one. -/
theorem modifiedKeys_processLog (log : StorageLogQuery) :
    (d.processLog log).1.modifiedKeys = if d.initialValue log ≠ log.newValue then
      insert log.logQuery.storageKey d.modifiedKeys
      else d.modifiedKeys.erase log.logQuery.storageKey := by
  rcases d.processLog_cases log with ⟨-, -, -, hvalue, heq⟩ | ⟨-, -, -, hvalue, heq⟩ |
    ⟨-, -, hmem, heq⟩
  · rw [heq, if_neg (not_not.mpr hvalue)]
  · rw [heq, if_pos hvalue]
  · rw [heq]
    split_ifs with hvalue
    · exact (Finset.insert_eq_of_mem (hmem.mpr hvalue)).symm
    · exact (Finset.erase_eq_of_notMem (mt hmem.mp hvalue)).symm

theorem metrics_processLog (log : StorageLogQuery) :
    (d.processLog log).1.metrics =
      if d.restores log then d.metrics.change log.isWriteInitial (· - 1)
      else if d.modifies log then d.metrics.change log.isWriteInitial (· + 1)
      else d.metrics := by
  rcases d.processLog_cases log with ⟨hrestores, -, -, -, heq⟩ |
    ⟨hrestores, hmodifies, -, -, heq⟩ | ⟨hrestores, hmodifies, -, heq⟩
  · rw [heq, if_pos hrestores]
  · rw [heq, if_neg (ne_true_of_eq_false hrestores), if_pos hmodifies]
  · rw [heq, if_neg (ne_true_of_eq_false hrestores), if_neg (ne_true_of_eq_false hmodifies)]

/-- The initial value of a slot that logs write to. -/
def initialValueIn (logs : List StorageLogQuery) (key : StorageKey) : Option U256 :=
  (d.initialValues.lookup key).or (firstRead logs key)

variable {d}

theorem initialValueIn_cons {log : StorageLogQuery} (h : log.logQuery.rwFlag = true)
    (logs : List StorageLogQuery) :
    d.initialValueIn (log :: logs) log.logQuery.storageKey = some (d.initialValue log) := by
  unfold initialValueIn initialValue
  rw [firstRead_cons_of_write h, if_pos rfl]
  cases d.initialValues.lookup log.logQuery.storageKey <;> rfl

/-- The first write to a slot is kept for good. -/
theorem initialValueIn_processLog {log : StorageLogQuery} (h : log.logQuery.rwFlag = true)
    (logs : List StorageLogQuery) (key : StorageKey) :
    (d.processLog log).1.initialValueIn logs key = d.initialValueIn (log :: logs) key := by
  by_cases hkey : key = log.logQuery.storageKey
  · rw [hkey, initialValueIn_cons h]
    unfold initialValueIn
    rw [initialValues_processLog, KeyedMap.lookup_insert_eq, if_pos rfl, Option.some_or]
  · unfold initialValueIn
    rw [initialValues_processLog, KeyedMap.lookup_insert_eq, if_neg hkey,
      firstRead_cons_of_write h, if_neg hkey]

theorem lookup_processStorageLogs (logs : List StorageLogQuery) (key : StorageKey) :
    (d.processStorageLogs logs).1.initialValues.lookup key = d.initialValueIn logs key := by
  induction logs generalizing d with
  | nil => exact Option.or_none.symm
  | cons log logs ih =>
    unfold processStorageLogs
    cases hrw : log.logQuery.rwFlag with
    | false =>
      unfold initialValueIn
      rw [firstRead_cons_of_read hrw]
      exact ih
    | true => exact ih.trans (initialValueIn_processLog hrw logs key)

variable (d)

theorem rollback_append (updates updates' : List UpdateItem) :
    d.rollback (updates ++ updates') = (d.rollback updates').rollback updates := by
  simp only [rollback, List.reverse_append, List.foldl_append]

theorem initialValues_rollback (updates : List UpdateItem) :
    (d.rollback updates).initialValues = d.initialValues := by
  unfold rollback
  induction updates.reverse generalizing d with
  | nil => rfl
  | cons item items ih =>
    rw [List.foldl_cons, ih]
    unfold undo
    split_ifs <;> rfl

theorem lookup_applyAndRollback (logs : List StorageLogQuery) (key : StorageKey) :
    (d.applyAndRollback logs).2.initialValues.lookup key = d.initialValueIn logs key := by
  unfold applyAndRollback
  rw [initialValues_rollback, lookup_processStorageLogs]

theorem rollback_insertion (key : StorageKey) (isWriteInitial : Bool) :
    d.rollback [⟨key, true, isWriteInitial⟩] = { d with
      modifiedKeys := d.modifiedKeys.erase key
      metrics := d.metrics.change isWriteInitial (· - 1) } := rfl

theorem rollback_removal (key : StorageKey) (isWriteInitial : Bool) :
    d.rollback [⟨key, false, isWriteInitial⟩] = { d with
      modifiedKeys := insert key d.modifiedKeys
      metrics := d.metrics.change isWriteInitial (· + 1) } := rfl

end StorageWritesDeduplicator

namespace DeduplicatedWritesMetrics

variable (metrics : DeduplicatedWritesMetrics) (isWriteInitial : Bool)

theorem change_sub_add :
    (metrics.change isWriteInitial (· - 1)).change isWriteInitial (· + 1) = metrics := by
  cases isWriteInitial <;> simp [change]

theorem change_add_sub :
    (metrics.change isWriteInitial (· + 1)).change isWriteInitial (· - 1) = metrics := by
  cases isWriteInitial <;> simp [change]

end DeduplicatedWritesMetrics

namespace SameWrites

open StorageWritesDeduplicator

variable {d d' : StorageWritesDeduplicator} {log : StorageLogQuery} {logs : List StorageLogQuery}

theorem trans {d'' : StorageWritesDeduplicator} (h : SameWrites d d') (h' : SameWrites d' d'') :
    SameWrites d d'' :=
  ⟨h.modifiedKeys.trans h'.modifiedKeys, h.metrics.trans h'.metrics⟩

/-- The updates of a log take it back. -/
theorem rollback_processLog (h : SameWrites d' (d.processLog log).1) :
    SameWrites (d'.rollback (d.processLog log).2) d := by
  obtain ⟨hkeys, hmetrics⟩ := h
  rcases d.processLog_cases log with ⟨-, -, hmem, -, heq⟩ | ⟨-, -, hmem, -, heq⟩ | ⟨-, -, -, heq⟩
  · rw [heq] at hkeys hmetrics ⊢
    rw [rollback_removal, hkeys, hmetrics]
    exact ⟨Finset.insert_erase hmem, d.metrics.change_sub_add _⟩
  · rw [heq] at hkeys hmetrics ⊢
    rw [rollback_insertion, hkeys, hmetrics]
    exact ⟨Finset.erase_insert hmem, d.metrics.change_add_sub _⟩
  · rw [heq] at hkeys hmetrics ⊢
    exact ⟨hkeys, hmetrics⟩

/-- The updates of a list of logs take it back, but for the initial values. -/
theorem rollback_processStorageLogs (h : SameWrites d' (d.processStorageLogs logs).1) :
    SameWrites (d'.rollback (d.processStorageLogs logs).2) d := by
  induction logs generalizing d with
  | nil => exact h
  | cons log logs ih =>
    unfold StorageWritesDeduplicator.processStorageLogs at h ⊢
    split_ifs at h ⊢ with hrw
    · rw [rollback_append]
      exact rollback_processLog (ih h)
    · exact ih h

theorem applyAndRollback (d : StorageWritesDeduplicator) (logs : List StorageLogQuery) :
    SameWrites (d.applyAndRollback logs).2 d :=
  rollback_processStorageLogs ⟨rfl, rfl⟩

/-- A log that sets its slot back for both, or for none. -/
theorem processLog (h : SameWrites d d')
    (hback : d.initialValue log = log.newValue ↔ d'.initialValue log = log.newValue) :
    SameWrites (d.processLog log).1 (d'.processLog log).1 := by
  refine ⟨?_, ?_⟩
  · rw [modifiedKeys_processLog, modifiedKeys_processLog, h.modifiedKeys]
    simp only [ne_eq, hback]
  · have hrestores : d.restores log = d'.restores log := by
      unfold restores
      rw [h.modifiedKeys, decide_eq_decide.mpr hback]
    have hmodifies : d.modifies log = d'.modifies log := by
      unfold modifies
      rw [h.modifiedKeys, decide_eq_decide.mpr (not_congr hback)]
    rw [metrics_processLog, metrics_processLog, hrestores, hmodifies, h.metrics]

/-- Logs that set their slots back for both, or for none. -/
theorem processStorageLogs (h : SameWrites d d')
    (hback : ∀ log ∈ logs, log.logQuery.rwFlag = true →
      (d.initialValueIn logs log.logQuery.storageKey = some log.newValue ↔
        d'.initialValueIn logs log.logQuery.storageKey = some log.newValue)) :
    SameWrites (d.processStorageLogs logs).1 (d'.processStorageLogs logs).1 := by
  induction logs generalizing d d' with
  | nil => exact h
  | cons log logs ih =>
    unfold StorageWritesDeduplicator.processStorageLogs
    cases hrw : log.logQuery.rwFlag with
    | false =>
      refine ih h fun log' hmem hwrite => ?_
      have hlog' := hback log' (List.mem_cons_of_mem _ hmem) hwrite
      unfold initialValueIn at hlog' ⊢
      rwa [firstRead_cons_of_read hrw] at hlog'
    | true =>
      have hlog := hback log List.mem_cons_self hrw
      rw [initialValueIn_cons hrw, initialValueIn_cons hrw, Option.some_inj,
        Option.some_inj] at hlog
      refine ih (h.processLog hlog) fun log' hmem hwrite => ?_
      rw [initialValueIn_processLog hrw, initialValueIn_processLog hrw]
      exact hback log' (List.mem_cons_of_mem _ hmem) hwrite

end SameWrites

/-- A write from `oldValue` to `newValue` of one slot. -/
def sampleWrite (logType : StorageLogQueryType) (oldValue newValue : U256) : StorageLogQuery :=
  ⟨sampleQuery 1 oldValue newValue true false, logType⟩

/-- A rolled back write leaves the value that it read: a write back to that value is then no
change. -/
example : ((({} : StorageWritesDeduplicator).applyAndRollback
      [sampleWrite .repeatedWrite 5 7]).2.apply [sampleWrite .repeatedWrite 4 5]).metrics = ⟨0, 0⟩ ∧
    (({} : StorageWritesDeduplicator).apply [sampleWrite .repeatedWrite 4 5]).metrics = ⟨0, 1⟩ := by
  decide +kernel

end OlaOs
