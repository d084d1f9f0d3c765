import OlaOs.Dedup.SortSpec
import OlaOs.Sequencer.SealInvariant

/-! The storage logs of a sealed batch, read back for the tree
(`metadata_calculator/helpers.rs`). -/
namespace OlaOs

structure WitnessBlockWithLogs where
  header : L1BatchHeader
  storageLogs : List WitnessStorageLog
  deriving DecidableEq

namespace BlockLogs

/-- `previous_values[&hashed_key].unwrap_or_default()` -/
def previousValueOf (previousValues : KeyedMap H256 (Option H256)) (hashedKey : H256) :
    Except String H256 :=
  match previousValues.lookup hashedKey with
  | some value => .ok (value.getD .zero)
  | none => .error "no entry found for key"

/-- The loop over the protective reads. -/
def insertRead (hash : List UInt8 → H256) (previousValues : KeyedMap H256 (Option H256))
    (touchedSlots : KeyedMap StorageKey H256) (storageLogs : KeyedMap StorageKey WitnessStorageLog)
    (storageKey : StorageKey) : Except String (KeyedMap StorageKey WitnessStorageLog) := do
  let previousValue ← previousValueOf previousValues (storageKey.hashedKey hash)
  let log : WitnessStorageLog := ⟨.newReadLog storageKey previousValue, previousValue⟩
  match touchedSlots.lookup storageKey with
  | some value =>
    if previousValue = value then .ok (storageLogs.insert storageKey log)
    else .error "Value was changed for slot that requires protective read"
  | none => .ok (storageLogs.insert storageKey log)

/-- The loop over the touched slots. -/
def insertWrite (hash : List UInt8 → H256) (previousValues : KeyedMap H256 (Option H256))
    (storageLogs : KeyedMap StorageKey WitnessStorageLog) (entry : StorageKey × H256) :
    Except String (KeyedMap StorageKey WitnessStorageLog) := do
  let previousValue ← previousValueOf previousValues (entry.1.hashedKey hash)
  if previousValue ≠ entry.2 then
    .ok (storageLogs.insert entry.1 ⟨.newWriteLog entry.1 entry.2, previousValue⟩)
  else .ok storageLogs

end BlockLogs

open BlockLogs in
/-- `get_logs_for_l1_batch`; the logs are collected in a `BTreeMap`. -/
def getLogsForL1Batch (hash : List UInt8 → H256) (storage : StorageTables) (l1BatchNumber : ℕ) :
    Except String (Option WitnessBlockWithLogs) :=
  match storage.getL1BatchHeader l1BatchNumber with
  | none => .ok none
  | some header => do
    let protectiveReads := storage.getProtectiveReadsForL1Batch l1BatchNumber
    let touchedSlots := storage.getTouchedSlotsForL1Batch l1BatchNumber
    let hashedKeys := (protectiveReads ++ touchedSlots.toList.map Prod.fst).map
      (StorageKey.hashedKey hash)
    let previousValues ← storage.getPreviousStorageValues hashedKeys l1BatchNumber
    let storageLogs ← protectiveReads.foldlM (insertRead hash previousValues touchedSlots) ∅
    let storageLogs ← touchedSlots.toList.foldlM (insertWrite hash previousValues) storageLogs
    return some ⟨header, storageLogs.sortedValues⟩

/-- The storage keys that the batches use. -/
def usedKeys (history : List SealedBatch) : Set StorageKey :=
  { key | ∃ batch ∈ history, ∃ q ∈ batch.queries, q.storageKey = key }

theorem usedKeys_mono {history history' : List SealedBatch} (h : history <+: history') :
    usedKeys history ⊆ usedKeys history' := by
  rintro key ⟨batch, hbatch, q, hq, rfl⟩
  exact ⟨batch, h.subset hbatch, q, hq, rfl⟩

namespace SealedBatch

/-- The log that a deduplicated query of the batch stands for: a write of the value after the batch,
or a read. Both come with the value before the batch. -/
def witnessLog (batch : SealedBatch) (q : LogQuery) : WitnessStorageLog :=
  let previousValue := u256ToH256 (batch.before q.slot)
  if q.rwFlag then ⟨.newWriteLog q.storageKey (u256ToH256 (batch.after q.slot)), previousValue⟩
  else ⟨.newReadLog q.storageKey previousValue, previousValue⟩

end SealedBatch

/-- The tree's input for batch `n` is its deduplicated queries. -/
structure DeduplicatedInput (hash : List UInt8 → H256) (storage : StorageTables) (n : ℕ)
    (batch : SealedBatch) : Prop where
  sorted : ∃ sorted, sortStorageAccessQueries batch.queries = .ok (sorted, batch.deduplicated)
  /-- No assertion fires, and there is one log for each deduplicated query. -/
  logs : getLogsForL1Batch hash storage n =
    .ok (some ⟨⟨n, true⟩, batch.deduplicated.map batch.witnessLog⟩)
  increasing : batch.deduplicated.Pairwise fun q q' => q.storageKey < q'.storageKey
  /-- The value of a protective read is unchanged. -/
  unchanged : ∀ q ∈ batch.deduplicated, q.rwFlag = false → batch.after q.slot = batch.before q.slot

namespace TablesInv

open StorageTables

variable {hash : List UInt8 → H256} {t : StorageTables} {history : List SealedBatch}
  {bound : ℕ → ℕ} {pending : List LogQuery}

theorem getL1BatchHeader_eq (h : TablesInv hash t history bound pending) {n : ℕ}
    (hn : n < history.length) : t.getL1BatchHeader n = some ⟨n, true⟩ := by
  rw [getL1BatchHeader, h.headers, List.find?_map]
  have hfind : (List.range history.length).find? (fun k => decide (k = n)) = some n := by
    rw [List.find?_range_eq_some]
    simp [hn]
    omega
  have hcomp : ((fun header : L1BatchHeader => decide (header.number = n)) ∘
      fun k => (⟨k, true⟩ : L1BatchHeader)) = fun k => decide (k = n) := rfl
  rw [hcomp, hfind]
  rfl

theorem mem_miniblocksOf (h : TablesInv hash t history bound pending) {n : ℕ}
    (hn : n < history.length) {number : ℕ} :
    number ∈ t.miniblocksOf n ↔ bound n ≤ number ∧ number < bound (n + 1) := by
  rw [miniblocksOf, List.mem_map]
  constructor
  · rintro ⟨row, hrow, rfl⟩
    obtain ⟨hrow, hbatch⟩ := List.mem_filter.mp hrow
    exact ((h.miniblocks.sealed_iff row hrow n).mp (by simpa using hbatch)).2
  · intro hrange
    have hlt := hrange.2.trans_le (h.miniblocks.bound_le_length hn)
    have hmem : number ∈ t.miniblocks.map MiniblockRow.number := by
      rw [h.miniblocks.numbers, List.mem_range]
      exact hlt
    obtain ⟨row, hrow, rfl⟩ := List.mem_map.mp hmem
    have hbatch := (h.miniblocks.sealed_iff row hrow n).mpr ⟨hn, hrange⟩
    exact ⟨row, List.mem_filter.mpr ⟨hrow, by simpa using hbatch⟩, rfl⟩

/-- The first and the last miniblock of a batch. -/
theorem miniblocksOf_min_max (h : TablesInv hash t history bound pending) {n : ℕ}
    (hn : n < history.length) : (t.miniblocksOf n).min? = some (bound n) ∧
      (t.miniblocksOf n).max? = some (bound (n + 1) - 1) := by
  have hlt := h.miniblocks.bound_lt n hn
  rw [List.min?_eq_some_iff, List.max?_eq_some_iff]
  simp only [h.mem_miniblocksOf hn]
  refine ⟨⟨⟨le_rfl, hlt⟩, fun b hb => hb.1⟩, ⟨by omega, by omega⟩, fun b hb => by omega⟩

/-- The rows stand in the order of their operations. -/
theorem orderedLogs_eq (h : TablesInv hash t history bound pending) (p : StorageLogRow → Bool) :
    t.orderedLogs p = t.storageLogs.filter p := by
  refine List.mergeSort_of_pairwise ((h.rows.ordered.filter p).imp ?_)
  rintro a b (hlt | ⟨heq, hlt⟩)
  · simp [StorageLogRow.precedes, hlt]
  · simp [StorageLogRow.precedes, heq, hlt.le]

theorem lookup_touchedSlots (h : TablesInv hash t history bound pending) {n : ℕ}
    (hn : n < history.length) (key : StorageKey) :
    (t.getTouchedSlotsForL1Batch n).lookup key =
      lastValue (writeRecords history[n].queries) key := by
  obtain ⟨hmin, hmax⟩ := h.miniblocksOf_min_max hn
  have hlt := h.miniblocks.bound_lt n hn
  unfold getTouchedSlotsForL1Batch
  simp only [hmin, hmax]
  rw [lookup_ofList_eq_lastValue, h.orderedLogs_eq, ← h.rows.batch_records n hn, recordsIn]
  congr 1
  have hfilter : t.storageLogs.filter (fun row => decide (bound n ≤ row.miniblockNumber) &&
      decide (row.miniblockNumber ≤ bound (n + 1) - 1)) = t.storageLogs.filter fun row =>
        decide (bound n ≤ row.miniblockNumber) && decide (row.miniblockNumber < bound (n + 1)) := by
    apply List.filter_congr
    intro row _
    congr 2
    rw [eq_iff_iff]
    omega
  rw [hfilter]
  rfl

/-- The key of every row before batch `n` is used. -/
theorem usedKeys_of_row (h : TablesInv hash t history bound pending) {n : ℕ}
    (hn : n ≤ history.length) {row : StorageLogRow} (hrow : row ∈ t.storageLogs)
    (hlt : row.miniblockNumber < bound n) : row.storageKey ∈ usedKeys history := by
  have hmem : row.record ∈ recordsIn t.storageLogs 0 (bound n) :=
    List.mem_map_of_mem (List.mem_filter.mpr ⟨hrow, by simp [hlt]⟩)
  rw [h.rows.records_before h.miniblocks hn] at hmem
  obtain ⟨batch, hbatch, hmem⟩ := List.mem_flatMap.mp hmem
  obtain ⟨q, hq, heq⟩ := List.mem_map.mp hmem
  exact ⟨batch, List.mem_of_mem_take hbatch, q, List.mem_of_mem_filter hq, congrArg Prod.fst heq⟩

/-- The last row of a key before batch `n` has its value before the batch. -/
theorem lastRow_eq (h : TablesInv hash t history bound pending)
    (hinj : Set.InjOn (StorageKey.hashedKey hash) (usedKeys history)) {n : ℕ}
    (hn : n ≤ history.length) {key : StorageKey} (hkey : key ∈ usedKeys history) :
    (((t.storageLogs.filter fun row => row.hashedKey = key.hashedKey hash &&
      row.miniblockNumber < bound n).getLast?).map StorageLogRow.value).getD .zero =
        u256ToH256 (storeAfter (history.take n) key.slot) := by
  rw [← h.consistent.lastValue_take hn key, ← h.rows.records_before h.miniblocks hn, lastValue,
    recordsIn, List.filter_map, List.filter_filter, List.getLast?_map, Option.map_map]
  have hfilter : t.storageLogs.filter (fun row => decide (row.hashedKey = key.hashedKey hash) &&
      decide (row.miniblockNumber < bound n)) = t.storageLogs.filter fun row =>
        ((fun e : StorageKey × H256 => decide (e.1 = key)) ∘ StorageLogRow.record) row &&
          (decide (0 ≤ row.miniblockNumber) && decide (row.miniblockNumber < bound n)) := by
    apply List.filter_congr
    intro row hrow
    by_cases hlt : row.miniblockNumber < bound n
    · have hused := h.usedKeys_of_row hn hrow hlt
      have hiff : row.hashedKey = key.hashedKey hash ↔ row.storageKey = key := by
        rw [h.rows.hashedKey_eq row hrow]
        exact ⟨fun heq => hinj hused hkey heq, fun heq => by rw [heq]⟩
      by_cases heq : row.storageKey = key
      · simp [hlt, hiff, StorageLogRow.record, heq]
      · simp [hiff, StorageLogRow.record, heq]
    · simp [hlt]
  rw [hfilter]
  rfl

theorem getPreviousStorageValues_eq (h : TablesInv hash t history bound pending)
    (hinj : Set.InjOn (StorageKey.hashedKey hash) (usedKeys history)) {n : ℕ}
    (hn : n < history.length) {keys : List StorageKey}
    (hkeys : ∀ key ∈ keys, key ∈ usedKeys history) :
    ∃ previousValues, t.getPreviousStorageValues (keys.map (StorageKey.hashedKey hash)) n =
        .ok previousValues ∧
      ∀ key ∈ keys, BlockLogs.previousValueOf previousValues (key.hashedKey hash) =
        .ok (u256ToH256 (history[n].before key.slot)) := by
  obtain ⟨hmin, hmax⟩ := h.miniblocksOf_min_max hn
  -- a map that has the last value before the batch for every hashed key
  have hlookup {f : H256 → Option H256} (hf : ∀ key ∈ usedKeys history,
      (f (key.hashedKey hash)).getD .zero = u256ToH256 (storeAfter (history.take n) key.slot)) :
      ∀ key ∈ keys, BlockLogs.previousValueOf (KeyedMap.ofList ((keys.map
        (StorageKey.hashedKey hash)).map fun hashedKey => (hashedKey, f hashedKey)))
          (key.hashedKey hash) = .ok (u256ToH256 (history[n].before key.slot)) := by
    intro key hkey
    have hsome : (KeyedMap.ofList ((keys.map (StorageKey.hashedKey hash)).map fun hashedKey =>
        (hashedKey, f hashedKey))).lookup (key.hashedKey hash) = some (f (key.hashedKey hash)) := by
      rw [KeyedMap.ofList_eq_extend]
      refine KeyedMap.lookup_extend_of_forall ?_ ?_
      · exact List.mem_map_of_mem (List.mem_map_of_mem hkey)
      · intro value hvalue
        obtain ⟨hashedKey, -, heq⟩ := List.mem_map.mp hvalue
        cases heq
        rfl
    simp only [BlockLogs.previousValueOf, hsome, hf key (hkeys key hkey),
      (h.consistent n hn).before_eq]
  have hlast {key : StorageKey} (hkey : key ∈ usedKeys history) := h.lastRow_eq hinj hn.le hkey
  unfold getPreviousStorageValues getMiniblockRangeOfL1Batch
  simp only [hmin, hmax]
  by_cases hzero : bound n = 0
  · -- no row is before the first miniblock
    rw [if_pos hzero]
    refine ⟨_, rfl, hlookup fun key hkey => ?_⟩
    rw [← hlast hkey, hzero]
    simp
  · rw [if_neg hzero]
    refine ⟨_, rfl, hlookup fun key hkey => ?_⟩
    rw [← hlast hkey, h.orderedLogs_eq]
    have hle (k : ℕ) : k ≤ bound n - 1 ↔ k < bound n := by omega
    simp only [hle]

theorem mem_protectiveReads (h : TablesInv hash t history bound pending) {n : ℕ}
    (hn : n < history.length) {key : StorageKey} :
    key ∈ t.getProtectiveReadsForL1Batch n ↔
      ∃ q ∈ history[n].deduplicated, q.rwFlag = false ∧ q.storageKey = key := by
  rw [getProtectiveReadsForL1Batch, List.mem_dedup, h.dedup.reads n hn, List.map_map, List.mem_map]
  simp only [List.mem_filter, Bool.not_eq_true', and_assoc]
  rfl

/-- A touched slot holds its value after the batch, and an untouched one keeps its value. -/
theorem touchedSlots_cases (h : TablesInv hash t history bound pending) {n : ℕ}
    (hn : n < history.length) (key : StorageKey) :
    (t.getTouchedSlotsForL1Batch n).lookup key = some (u256ToH256 (history[n].after key.slot)) ∨
      (t.getTouchedSlotsForL1Batch n).lookup key = none ∧
        history[n].after key.slot = history[n].before key.slot := by
  have hcons := h.consistent n hn
  have hlast := hcons.lastValue_eq key
  rw [← h.lookup_touchedSlots hn, ← hcons.before_eq] at hlast
  cases hlook : (t.getTouchedSlotsForL1Batch n).lookup key with
  | some value =>
    rw [hlook] at hlast
    exact .inl (congrArg some hlast)
  | none =>
    rw [hlook] at hlast
    exact .inr ⟨rfl, (u256ToH256_injective hlast).symm⟩

theorem usedKeys_of_touched (h : TablesInv hash t history bound pending) {n : ℕ}
    (hn : n < history.length) {key : StorageKey} {value : H256}
    (htouched : (t.getTouchedSlotsForL1Batch n).lookup key = some value) :
    key ∈ usedKeys history := by
  rw [h.lookup_touchedSlots hn, lastValue] at htouched
  obtain ⟨record, hlast, -⟩ := Option.map_eq_some_iff.mp htouched
  obtain ⟨hrecord, hkey⟩ := List.mem_filter.mp (List.mem_of_getLast? hlast)
  obtain ⟨q, hq, rfl⟩ := List.mem_map.mp hrecord
  exact ⟨history[n], List.getElem_mem hn, q, List.mem_of_mem_filter hq, by simpa using hkey⟩

end TablesInv

namespace SealedBatch

variable {batch : SealedBatch} {store : Slot → U256} {deduplicated : List LogQuery}

/-- The query of the batch that a deduplicated query goes back to. -/
theorem Consistent.exists_query (h : batch.Consistent store)
    (hlists : ListsChanges batch.queries batch.before batch.slots deduplicated) {q : LogQuery}
    (hq : q ∈ deduplicated) :
    q.shardId = 0 ∧ ∃ q' ∈ batch.queries, q'.storageKey = q.storageKey := by
  obtain ⟨q', hq', hslot⟩ := List.mem_map.mp (hlists.slot_mem q hq)
  have hshard' := h.shardId_eq q' hq'
  have hshard : q.shardId = 0 := (congrArg Slot.shardId hslot).symm.trans hshard'
  refine ⟨hshard, q', hq', ?_⟩
  rw [LogQuery.storageKey_eq_iff hshard', LogQuery.slot_storageKey hshard, hslot]

/-- A slot has one deduplicated query. -/
theorem eq_of_slot_eq (hincreasing : deduplicated.Pairwise fun a b => a.slot < b.slot)
    {q q' : LogQuery} (hq : q ∈ deduplicated) (hq' : q' ∈ deduplicated) (hslot : q.slot = q'.slot) :
    q = q' := by
  by_contra hne
  rcases SortedGroups.pairwise_or hincreasing hq hq' hne with hlt | hlt
  · exact hlt.ne hslot
  · exact hlt.ne hslot.symm

/-- The log of a slot, from its values and from whether it is a protective read. -/
noncomputable def logAt (batch : SealedBatch) (reads : List StorageKey) (key : StorageKey) :
    Option WitnessStorageLog :=
  let previousValue := u256ToH256 (batch.before key.slot)
  open Classical in
  if batch.after key.slot ≠ batch.before key.slot then
    some ⟨.newWriteLog key (u256ToH256 (batch.after key.slot)), previousValue⟩
  else if key ∈ reads then some ⟨.newReadLog key previousValue, previousValue⟩ else none

/-- The logs by slot are those of the deduplicated queries. -/
theorem Consistent.logAt_eq_some_iff (h : batch.Consistent store)
    (hlists : ListsChanges batch.queries batch.before batch.slots deduplicated)
    {reads : List StorageKey}
    (hreads : ∀ key, key ∈ reads ↔ ∃ q ∈ deduplicated, q.rwFlag = false ∧ q.storageKey = key)
    (key : StorageKey) (log : WitnessStorageLog) : batch.logAt reads key = some log ↔
      ∃ q ∈ deduplicated, q.storageKey = key ∧ batch.witnessLog q = log := by
  have hslot {q : LogQuery} (hq : q ∈ deduplicated) (hkey : q.storageKey = key) :
      q.slot = key.slot :=
    (LogQuery.storageKey_eq_iff (h.exists_query hlists hq).1).mp hkey
  have hchanged := hlists.changed_iff key.slot
  unfold logAt
  by_cases hne : batch.after key.slot ≠ batch.before key.slot
  · obtain ⟨q, hq, hqslot, hrw⟩ := hchanged.mp hne
    have hkey := (LogQuery.storageKey_eq_iff (h.exists_query hlists hq).1).mpr hqslot
    have hlog : batch.witnessLog q = ⟨.newWriteLog key (u256ToH256 (batch.after key.slot)),
        u256ToH256 (batch.before key.slot)⟩ := by
      simp only [witnessLog, hrw, ↓reduceIte, hqslot, hkey]
    rw [if_pos hne, Option.some.injEq, ← hlog]
    constructor
    · rintro rfl
      exact ⟨q, hq, hkey, rfl⟩
    · rintro ⟨q', hq', hkey', rfl⟩
      rw [eq_of_slot_eq hlists.increasing hq hq' (hqslot.trans (hslot hq' hkey').symm)]
  · have hread {q : LogQuery} (hq : q ∈ deduplicated) (hkey : q.storageKey = key) :
        q.rwFlag = false ∧ batch.witnessLog q =
          ⟨.newReadLog key (u256ToH256 (batch.before key.slot)),
          u256ToH256 (batch.before key.slot)⟩ := by
      have hrw : q.rwFlag = false := Bool.eq_false_iff.mpr fun hrw =>
        hne (hchanged.mpr ⟨q, hq, hslot hq hkey, hrw⟩)
      refine ⟨hrw, ?_⟩
      simp only [witnessLog, hrw, Bool.false_eq_true, ↓reduceIte, hslot hq hkey, hkey]
    rw [if_neg hne]
    constructor
    · intro hlog
      obtain ⟨hmem, hlog⟩ := Option.ite_none_right_eq_some.mp hlog
      obtain ⟨q, hq, -, hkey⟩ := (hreads key).mp hmem
      exact ⟨q, hq, hkey, (hread hq hkey).2.trans (Option.some.inj hlog)⟩
    · rintro ⟨q, hq, hkey, rfl⟩
      obtain ⟨hrw, hlog⟩ := hread hq hkey
      rw [if_pos ((hreads key).mpr ⟨q, hq, hrw, hkey⟩), hlog]

end SealedBatch

namespace SealedBatch

variable (batch : SealedBatch)

/-- The log of a slot that is only read. -/
def readLog (key : StorageKey) : WitnessStorageLog :=
  ⟨.newReadLog key (u256ToH256 (batch.before key.slot)), u256ToH256 (batch.before key.slot)⟩

/-- The log of a slot that was written, if its value has changed. -/
def writeLog? (entry : StorageKey × H256) : Option (StorageKey × WitnessStorageLog) :=
  if u256ToH256 (batch.before entry.1.slot) ≠ entry.2 then
    some (entry.1, ⟨.newWriteLog entry.1 entry.2, u256ToH256 (batch.before entry.1.slot)⟩)
  else none

theorem writeLog?_eq_some_iff {entry : StorageKey × H256} {key : StorageKey}
    {log : WitnessStorageLog} : batch.writeLog? entry = some (key, log) ↔
      u256ToH256 (batch.before key.slot) ≠ entry.2 ∧ entry.1 = key ∧
        log = ⟨.newWriteLog key entry.2, u256ToH256 (batch.before key.slot)⟩ := by
  unfold writeLog?
  rw [Option.ite_none_right_eq_some]
  constructor
  · rintro ⟨hne, ⟨⟩⟩
    exact ⟨hne, rfl, rfl⟩
  · rintro ⟨hne, rfl, rfl⟩
    exact ⟨hne, rfl⟩

variable {batch} {hash : List UInt8 → H256} {previousValues : KeyedMap H256 (Option H256)}
  {touched : KeyedMap StorageKey H256}

open BlockLogs in
theorem insertRead_eq {key : StorageKey}
    (hprevious : previousValueOf previousValues (key.hashedKey hash) =
      .ok (u256ToH256 (batch.before key.slot)))
    (htouched : ∀ value, touched.lookup key = some value →
      u256ToH256 (batch.before key.slot) = value)
    (m : KeyedMap StorageKey WitnessStorageLog) :
    insertRead hash previousValues touched m key = .ok (m.insert key (batch.readLog key)) := by
  unfold insertRead
  rw [hprevious]
  cases hlook : touched.lookup key with
  | some value =>
    simp only [bind, Except.bind, if_pos (htouched value hlook)]
    rfl
  | none => rfl

open BlockLogs in
theorem insertWrite_eq {entry : StorageKey × H256}
    (hprevious : previousValueOf previousValues (entry.1.hashedKey hash) =
      .ok (u256ToH256 (batch.before entry.1.slot)))
    (m : KeyedMap StorageKey WitnessStorageLog) :
    insertWrite hash previousValues m entry = .ok (m.extend (batch.writeLog? entry).toList) := by
  unfold insertWrite writeLog?
  rw [hprevious]
  simp only [bind, Except.bind]
  split_ifs
  · rfl
  · rfl

theorem lookup_readLogs (reads : List StorageKey) (key : StorageKey) :
    (KeyedMap.extend ∅ (reads.filterMap fun key => some (key, batch.readLog key))).lookup key =
      if key ∈ reads then some (batch.readLog key) else none := by
  split_ifs with hmem
  · refine KeyedMap.lookup_extend_of_forall (List.mem_filterMap.mpr ⟨key, hmem, rfl⟩) ?_
    intro log hlog
    obtain ⟨key', -, hlog⟩ := List.mem_filterMap.mp hlog
    cases hlog
    rfl
  · refine KeyedMap.lookup_extend_of_notMem fun log hlog => ?_
    obtain ⟨key', hkey', hlog⟩ := List.mem_filterMap.mp hlog
    cases hlog
    exact hmem hkey'

/-- The log of a changed slot replaces what was there; the other slots keep their logs. -/
theorem lookup_writeLogs
    (htouched : ∀ key, touched.lookup key = some (u256ToH256 (batch.after key.slot)) ∨
      touched.lookup key = none ∧ batch.after key.slot = batch.before key.slot)
    (m : KeyedMap StorageKey WitnessStorageLog) (key : StorageKey) :
    (m.extend (touched.toList.filterMap batch.writeLog?)).lookup key =
      open Classical in
      if batch.after key.slot ≠ batch.before key.slot then
        some ⟨.newWriteLog key (u256ToH256 (batch.after key.slot)),
          u256ToH256 (batch.before key.slot)⟩
      else m.lookup key := by
  have hvalue {value : H256} (hmem : (key, value) ∈ touched.toList) :
      value = u256ToH256 (batch.after key.slot) := by
    rw [KeyedMap.mem_toList] at hmem
    rcases htouched key with hlook | ⟨hlook, -⟩
    · exact Option.some.inj (hmem.symm.trans hlook)
    · exact nomatch hmem.symm.trans hlook
  by_cases hne : batch.after key.slot ≠ batch.before key.slot
  · rw [if_pos hne]
    have hlook : touched.lookup key = some (u256ToH256 (batch.after key.slot)) :=
      (htouched key).resolve_right fun hnot => hne hnot.2
    refine KeyedMap.lookup_extend_of_forall ?_ ?_
    · refine List.mem_filterMap.mpr ⟨_, KeyedMap.mem_toList.mpr hlook, ?_⟩
      exact (batch.writeLog?_eq_some_iff).mpr
        ⟨fun heq => hne (u256ToH256_injective heq).symm, rfl, rfl⟩
    · intro log hlog
      obtain ⟨⟨key', value⟩, hmem, hlog⟩ := List.mem_filterMap.mp hlog
      obtain ⟨-, rfl, rfl⟩ := (batch.writeLog?_eq_some_iff).mp hlog
      rw [hvalue hmem]
  · rw [if_neg hne, KeyedMap.lookup_extend_of_notMem]
    intro log hlog
    obtain ⟨⟨key', value⟩, hmem, hlog⟩ := List.mem_filterMap.mp hlog
    obtain ⟨hchanged, rfl, -⟩ := (batch.writeLog?_eq_some_iff).mp hlog
    rw [hvalue hmem, not_not.mp hne] at hchanged
    exact hchanged rfl

open BlockLogs in
/-- Both loops succeed and collect the log of every slot. -/
theorem insertLogs_ok {reads : List StorageKey}
    (hprevious : ∀ key ∈ reads ++ touched.toList.map Prod.fst,
      previousValueOf previousValues (key.hashedKey hash) =
        .ok (u256ToH256 (batch.before key.slot)))
    (htouched : ∀ key, touched.lookup key = some (u256ToH256 (batch.after key.slot)) ∨
      touched.lookup key = none ∧ batch.after key.slot = batch.before key.slot)
    (hreads : ∀ key ∈ reads, batch.after key.slot = batch.before key.slot) :
    ∃ logs logs', reads.foldlM (insertRead hash previousValues touched) ∅ = .ok logs ∧
      touched.toList.foldlM (insertWrite hash previousValues) logs = .ok logs' ∧
      ∀ key, logs'.lookup key = batch.logAt reads key := by
  have hfirst : reads.foldlM (insertRead hash previousValues touched) ∅ =
      .ok (KeyedMap.extend ∅ (reads.filterMap fun key => some (key, batch.readLog key))) := by
    refine KeyedMap.foldlM_insert (fun key hkey m => ?_) ∅
    refine insertRead_eq (hprevious key (List.mem_append_left _ hkey)) (fun value hlook => ?_) m
    rcases htouched key with hvalue | ⟨hnone, -⟩
    · rw [← hreads key hkey]
      exact Option.some.inj (hvalue.symm.trans hlook)
    · exact nomatch hnone.symm.trans hlook
  have hsecond (m : KeyedMap StorageKey WitnessStorageLog) :
      touched.toList.foldlM (insertWrite hash previousValues) m =
        .ok (m.extend (touched.toList.filterMap batch.writeLog?)) :=
    KeyedMap.foldlM_insert (fun entry hentry => insertWrite_eq
      (hprevious entry.1 (List.mem_append_right _ (List.mem_map_of_mem hentry)))) m
  refine ⟨_, _, hfirst, hsecond _, fun key => ?_⟩
  rw [lookup_writeLogs htouched, lookup_readLogs]
  rfl

end SealedBatch

theorem TablesInv.blockLogs {hash : List UInt8 → H256} {t : StorageTables}
    {history : List SealedBatch} {bound : ℕ → ℕ} {pending : List LogQuery}
    (h : TablesInv hash t history bound pending)
    (hinj : Set.InjOn (StorageKey.hashedKey hash) (usedKeys history)) {n : ℕ}
    (hn : n < history.length) : DeduplicatedInput hash t n history[n] := by
  obtain ⟨sorted, hsorted⟩ := h.dedup.sorted history[n] (List.getElem_mem hn)
  have hcons := h.consistent n hn
  have hlists := listsChanges_of_ok hcons.replay_eq hsorted
  have hread : ∀ q ∈ history[n].deduplicated, q.rwFlag = false →
      history[n].after q.slot = history[n].before q.slot := by
    intro q hq hrw
    by_contra hne
    obtain ⟨q', hq', hslot, hrw'⟩ := (hlists.changed_iff q.slot).mp hne
    rw [SealedBatch.eq_of_slot_eq hlists.increasing hq' hq hslot, hrw] at hrw'
    cases hrw'
  have hincreasing : history[n].deduplicated.Pairwise fun q q' => q.storageKey < q'.storageKey :=
    hlists.increasing.imp_of_mem fun hq hq' hlt => LogQuery.storageKey_lt
      (hcons.exists_query hlists hq).1 (hcons.exists_query hlists hq').1 hlt
  have hkeys : ∀ key ∈ t.getProtectiveReadsForL1Batch n ++
      (t.getTouchedSlotsForL1Batch n).toList.map Prod.fst, key ∈ usedKeys history := by
    intro key hkey
    rcases List.mem_append.mp hkey with hkey | hkey
    · obtain ⟨q, hq, -, rfl⟩ := (h.mem_protectiveReads hn).mp hkey
      obtain ⟨q', hq', hsame⟩ := (hcons.exists_query hlists hq).2
      exact ⟨history[n], List.getElem_mem hn, q', hq', hsame⟩
    · obtain ⟨⟨key', value⟩, hmem, rfl⟩ := List.mem_map.mp hkey
      exact h.usedKeys_of_touched hn (KeyedMap.mem_toList.mp hmem)
  obtain ⟨previousValues, hvalues, hprevious⟩ := h.getPreviousStorageValues_eq hinj hn hkeys
  obtain ⟨logs, logs', hfirst, hsecond, hlookup⟩ := SealedBatch.insertLogs_ok hprevious
    (h.touchedSlots_cases hn) fun key hkey => by
      obtain ⟨q, hq, hrw, rfl⟩ := (h.mem_protectiveReads hn).mp hkey
      rw [LogQuery.slot_storageKey (hcons.exists_query hlists hq).1]
      exact hread q hq hrw
  have hsortedValues : logs'.sortedValues = history[n].deduplicated.map history[n].witnessLog :=
    KeyedMap.sortedValues_eq hincreasing fun key log => by
      rw [hlookup]
      exact hcons.logAt_eq_some_iff hlists (fun key => h.mem_protectiveReads hn) key log
  refine ⟨⟨sorted, hsorted⟩, ?_, hincreasing, hread⟩
  unfold getLogsForL1Batch
  rw [h.getL1BatchHeader_eq hn]
  simp only [hvalues, hfirst, hsecond, hsortedValues, bind, Except.bind, pure, Except.pure]

/-- For every sealed batch, in every state of the sequencer from then on, the logs that the tree
gets are those of the deduplicated queries of the batch. -/
theorem SealRun.deduplicatedInput (hash : List UInt8 → H256) (io : SequencerIo)
    (history : List SealedBatch) (hrun : SealRun hash io history)
    (hinj : Set.InjOn (StorageKey.hashedKey hash) (usedKeys history)) (n : ℕ)
    (hn : n < history.length) : DeduplicatedInput hash io.storage n history[n] := by
  obtain ⟨bound, hinv⟩ := hrun.inv
  exact hinv.tables.blockLogs hinj hn

theorem lastFour_lt (bytes : List UInt8) : Bytes.ofBE bytes % 2 ^ 32 < 2 ^ 256 :=
  (Nat.mod_lt _ (by decide)).trans (by decide)

/-- A hash that keeps the last four bytes of the key of a slot. -/
def sampleHash (bytes : List UInt8) : H256 :=
  u256ToH256 ⟨Bytes.ofBE bytes % 2 ^ 32, lastFour_lt bytes⟩

/-- The genesis batch writes slot 1 of the zero address. -/
def sampleGenesisLogs : List (H256 × List StorageLog) :=
  [(.zero, [.newWriteLog ⟨.zero, u256ToH256 1⟩ (u256ToH256 5)])]

def sampleSealed : Transaction :=
  ⟨.protocolUpgrade ⟨.zero, u256ToH256 9⟩, ⟨.zero, [], none⟩, 0⟩

/-- The next batch has one transaction: it writes slots 1 and 2, reads slot 3, and takes its write
of slot 3 back. -/
def sampleBlockResult : VmBlockResult :=
  ⟨⟨[], [⟨sampleQuery 1 5 7 true false, .repeatedWrite⟩,
    ⟨sampleQuery 2 0 3 true false, .initialWrite⟩, ⟨sampleQuery 3 0 0 false false, .read⟩,
    ⟨sampleQuery 3 0 4 true false, .initialWrite⟩,
    ⟨sampleQuery 3 0 4 true true, .initialWrite⟩]⟩, {}⟩

def sampleTxResult : VmTxExeResult Unit :=
  ⟨.success, { storageLogs := sampleBlockResult.fullResult.storageLogQueries }, ()⟩

/-- The genesis batch, and the steps of the next batch. -/
def sampleSealRun : Except String (SequencerIo × SequencerIo) := do
  let storage ← Genesis.createGenesisL1Batch sampleHash {} sampleGenesisLogs
  let updates ← ((UpdatesManager.new 1 0).extendFromExecutedTransaction sampleSealed 0
    sampleTxResult {}).mapError fun _ => "panic"
  let io ← SequencerIo.sealMiniblock sampleHash ⟨storage, 1, 1, updates⟩ 2
  let io' ← io.sealL1Batch sampleHash sampleBlockResult 3 0
  return (io, io')

/-- Nothing is left of the write that is taken back, and slot 3 is only read. -/
theorem sort_sampleBatch : sortStorageAccessQueries
    (sampleBlockResult.fullResult.storageLogQueries.map StorageLogQuery.logQuery) =
      .ok (SortStorageAccess.enumerateQueries
        (sampleBlockResult.fullResult.storageLogQueries.map StorageLogQuery.logQuery),
        [sampleQuery 1 5 7 true false, sampleQuery 2 0 3 true false,
          sampleQuery 3 0 0 false false]) :=
  sortStorageAccessQueries_of_pairwise (by decide)
    (SortStorageAccess.deduplicate_of_next (SortStorageAccess.deduplicate_of_next
      (SortStorageAccess.deduplicate_of_next SortStorageAccess.deduplicate_nil rfl) rfl) rfl)

theorem sampleSealRun_ok : sampleSealRun.toOption.isSome = true := by
  simp only [sampleSealRun, SequencerIo.sealL1Batch, UpdatesManager.sealL1Batch, sort_sampleBatch]
  decide +kernel

/-- The queries of a batch with the slots that they lead to. -/
def SealedBatch.ofQueries (before : Slot → U256) (queries : List LogQuery) : SealedBatch where
  queries := queries
  before := before
  slots := (replay (startSlots before) queries).getD (startSlots before)

theorem SealedBatch.consistent_ofQueries {before : Slot → U256} {queries : List LogQuery}
    (h : (replay (startSlots before) queries).isSome = true)
    (hshard : ∀ q ∈ queries, q.shardId = 0) : (ofQueries before queries).Consistent before :=
  ⟨rfl, (Option.some_get h).symm.trans (by rw [ofQueries, Option.get_eq_getD]), hshard⟩

def sampleHistory : List SealedBatch :=
  let genesis := SealedBatch.ofQueries (fun _ => 0) (Genesis.logQueries sampleGenesisLogs)
  [genesis, .ofQueries genesis.after
    (sampleBlockResult.fullResult.storageLogQueries.map StorageLogQuery.logQuery)]

theorem sealRun_sampleHistory : ∃ io, SealRun sampleHash io sampleHistory := by
  obtain ⟨⟨io, io'⟩, hrun⟩ := Option.isSome_iff_exists.mp sampleSealRun_ok
  rw [Seq.toOption_eq_some] at hrun
  obtain ⟨storage, hgenesis, hrun⟩ := Seq.bind_eq_ok.mp hrun
  obtain ⟨updates, hupdates, hrun⟩ := Seq.bind_eq_ok.mp hrun
  obtain ⟨io₁, hminiblock, hrun⟩ := Seq.bind_eq_ok.mp hrun
  obtain ⟨io₂, hbatch, hrun⟩ := Seq.bind_eq_ok.mp hrun
  cases hrun
  have hexecute : (UpdatesManager.new 1 0).extendFromExecutedTransaction sampleSealed 0
      sampleTxResult {} = .ok updates := by
    cases hupdates
    rfl
  have hstart : SealRun sampleHash ⟨storage, 1, 1, .new 1 0⟩ [.ofQueries (fun _ => 0)
      (Genesis.logQueries sampleGenesisLogs)] :=
    .genesis 1 0 (by decide) hgenesis rfl
      (SealedBatch.consistent_ofQueries (by decide) (by decide))
  have hupdates' : io.updates = updates.pushMiniblock 2 := by
    obtain ⟨storage', -, h⟩ := Seq.bind_eq_ok.mp hminiblock
    cases h
    rfl
  refine ⟨io', .sealL1Batch 3 0 (.sealMiniblock 2 (.execute hstart hexecute) hminiblock) ?_ ?_ rfl
    (SealedBatch.consistent_ofQueries (by decide +kernel) (by decide)) hbatch⟩
  · rw [hupdates']
    cases hupdates
    decide
  · rw [hupdates']
    cases hupdates
    rfl

/-- The keys that the batches of the sample use. -/
def sampleKeys : List StorageKey :=
  [⟨.zero, u256ToH256 1⟩, ⟨.zero, u256ToH256 2⟩, ⟨.zero, u256ToH256 3⟩]

theorem usedKeys_sampleHistory {key : StorageKey} (hkey : key ∈ usedKeys sampleHistory) :
    key ∈ sampleKeys := by
  have hall : ∀ batch ∈ sampleHistory, ∀ q ∈ batch.queries, q.storageKey ∈ sampleKeys := by decide
  obtain ⟨batch, hbatch, q, hq, rfl⟩ := hkey
  exact hall batch hbatch q hq

theorem injOn_sampleHistory :
    Set.InjOn (StorageKey.hashedKey sampleHash) (usedKeys sampleHistory) := by
  have hinj : ∀ key ∈ sampleKeys, ∀ key' ∈ sampleKeys,
      key.hashedKey sampleHash = key'.hashedKey sampleHash → key = key' := by decide +kernel
  intro key hmem key' hmem' heq
  exact hinj key (usedKeys_sampleHistory hmem) key' (usedKeys_sampleHistory hmem') heq

theorem SealRun.deduplicatedInput_sample : ∃ io, SealRun sampleHash io sampleHistory ∧
    DeduplicatedInput sampleHash io.storage 1 (sampleHistory.get ⟨1, by decide⟩) := by
  obtain ⟨io, hrun⟩ := sealRun_sampleHistory
  exact ⟨io, hrun, SealRun.deduplicatedInput sampleHash io sampleHistory hrun injOn_sampleHistory
    1 _⟩

end OlaOs
