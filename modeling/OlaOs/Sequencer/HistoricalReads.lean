import OlaOs.Sequencer.LatestStorage
import OlaOs.State.Rocksdb

/-! The values that the API reads from `storage_logs` as of a miniblock. -/
namespace OlaOs

open StorageTables

variable {hash : List UInt8 → H256}

/-- The last row of a hashed key up to a miniblock, in rows that stand in their order. -/
def valueAsOf (rows : List StorageLogRow) (hashedKey : H256) (n : ℕ) : Option H256 :=
  ((rows.filter fun row => row.hashedKey = hashedKey &&
    row.miniblockNumber ≤ n).getLast?).map StorageLogRow.value

section ValueAsOf

variable {rows new : List StorageLogRow} {hashedKey : H256} {m n : ℕ}

/-- Later rows do not change the value. -/
theorem valueAsOf_append (h : ∀ row ∈ new, n < row.miniblockNumber) :
    valueAsOf (rows ++ new) hashedKey n = valueAsOf rows hashedKey n := by
  have hnone : new.filter (fun row => row.hashedKey = hashedKey &&
      row.miniblockNumber ≤ n) = [] := by
    rw [List.filter_eq_nil_iff]
    intro row hrow
    have := h row hrow
    simp only [Bool.and_eq_true, decide_eq_true_eq, not_and]
    omega
  rw [valueAsOf, List.filter_append, hnone, List.append_nil, valueAsOf]

/-- Without a row of the key in between, the value is that of the earlier miniblock. -/
theorem valueAsOf_of_unmodified (hmn : m ≤ n)
    (h : ∀ row ∈ rows, row.hashedKey = hashedKey → m < row.miniblockNumber →
      n < row.miniblockNumber) : valueAsOf rows hashedKey n = valueAsOf rows hashedKey m := by
  have hfilter : rows.filter (fun row => row.hashedKey = hashedKey && row.miniblockNumber ≤ n) =
      rows.filter fun row => row.hashedKey = hashedKey && row.miniblockNumber ≤ m := by
    apply List.filter_congr
    intro row hrow
    by_cases hkey : row.hashedKey = hashedKey
    · have hrow := h row hrow hkey
      simp only [hkey, decide_true, Bool.true_and, decide_eq_decide]
      omega
    · simp [hkey]
  rw [valueAsOf, hfilter, valueAsOf]

/-- From the last miniblock on the value is that of the last row. -/
theorem valueAsOf_of_le (h : ∀ row ∈ rows, row.miniblockNumber ≤ n) :
    valueAsOf rows hashedKey n =
      (latestRow (rows.filter fun row => row.hashedKey = hashedKey)).map StorageRow.value := by
  have hfilter : rows.filter (fun row => row.hashedKey = hashedKey && row.miniblockNumber ≤ n) =
      rows.filter fun row => row.hashedKey = hashedKey := by
    apply List.filter_congr
    intro row hrow
    simp [h row hrow]
  rw [valueAsOf, hfilter]
  cases hrows : rows.filter fun row => row.hashedKey = hashedKey with
  | nil => rfl
  | cons first rest =>
    cases hlast : (first :: rest).getLast? with
    | none => simp at hlast
    | some last =>
      rw [latestRow, hlast]
      rfl

end ValueAsOf

section Tables

variable {t : StorageTables} {history : List SealedBatch} {bound : ℕ → ℕ}
  {pending : List LogQuery}

theorem TablesInv.historicalValue_eq (h : TablesInv hash t history bound pending)
    (hashedKey : H256) (n : ℕ) :
    t.historicalValue hashedKey n = valueAsOf t.storageLogs hashedKey n := by
  rw [historicalValue, h.orderedLogs_eq, valueAsOf]

theorem TablesInv.getSealedMiniblockNumber_eq (h : TablesInv hash t history bound pending)
    (hpos : 0 < t.miniblocks.length) : t.getSealedMiniblockNumber = t.miniblocks.length - 1 := by
  have hmax : (t.miniblocks.map MiniblockRow.number).max? = some (t.miniblocks.length - 1) := by
    rw [h.miniblocks.numbers, List.max?_eq_some_iff]
    refine ⟨List.mem_range.mpr (by omega), fun n hn => ?_⟩
    have := List.mem_range.mp hn
    omega
  rw [getSealedMiniblockNumber, hmax]
  rfl

theorem TablesInv.miniblocks_pos (h : TablesInv hash t history bound pending)
    (hne : history ≠ []) : 0 < t.miniblocks.length := by
  have hlength := List.length_pos_iff.mpr hne
  have htwo := h.miniblocks.two_each
  have hle := h.miniblocks.bound_le
  omega

end Tables

namespace ChainState

variable {s s' : ChainState}

/-- The tables of a reachable state, with its miniblocks numbered up to the sealed one. -/
theorem Reachable.tables (h : Reachable hash s) : ∃ bound,
    SealInv hash s.io s.history bound ∧
      s.io.storage.miniblocks.length = s.io.storage.getSealedMiniblockNumber + 1 := by
  obtain ⟨bound, hinv⟩ := h.sealRun.inv
  have hpos := hinv.tables.miniblocks_pos (CacheRun.history_ne_nil h.sealRun)
  refine ⟨bound, hinv, ?_⟩
  rw [hinv.tables.getSealedMiniblockNumber_eq hpos]
  omega

/-- A new miniblock has the next number. -/
theorem Seals.number_succ (hs : Reachable hash s) (h : Step hash s s')
    {command : MiniblockSealCommand} {isFictive : Bool}
    (hseals : Seals hash command isFictive s s') :
    command.miniblockNumber = s.io.storage.getSealedMiniblockNumber + 1 ∧
      s'.io.storage.getSealedMiniblockNumber = s.io.storage.getSealedMiniblockNumber + 1 := by
  obtain ⟨bound, hinv, hlength⟩ := hs.tables
  obtain ⟨bound', hinv', hlength'⟩ := (hs.step h).tables
  have hnumbers := hseals.miniblocks
  rw [hinv.tables.miniblocks.numbers, hinv'.tables.miniblocks.numbers] at hnumbers
  have hcount := congrArg List.length hnumbers
  simp only [List.length_range, List.length_append, List.length_singleton] at hcount
  rw [hcount, List.range_succ] at hnumbers
  have hnumber : s.io.storage.miniblocks.length = command.miniblockNumber := by
    simpa using List.append_cancel_left hnumbers
  omega

/-- A step keeps the rows up to the sealed miniblock. -/
theorem Step.rows (hs : Reachable hash s) (h : Step hash s s') :
    s.io.storage.getSealedMiniblockNumber ≤ s'.io.storage.getSealedMiniblockNumber ∧
    ∃ new, s'.io.storage.storageLogs = s.io.storage.storageLogs ++ new ∧
      ∀ row ∈ new, s.io.storage.getSealedMiniblockNumber < row.miniblockNumber := by
  rcases h.cases hs with ⟨hstorage, -⟩ | ⟨command, isFictive, hseals⟩
  · rw [hstorage]
    exact ⟨le_rfl, [], (List.append_nil _).symm, nofun⟩
  · obtain ⟨hnumber, hsealed⟩ := hseals.number_succ hs h
    obtain ⟨logs, updates, hrows, -⟩ := hseals.logs
    refine ⟨by omega, _, hrows, fun row hrow => ?_⟩
    obtain ⟨e, -, rfl⟩ := List.mem_map.mp hrow
    change _ < command.miniblockNumber
    omega

/-- What later states keep of the rows up to a sealed miniblock. -/
theorem Reachable.rows (hs : Reachable hash s)
    (hsteps : Relation.ReflTransGen (Step hash) s s') :
    s.io.storage.getSealedMiniblockNumber ≤ s'.io.storage.getSealedMiniblockNumber ∧
    ∃ new, s'.io.storage.storageLogs = s.io.storage.storageLogs ++ new ∧
      ∀ row ∈ new, s.io.storage.getSealedMiniblockNumber < row.miniblockNumber := by
  induction hsteps with
  | refl => exact ⟨le_rfl, [], (List.append_nil _).symm, nofun⟩
  | tail hsteps hstep ih =>
    obtain ⟨hle, new, hnew, hlt⟩ := ih
    obtain ⟨hle', more, hmore, hlt'⟩ := hstep.rows (hs.trans hsteps)
    refine ⟨hle.trans hle', new ++ more, by rw [hmore, hnew, List.append_assoc], ?_⟩
    intro row hrow
    rcases List.mem_append.mp hrow with hrow | hrow
    · exact hlt row hrow
    · exact hle.trans_lt (hlt' row hrow)

theorem Reachable.historicalValue_eq (hs : Reachable hash s) (hashedKey : H256) (n : ℕ) :
    s.io.storage.historicalValue hashedKey n =
      valueAsOf s.io.storage.storageLogs hashedKey n := by
  obtain ⟨bound, hinv, -⟩ := hs.tables
  exact hinv.tables.historicalValue_eq hashedKey n

/-- What the API reads of a hashed key: the values up to a sealed miniblock never change again,
they change between two miniblocks only when the key is among the modified ones, and as of the
latest miniblock the value is that of `storage`. -/
structure ReadsHistory (s : ChainState) (s' : ChainState) (hashedKey : H256) : Prop where
  fixed : ∀ n ≤ s.io.storage.getSealedMiniblockNumber,
    s'.io.storage.historicalValue hashedKey n = s.io.storage.historicalValue hashedKey n
  unmodified : ∀ m n, m ≤ n → hashedKey ∉ s'.io.storage.modifiedKeysInMiniblocks (m + 1) n →
    s'.io.storage.historicalValue hashedKey n = s'.io.storage.historicalValue hashedKey m
  latest : ∀ n ≥ s'.io.storage.getSealedMiniblockNumber,
    s'.io.storage.historicalValue hashedKey n =
      (s'.chain.storage.find? fun row => row.hashedKey = hashedKey).map StorageRow.value

theorem historicalValue_unmodified (hs : Reachable hash s) {hashedKey : H256} {m n : ℕ}
    (hmn : m ≤ n) (h : hashedKey ∉ s.io.storage.modifiedKeysInMiniblocks (m + 1) n) :
    s.io.storage.historicalValue hashedKey n = s.io.storage.historicalValue hashedKey m := by
  rw [hs.historicalValue_eq, hs.historicalValue_eq]
  refine valueAsOf_of_unmodified hmn fun row hrow hkey hlt => ?_
  by_contra hle
  refine h (List.mem_dedup.mpr (List.mem_map.mpr ⟨row, List.mem_filter.mpr ⟨hrow, ?_⟩, hkey⟩))
  simp only [Bool.and_eq_true, decide_eq_true_eq]
  omega

/-- The values up to a sealed miniblock are those of every later state. -/
theorem Reachable.historicalValue_fixed (hs : Reachable hash s)
    (hsteps : Relation.ReflTransGen (Step hash) s s') (hashedKey : H256) {n : ℕ}
    (hn : n ≤ s.io.storage.getSealedMiniblockNumber) :
    s'.io.storage.historicalValue hashedKey n = s.io.storage.historicalValue hashedKey n := by
  obtain ⟨-, new, hnew, hlt⟩ := hs.rows hsteps
  rw [(hs.trans hsteps).historicalValue_eq, hs.historicalValue_eq, hnew]
  exact valueAsOf_append fun row hrow => hn.trans_lt (hlt row hrow)

/-- In every later state of a chain. -/
theorem Reachable.readsHistory (hash : List UInt8 → H256) (s s' : ChainState)
    (hs : Reachable hash s) (hsteps : Relation.ReflTransGen (Step hash) s s')
    (hashedKey : H256) : ReadsHistory s s' hashedKey := by
  have hs' := hs.trans hsteps
  refine ⟨fun n hn => hs.historicalValue_fixed hsteps hashedKey hn,
    fun m n hmn h => historicalValue_unmodified hs' hmn h, fun n hn => ?_⟩
  · obtain ⟨bound, hinv, hlength⟩ := hs'.tables
    have hle : ∀ row ∈ s'.io.storage.storageLogs, row.miniblockNumber ≤ n := by
      intro row hrow
      have := hinv.tables.rows.lt_count row hrow
      omega
    rw [hs'.historicalValue_eq, valueAsOf_of_le hle]
    exact congrArg (Option.map StorageRow.value) (hs'.storageInv.row_eq hashedKey).symm

theorem sampleChainRun_miniblocks :
    (sampleChainRun.toOption.map fun run => run.2.2.1.storage.getSealedMiniblockNumber) =
      some 2 := by
  simp only [sampleChainRun, SequencerIo.sealL1Batch, UpdatesManager.sealL1Batch, sort_sampleBatch]
  decide +kernel

theorem Reachable.readsHistory_sample : ∃ s s', Reachable sampleHash s ∧
    s.io.storage.getSealedMiniblockNumber = 0 ∧ s'.io.storage.getSealedMiniblockNumber = 2 ∧
    ∀ hashedKey, ReadsHistory s s' hashedKey := by
  obtain ⟨s, s', hs, hsteps, hzero, -, io, chain, hrun⟩ := reachable_sample
  have htwo := sampleChainRun_miniblocks
  rw [hrun] at htwo
  exact ⟨s, s', hs, hzero, Option.some.inj htwo,
    fun hashedKey => Reachable.readsHistory sampleHash s s' hs hsteps hashedKey⟩

end ChainState

/-! The state after a batch, read as of its last miniblock. -/

/-- The value of a key before batch `n`, whether or not the batches use the key. -/
theorem TablesInv.value_before {t : StorageTables} {history : List SealedBatch} {bound : ℕ → ℕ}
    {pending : List LogQuery} (h : TablesInv hash t history bound pending) {key : StorageKey}
    (hinj : Set.InjOn (StorageKey.hashedKey hash) (insert key (usedKeys history))) {n : ℕ}
    (hn : n ≤ history.length) :
    (((t.storageLogs.filter fun row => row.hashedKey = key.hashedKey hash &&
      row.miniblockNumber < bound n).getLast?).map StorageLogRow.value).getD .zero =
        u256ToH256 (storeAfter (history.take n) key.slot) := by
  by_cases hused : key ∈ usedKeys history
  · exact h.lastRow_eq (hinj.mono (Set.subset_insert _ _)) hn hused
  · -- no row has the hashed key, since its key would be in use
    have hnone : t.storageLogs.filter (fun row => row.hashedKey = key.hashedKey hash &&
        row.miniblockNumber < bound n) = [] := by
      rw [List.filter_eq_nil_iff]
      intro row hrow hcond
      simp only [Bool.and_eq_true, decide_eq_true_eq] at hcond
      have hmem := h.usedKeys_of_row hn hrow hcond.2
      rw [h.rows.hashedKey_eq row hrow] at hcond
      exact hused (hinj (Set.mem_insert_of_mem _ hmem) (Set.mem_insert _ _) hcond.1 ▸ hmem)
    have hstore := h.consistent.lastValue_take hn key
    rw [lastValue, List.filter_eq_nil_iff.mpr] at hstore
    · rw [hnone]
      exact hstore
    · intro record hrecord hkey
      obtain ⟨batch, hbatch, hrecord⟩ := List.mem_flatMap.mp hrecord
      obtain ⟨q, hq, rfl⟩ := List.mem_map.mp hrecord
      exact hused ⟨batch, List.mem_of_mem_take hbatch, q, List.mem_of_mem_filter hq,
        of_decide_eq_true hkey⟩

theorem TablesInv.valueAsOf_batch {t : StorageTables} {history : List SealedBatch}
    {bound : ℕ → ℕ} {pending : List LogQuery} (h : TablesInv hash t history bound pending)
    {key : StorageKey}
    (hinj : Set.InjOn (StorageKey.hashedKey hash) (insert key (usedKeys history))) {n : ℕ}
    (hn : n ≤ history.length) (hpos : 0 < bound n) :
    t.getHistoricalValueUnchecked hash key (bound n - 1) =
      u256ToH256 (storeAfter (history.take n) key.slot) := by
  have hfilter : t.storageLogs.filter (fun row => row.hashedKey = key.hashedKey hash &&
      row.miniblockNumber ≤ bound n - 1) = t.storageLogs.filter fun row =>
        row.hashedKey = key.hashedKey hash && row.miniblockNumber < bound n := by
    apply List.filter_congr
    intro row _
    congr 2
    rw [eq_iff_iff]
    omega
  rw [getHistoricalValueUnchecked, h.historicalValue_eq, valueAsOf, hfilter,
    h.value_before hinj hn]

/-- The API reads of a key against the batches and against a RocksDB cache of the same chain. -/
structure ReadsBatches (hash : List UInt8 → H256) (s : ChainState) (cache : RocksdbStorage)
    (key : StorageKey) : Prop where
  after : ∀ n (hn : n < s.history.length), ∃ first last,
    s.io.storage.getMiniblockRangeOfL1Batch n = some (first, last) ∧
      s.io.storage.getHistoricalValueUnchecked hash key last =
        u256ToH256 (s.history[n].after key.slot) ∧
      (0 < first → s.io.storage.getHistoricalValueUnchecked hash key (first - 1) =
        u256ToH256 (s.history[n].before key.slot))
  cached : ∀ n, cache.l1BatchNumber = n + 1 → ∃ first last,
    s.io.storage.getMiniblockRangeOfL1Batch n = some (first, last) ∧
      cache.readValue hash key = s.io.storage.getHistoricalValueUnchecked hash key last
  empty : cache.l1BatchNumber = 0 → cache.readValue hash key = .zero

/-- In every state of a chain, the value of a key as of the last miniblock of a batch is its value
after the batch, and a cache that has processed some batches, cut off or not, reads it as of the
last miniblock of the last one. -/
theorem ChainState.Reachable.readsBatches (hash : List UInt8 → H256) (s : ChainState)
    (hs : Reachable hash s) (cache : RocksdbStorage)
    (hcache : CacheRun hash s.io s.history cache) (key : StorageKey)
    (hinj : Set.InjOn (StorageKey.hashedKey hash) (insert key (usedKeys s.history))) :
    ReadsBatches hash s cache key := by
  obtain ⟨bound, hinv⟩ := hs.sealRun.inv
  obtain ⟨count, hcount, hsynced⟩ := hcache.inv
  have hrange {n : ℕ} (hn : n < s.history.length) :
      s.io.storage.getMiniblockRangeOfL1Batch n = some (bound n, bound (n + 1) - 1) := by
    obtain ⟨hmin, hmax⟩ := hinv.tables.miniblocksOf_min_max hn
    unfold getMiniblockRangeOfL1Batch
    rw [hmin, hmax]
  have hpos {n : ℕ} (hn : n < s.history.length) : 0 < bound (n + 1) :=
    (Nat.zero_le _).trans_lt (hinv.tables.miniblocks.bound_lt n hn)
  refine ⟨fun n hn => ⟨_, _, hrange hn, ?_, fun hfirst => ?_⟩, fun n hn => ?_, fun hzero => ?_⟩
  · rw [hinv.tables.valueAsOf_batch hinj hn (hpos hn), List.take_succ_eq_append_getElem hn,
      storeAfter_concat]
  · rw [hinv.tables.valueAsOf_batch hinj hn.le hfirst, (hinv.tables.consistent n hn).before_eq]
  · have hlt : n < s.history.length := by
      rw [hsynced.number] at hn
      omega
    refine ⟨_, _, hrange hlt, ?_⟩
    rw [hsynced.value key hinj, hinv.tables.valueAsOf_batch hinj hlt (hpos hlt), ← hsynced.number,
      hn]
  · rw [hsynced.number] at hzero
    rw [hsynced.value key hinj, hzero]
    exact u256ToH256_zero

/-- A cache of the sample that was cut off after the genesis batch. -/
theorem ChainState.Reachable.readsBatches_sample : ∃ s cache, Reachable sampleHash s ∧
    s.history = sampleHistory ∧ cache.l1BatchNumber = 1 ∧
    ReadsBatches sampleHash s cache ⟨.zero, u256ToH256 1⟩ := by
  obtain ⟨s, s', hs, hsteps, -, hhistory, -⟩ := reachable_sample
  have hs' := hs.trans hsteps
  obtain ⟨bound, hinv⟩ := hs'.sealRun.inv
  have hcrash : CacheRun sampleHash s'.io s'.history
      (RocksdbStorage.updateBatches sampleHash s'.io.storage {} 1) := by
    refine .crash 1 (.start hs'.sealRun) (CacheRun.getSealedL1BatchNumber_eq hinv.tables
      (CacheRun.history_ne_nil hs'.sealRun)) ?_
    rw [hhistory]
    decide
  have hused : (⟨.zero, u256ToH256 1⟩ : StorageKey) ∈ usedKeys sampleHistory :=
    ⟨_, List.mem_cons_self, _, List.mem_cons_self, rfl⟩
  refine ⟨s', _, hs', hhistory, rfl, readsBatches sampleHash s' hs' _ hcrash _ ?_⟩
  rw [hhistory, Set.insert_eq_of_mem hused]
  exact injOn_sampleHistory

end OlaOs
