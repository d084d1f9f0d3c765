import OlaOs.Dal.StorageLogs
import OlaOs.Dedup.ChangedSlots
import OlaOs.Lib.Enumerate
import OlaOs.Lib.Seq

/-! What the statements on the storage tables do when they succeed. -/
namespace OlaOs

variable {hash : List UInt8 → H256} {t t' : StorageTables}

theorem insertRows_eq_ok {ρ κ : Type} [DecidableEq κ] {primaryKey : ρ → κ}
    {table rows table' : List ρ} : insertRows primaryKey table rows = .ok table' ↔
      ((table ++ rows).map primaryKey).Nodup ∧ table' = table ++ rows := by
  unfold insertRows
  split_ifs with h
  · exact ⟨fun heq => ⟨h, (Except.ok.inj heq).symm⟩, fun heq => by rw [heq.2]⟩
  · exact ⟨nofun, fun heq => absurd heq.1 h⟩

/-- The slot and the value that a row of `storage_logs` stands for. -/
def StorageLogRow.record (row : StorageLogRow) : StorageKey × H256 := (row.storageKey, row.value)

/-- The slots and values that queries leave behind, one for each write and each rollback. -/
def writeRecords (queries : List LogQuery) : List (StorageKey × H256) :=
  (queries.filter LogQuery.rwFlag).map fun q => (q.storageKey, u256ToH256 q.move.2)

theorem writeRecords_append (queries queries' : List LogQuery) :
    writeRecords (queries ++ queries') = writeRecords queries ++ writeRecords queries' := by
  rw [writeRecords, List.filter_append, List.map_append]
  rfl

/-- The rows of one miniblock. -/
structure MiniblockRows (hash : List UInt8 → H256) (number : ℕ) (queries : List LogQuery)
    (rows : List StorageLogRow) : Prop where
  number_eq : ∀ row ∈ rows, row.miniblockNumber = number
  ordered : rows.Pairwise fun a b => a.operationNumber < b.operationNumber
  hashedKey_eq : ∀ row ∈ rows, row.hashedKey = row.storageKey.hashedKey hash
  records : rows.map StorageLogRow.record = writeRecords queries

namespace StorageTables

theorem insertL1Batch_ok {header : L1BatchHeader} (h : t.insertL1Batch header = .ok t') :
    t' = { t with l1Batches := t.l1Batches ++ [header] } := by
  obtain ⟨table, htable, h⟩ := Seq.bind_eq_ok.mp h
  cases h
  rw [(insertRows_eq_ok.mp htable).2]

theorem insertMiniblock_ok {number : ℕ} (h : t.insertMiniblock number = .ok t') :
    number ∉ t.miniblocks.map MiniblockRow.number ∧
      t' = { t with miniblocks := t.miniblocks ++ [⟨number, none⟩] } := by
  obtain ⟨table, htable, h⟩ := Seq.bind_eq_ok.mp h
  cases h
  obtain ⟨hnodup, rfl⟩ := insertRows_eq_ok.mp htable
  rw [List.map_append, List.nodup_append] at hnodup
  refine ⟨?_, rfl⟩
  intro hmem
  exact hnodup.2.2 number hmem number (by simp) rfl

theorem insertStorageLogs_ok {number : ℕ} {logs : List (H256 × List StorageLog)}
    (h : t.insertStorageLogs hash number logs = .ok t') :
    t' = { t with storageLogs := t.storageLogs ++ storageLogRows hash number logs } := by
  unfold insertStorageLogs at h
  dsimp only at h
  split_ifs at h
  obtain ⟨table, htable, h⟩ := Seq.bind_eq_ok.mp h
  cases h
  rw [(insertRows_eq_ok.mp htable).2]

theorem insertProtectiveReads_ok {number : ℕ} {readLogs : List LogQuery}
    (h : t.insertProtectiveReads number readLogs = .ok t') :
    t' = { t with protectiveReads := t.protectiveReads ++
      readLogs.map fun log => ⟨number, log.address, u256ToH256 log.key⟩ } := by
  obtain ⟨table, htable, h⟩ := Seq.bind_eq_ok.mp h
  cases h
  rw [(insertRows_eq_ok.mp htable).2]

/-- The rows for grouped logs, when the logs are the writes and rollbacks of the queries. -/
theorem storageLogRows_spec {number : ℕ} {logs : List (H256 × List StorageLog)}
    {queries : List LogQuery}
    (hlogs : (logs.flatMap Prod.snd).map (fun log => (log.key, log.value)) =
      writeRecords queries) :
    MiniblockRows hash number queries (storageLogRows hash number logs) := by
  refine ⟨?_, ?_, ?_, ?_⟩
  · intro row hrow
    obtain ⟨e, -, rfl⟩ := List.mem_map.mp hrow
    rfl
  · rw [storageLogRows, List.pairwise_map]
    have hpositions := List.pairwise_lt_range'
      (s := 0) (n := (logs.flatMap fun entry => entry.2.map fun log => (entry.1, log)).length)
    rw [← List.zipIdx_map_snd 0, List.pairwise_map] at hpositions
    exact hpositions
  · intro row hrow
    obtain ⟨e, -, rfl⟩ := List.mem_map.mp hrow
    rfl
  · have hflat : (logs.flatMap fun entry => entry.2.map fun log => (entry.1, log)).map Prod.snd =
        logs.flatMap Prod.snd := by
      simp [List.map_flatMap]
    rw [← hlogs, ← hflat, storageLogRows, List.map_map, List.map_map]
    conv_rhs => rw [← List.zipIdx_map_fst 0 (logs.flatMap _), List.map_map]
    rfl

/-! Initial writes -/

/-- The rows of `initial_writes` carry the indices 1, 2, and so on, in batches that do not
decrease. -/
structure Numbered (rows : List InitialWriteRow) : Prop where
  index_eq : rows.map InitialWriteRow.index = (List.range' 1 rows.length).map some
  batches : rows.Pairwise fun a b => a.l1BatchNumber ≤ b.l1BatchNumber

/-- The indices of numbered rows, with their batches. -/
private theorem filterMap_index {rows : List InitialWriteRow} {start : ℕ}
    (h : rows.map InitialWriteRow.index = (List.range' start rows.length).map some) :
    (rows.filterMap fun row => row.index.map fun index => (index, row.l1BatchNumber)) =
      (rows.zipIdx start).map fun e => (e.2, e.1.l1BatchNumber) := by
  induction rows generalizing start with
  | nil => rfl
  | cons row rows ih =>
    rw [List.map_cons, List.length_cons, List.range'_succ, List.map_cons] at h
    obtain ⟨hindex, hrest⟩ := List.cons.inj h
    rw [List.filterMap_cons, hindex, ih hrest]
    rfl

theorem maxSetEnumerationIndex_eq (h : Numbered t.initialWrites) :
    t.maxSetEnumerationIndex =
      t.initialWrites.getLast?.map fun row => (t.initialWrites.length, row.l1BatchNumber) := by
  unfold maxSetEnumerationIndex
  rw [filterMap_index h.index_eq]
  have hsorted : ((t.initialWrites.zipIdx 1).map fun e => (e.2, e.1.l1BatchNumber)).Pairwise
      fun a b => a.1 < b.1 := by
    rw [List.pairwise_map]
    apply List.pairwise_map.mp
    rw [List.zipIdx_map_snd]
    exact List.pairwise_lt_range'
  have hreverse := SortedGroups.mergeSort_descending hsorted
  rw [hreverse, List.head?_reverse, List.getLast?_map, List.getLast?_zipIdx, Option.map_map]
  congr 1
  funext row
  simp

/-- The batch of the last row is the greatest. -/
theorem Numbered.batch_le_last {rows : List InitialWriteRow} (h : Numbered rows)
    {last : InitialWriteRow} (hlast : rows.getLast? = some last) :
    ∀ row ∈ rows, row.l1BatchNumber ≤ last.l1BatchNumber := by
  obtain ⟨rest, rfl⟩ := List.getLast?_eq_some_iff.mp hlast
  intro row hrow
  rcases List.mem_append.mp hrow with hrow | hrow
  · exact (List.pairwise_append.mp h.batches).2.2 row hrow last (by simp)
  · rw [List.mem_singleton.mp hrow]

theorem setMissingIndicesOfBatch_eq {index batch : ℕ}
    (h : ∀ row ∈ t.initialWrites, row.l1BatchNumber ≠ batch) :
    setMissingIndicesOfBatch hash (t, index) batch = .ok (t, index) := by
  have hnil : t.initialWritesForBatch batch = [] := by
    rw [initialWritesForBatch, List.filter_eq_nil_iff.mpr fun row hrow => by simpa using h row hrow,
      List.map_nil, List.mergeSort_nil]
  have hset : t.setIndicesForInitialWrites [] = t := by
    simp [setIndicesForInitialWrites]
  simp only [setMissingIndicesOfBatch, hnil, resolveHashedKeys, List.map_nil, List.mapM_nil, bind,
    Except.bind, pure, Except.pure, List.mergeSort_nil, List.zipIdx_nil, List.length_nil,
    Nat.add_zero, hset]

/-- No index is missing when every row has been inserted with one. -/
theorem setMissingInitialWritesIndices_ok (hnum : Numbered t.initialWrites)
    (h : setMissingInitialWritesIndices hash t = .ok t') : t' = t := by
  unfold setMissingInitialWritesIndices at h
  rw [maxSetEnumerationIndex_eq hnum] at h
  obtain ⟨sealed, -, h⟩ := Seq.bind_eq_ok.mp h
  obtain ⟨state, hloop, h⟩ := Seq.bind_eq_ok.mp h
  cases h
  have hskip {start count index : ℕ} (hstart : ∀ row ∈ t.initialWrites, row.l1BatchNumber < start) :
      (List.range' start count).foldlM (setMissingIndicesOfBatch hash) (t, index) =
        .ok (t, index) := by
    induction count generalizing start with
    | zero => rfl
    | succ count ih =>
      rw [List.range'_succ, List.foldlM_cons,
        setMissingIndicesOfBatch_eq fun row hrow => (hstart row hrow).ne]
      exact ih fun row hrow => (hstart row hrow).trans (Nat.lt_succ_self _)
  cases hlast : t.initialWrites.getLast? with
  | none =>
    rw [List.getLast?_eq_none_iff] at hlast
    rw [hskip (by simp [hlast])] at hloop
    cases hloop
    rfl
  | some last =>
    rw [hlast] at hloop
    dsimp only [Option.map_some] at hloop
    rw [hskip fun row hrow => Nat.lt_succ_of_le (hnum.batch_le_last hlast row hrow)] at hloop
    cases hloop
    rfl

theorem insertInitialWrites_ok (hnum : Numbered t.initialWrites) {number : ℕ}
    {keys : List StorageKey} (h : t.insertInitialWrites hash number keys = .ok t') :
    (t'.initialWrites.map InitialWriteRow.hashedKey).Nodup ∧
    t' = { t with initialWrites := t.initialWrites ++ ((keys.map (StorageKey.hashedKey hash)).zipIdx
      (t.initialWrites.length + 1)).map fun e => ⟨e.1, number, some e.2⟩ } := by
  obtain ⟨table, htable, h⟩ := Seq.bind_eq_ok.mp h
  cases h
  have hlast : (t.maxSetEnumerationIndex.map Prod.fst).getD 0 = t.initialWrites.length := by
    rw [maxSetEnumerationIndex_eq hnum]
    cases hlast : t.initialWrites.getLast? with
    | none =>
      rw [List.getLast?_eq_none_iff] at hlast
      simp [hlast]
    | some last => rfl
  rw [hlast] at htable
  obtain ⟨hnodup, rfl⟩ := insertRows_eq_ok.mp htable
  exact ⟨hnodup, rfl⟩

/-- New rows continue the numbering. -/
theorem Numbered.append {rows : List InitialWriteRow} (h : Numbered rows) (hashes : List H256)
    {number : ℕ} (hbatch : ∀ row ∈ rows, row.l1BatchNumber ≤ number) :
    Numbered (rows ++ (hashes.zipIdx (rows.length + 1)).map fun e => ⟨e.1, number, some e.2⟩) := by
  constructor
  · have hindex : ((hashes.zipIdx (rows.length + 1)).map fun e =>
        (⟨e.1, number, some e.2⟩ : InitialWriteRow)).map InitialWriteRow.index =
          (List.range' (rows.length + 1) hashes.length).map some := by
      rw [← List.zipIdx_map_snd (rows.length + 1) hashes, List.map_map, List.map_map]
      rfl
    rw [List.map_append, h.index_eq, hindex, ← List.map_append, List.length_append, List.length_map,
      List.length_zipIdx, Nat.add_comm rows.length 1, List.range'_append_1]
  · rw [List.pairwise_append]
    refine ⟨h.batches, ?_, ?_⟩
    · rw [List.pairwise_map]
      exact List.pairwise_of_forall fun _ _ => le_rfl
    · intro a ha b hb
      obtain ⟨e, -, rfl⟩ := List.mem_map.mp hb
      exact hbatch a ha

theorem Numbered.filter {rows : List InitialWriteRow} (h : Numbered rows) (n : ℕ) :
    Numbered (rows.filter fun row => row.l1BatchNumber < n) := by
  refine ⟨?_, h.batches.sublist List.filter_sublist⟩
  have hprefix : (rows.filter fun row => row.l1BatchNumber < n) <+: rows := by
    have hbatches := h.batches
    clear h
    induction rows with
    | nil => exact List.nil_prefix
    | cons row rows ih =>
      obtain ⟨hhead, htail⟩ := List.pairwise_cons.mp hbatches
      by_cases hlt : row.l1BatchNumber < n
      · rw [List.filter_cons_of_pos (by simpa using hlt)]
        exact List.cons_prefix_cons.mpr ⟨rfl, ih htail⟩
      · rw [List.filter_eq_nil_iff.mpr]
        · exact List.nil_prefix
        · intro row' hrow'
          have hle : row.l1BatchNumber ≤ row'.l1BatchNumber := by
            rcases List.mem_cons.mp hrow' with rfl | hrow'
            · exact le_rfl
            · exact hhead row' hrow'
          simp only [decide_eq_true_eq]
          omega
  have hindex := hprefix.map InitialWriteRow.index
  rw [h.index_eq, List.prefix_iff_eq_take, ← List.map_take, List.length_map,
    List.take_range'_of_length_ge hprefix.length_le] at hindex
  exact hindex

/-- A row carries the place of its key. -/
theorem Numbered.index_iff {rows : List InitialWriteRow} (h : Numbered rows)
    (hnodup : (rows.map InitialWriteRow.hashedKey).Nodup) (hashedKey : H256) (i : ℕ) :
    (∃ row ∈ rows, row.hashedKey = hashedKey ∧ row.index = some i) ↔
      hashedKey ∈ rows.map InitialWriteRow.hashedKey ∧
        i = (rows.map InitialWriteRow.hashedKey).idxOf hashedKey + 1 := by
  have hplace : ∀ k (hk : k < rows.length), rows[k].index = some (k + 1) ∧
      (rows.map InitialWriteRow.hashedKey).idxOf rows[k].hashedKey = k := by
    intro k hk
    constructor
    · have hget : (rows.map InitialWriteRow.index)[k]? = some (some (1 + k)) := by
        rw [h.index_eq, List.getElem?_map, List.getElem?_range' hk]
        simp
      rw [List.getElem?_map, List.getElem?_eq_getElem hk] at hget
      rw [Nat.add_comm]
      simpa using hget
    · have hidx := List.Nodup.idxOf_getElem hnodup k (by simpa using hk)
      simpa using hidx
  constructor
  · rintro ⟨row, hrow, rfl, hindex⟩
    obtain ⟨k, hk, rfl⟩ := List.getElem_of_mem hrow
    rw [(hplace k hk).1, Option.some.injEq] at hindex
    exact ⟨List.mem_map.mpr ⟨_, hrow, rfl⟩, by rw [(hplace k hk).2, hindex]⟩
  · rintro ⟨hmem, rfl⟩
    obtain ⟨row, hrow, rfl⟩ := List.mem_map.mp hmem
    obtain ⟨k, hk, rfl⟩ := List.getElem_of_mem hrow
    exact ⟨_, hrow, rfl, by rw [(hplace k hk).1, (hplace k hk).2]⟩

theorem Numbered.index_isSome {rows : List InitialWriteRow} (h : Numbered rows) :
    ∀ row ∈ rows, row.index.isSome := by
  intro row hrow
  have hmem : row.index ∈ (List.range' 1 rows.length).map some := by
    rw [← h.index_eq]
    exact List.mem_map.mpr ⟨row, hrow, rfl⟩
  obtain ⟨i, -, hi⟩ := List.mem_map.mp hmem
  rw [← hi]
  rfl

end StorageTables

end OlaOs
