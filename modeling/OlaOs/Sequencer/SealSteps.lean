import OlaOs.Dal.StorageStatements
import OlaOs.Sequencer.SealLogic

/-! What sealing a miniblock or a batch does to the storage tables when it succeeds. -/
namespace OlaOs

open StorageTables Enumerate

variable {hash : List UInt8 → H256} {t t' : StorageTables}

/-- The hashed keys of the writes of a deduplicated list. -/
def writtenHashes (hash : List UInt8 → H256) (deduplicated : List LogQuery) : List H256 :=
  (deduplicated.filter LogQuery.rwFlag).map fun q => q.storageKey.hashedKey hash

theorem fromLogQuery_record {log : StorageLogQuery} (h : log.logQuery.rwFlag = true) :
    ((StorageLog.fromLogQuery log).key, (StorageLog.fromLogQuery log).value) =
      (log.logQuery.storageKey, u256ToH256 log.logQuery.move.2) := by
  unfold StorageLog.fromLogQuery LogQuery.move
  cases hrb : log.logQuery.rollback <;> simp [h, StorageLog.newWriteLog]

namespace MiniblockSealCommand

variable {command : MiniblockSealCommand} {isFictive : Bool}

/-- The grouped logs are the writes and rollbacks of the miniblock, in their order. -/
theorem extractWriteLogs_ok {logs : List (H256 × List StorageLog)}
    (h : command.extractWriteLogs isFictive = .ok logs) :
    logs.flatMap Prod.snd = (command.miniblock.storageLogs.filter fun log =>
      log.logQuery.rwFlag).map StorageLog.fromLogQuery := by
  have hgroups := Seq.map_of_mapM (p := Prod.snd) (q := fun group : List StorageLogQuery =>
    (group.filter fun log => log.logQuery.rwFlag).map StorageLog.fromLogQuery) (fun group b hb => by
      obtain ⟨txHash, -, hb⟩ := Seq.bind_eq_ok.mp hb
      cases hb
      rfl) h
  rw [← List.flatten_splitBy (fun a b => decide
    (a.logQuery.txNumberInBlock = b.logQuery.txNumberInBlock)) command.miniblock.storageLogs,
    List.filter_flatten, List.map_flatten, List.map_map, List.flatMap_def, hgroups]
  rfl

theorem sealInner_ok (h : command.sealInner hash t isFictive = .ok t') :
    command.miniblock.executedTransactions.isEmpty = isFictive ∧
    command.miniblockNumber ∉ t.miniblocks.map MiniblockRow.number ∧
    ∃ rows, MiniblockRows hash command.miniblockNumber
        (command.miniblock.storageLogs.map StorageLogQuery.logQuery) rows ∧
      t' = { t with
        miniblocks := t.miniblocks ++ [⟨command.miniblockNumber, none⟩]
        storageLogs := t.storageLogs ++ rows } := by
  obtain ⟨_, hvalid, h⟩ := Seq.bind_eq_ok.mp h
  obtain ⟨t₁, hmini, h⟩ := Seq.bind_eq_ok.mp h
  obtain ⟨logs, hlogs, h⟩ := Seq.bind_eq_ok.mp h
  obtain ⟨t₂, hinsert, h⟩ := Seq.bind_eq_ok.mp h
  obtain ⟨_, -, h⟩ := Seq.bind_eq_ok.mp h
  obtain rfl := Except.ok.inj h
  obtain ⟨hfresh, rfl⟩ := insertMiniblock_ok hmini
  have hfictive : command.miniblock.executedTransactions.isEmpty = isFictive := by
    by_contra hne
    rw [assertValidMiniblock, if_pos hne] at hvalid
    cases hvalid
  refine ⟨hfictive, hfresh, _, storageLogRows_spec ?_, insertStorageLogs_ok hinsert⟩
  rw [extractWriteLogs_ok hlogs, List.map_map, writeRecords, List.filter_map, List.map_map]
  apply List.map_congr_left
  intro log hlog
  exact fromLogQuery_record (List.mem_filter.mp hlog).2

end MiniblockSealCommand

/-- The deduplicated queries are in the tables `t'`, on top of `t`. -/
structure Inserted (hash : List UInt8 → H256) (number : ℕ) (deduplicated : List LogQuery)
    (t t' : StorageTables) : Prop where
  frame : t'.l1Batches = t.l1Batches ∧ t'.miniblocks = t.miniblocks ∧
    t'.storageLogs = t.storageLogs
  protectiveReads : t'.protectiveReads = t.protectiveReads ++
    (deduplicated.filter fun q => !q.rwFlag).map fun q => ⟨number, q.address, u256ToH256 q.key⟩
  initialWrites : ∃ hashes : List H256, t'.initialWrites = t.initialWrites ++
    (hashes.zipIdx (t.initialWrites.length + 1)).map fun e => ⟨e.1, number, some e.2⟩
  hashedKeys : t'.initialWrites.map InitialWriteRow.hashedKey =
    enumerate (t.initialWrites.map InitialWriteRow.hashedKey) (writtenHashes hash deduplicated)

theorem map_hashedKey_rows (number start : ℕ) (hashes : List H256) :
    ((hashes.zipIdx start).map fun e => (⟨e.1, number, some e.2⟩ : InitialWriteRow)).map
      InitialWriteRow.hashedKey = hashes := by
  rw [List.map_map]
  exact List.zipIdx_map_fst start hashes

/-- Both ways of inserting the deduplicated queries, given that the keys inserted into
`initial_writes` are those whose hash is not there yet. -/
theorem inserted_of_ok {number : ℕ} {deduplicated : List LogQuery} {keys : List StorageKey}
    (hnum : Numbered t.initialWrites) {t₁ : StorageTables}
    (hreads : t.insertProtectiveReads number (deduplicated.filter fun q => !q.rwFlag) = .ok t₁)
    (hkeys : keys.map (StorageKey.hashedKey hash) = (writtenHashes hash deduplicated).filter
      (· ∉ t.initialWrites.map InitialWriteRow.hashedKey))
    (hwrites : t₁.insertInitialWrites hash number keys = .ok t') :
    Inserted hash number deduplicated t t' := by
  obtain rfl := insertProtectiveReads_ok hreads
  obtain ⟨hnodup, rfl⟩ := insertInitialWrites_ok (by exact hnum) hwrites
  refine ⟨⟨rfl, rfl, rfl⟩, rfl, ⟨_, rfl⟩, ?_⟩
  simp only [List.map_append, map_hashedKey_rows, hkeys] at hnodup ⊢
  exact (enumerate_of_nodup (List.nodup_append.mp hnodup).2.1).symm

theorem UpdatesManager.insertDeduplicated_ok {number : ℕ} {deduplicated : List LogQuery}
    (hnum : Numbered t.initialWrites)
    (h : insertDeduplicated hash t number deduplicated = .ok t') :
    Inserted hash number deduplicated t t' := by
  unfold insertDeduplicated at h
  rw [List.partition_eq_filter_filter] at h
  obtain ⟨t₁, hreads, h⟩ := Seq.bind_eq_ok.mp h
  obtain ⟨t₂, hmissing, h⟩ := Seq.bind_eq_ok.mp h
  have heq := insertProtectiveReads_ok hreads
  have hnum₁ : Numbered t₁.initialWrites := by
    rw [heq]
    exact hnum
  obtain rfl := setMissingInitialWritesIndices_ok hnum₁ hmissing
  refine inserted_of_ok hnum hreads ?_ h
  have hsame : t₂.initialWrites = t.initialWrites := by rw [heq]
  rw [← hsame, writtenHashes, List.filter_map, List.map_map, ← List.map_map, List.filter_map,
    List.map_map]
  apply congrArg
  apply List.filter_congr
  intro q hq
  refine decide_eq_decide.mpr (not_congr ?_)
  rw [filterWrittenSlots, List.mem_map, List.mem_map]
  constructor
  · rintro ⟨row, hrow, hhash⟩
    exact ⟨row, List.mem_of_mem_filter hrow, hhash⟩
  · rintro ⟨row, hrow, hhash⟩
    refine ⟨row, List.mem_filter.mpr ⟨hrow, ?_⟩, hhash⟩
    exact decide_eq_true (List.mem_map.mpr ⟨q, hq, hhash.symm⟩)

end OlaOs
