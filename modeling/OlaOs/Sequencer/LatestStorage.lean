import OlaOs.Sequencer.Chain

/-! In every state of the chain, `storage` holds for each hashed key what the rows of
`storage_logs` with this key say: the slot of the first one, the value and the transaction of the
last one. -/
namespace OlaOs

open StorageTables

variable {hash : List UInt8 → H256}

/-- The row of `storage` for the logs of one hashed key, in their order. -/
def latestRow (logs : List StorageLogRow) : Option StorageRow :=
  match logs.head?, logs.getLast? with
  | some first, some last =>
    some ⟨first.hashedKey, first.address, first.key, last.value, last.txHash⟩
  | _, _ => none

theorem latestRow_append {logs new : List StorageLogRow} {first last : StorageLogRow}
    (hfirst : new.head? = some first) (hlast : new.getLast? = some last) :
    latestRow (logs ++ new) = some (match latestRow logs with
      | none => ⟨first.hashedKey, first.address, first.key, last.value, last.txHash⟩
      | some old => { old with value := last.value, txHash := last.txHash }) := by
  cases logs with
  | nil => simp [latestRow, hfirst, hlast]
  | cons log logs =>
    cases hold : (log :: logs).getLast? with
    | none => simp at hold
    | some lastOld =>
      unfold latestRow
      rw [List.getLast?_append, hlast, hold]
      rfl

/-- The logs of a miniblock in the order of their rows, each with its transaction. -/
def flatLogs (logs : List (H256 × List StorageLog)) : List (H256 × StorageLog) :=
  logs.flatMap fun entry => entry.2.map fun log => (entry.1, log)

/-- What a row says, without its place in the order. -/
def StorageLogRow.content (row : StorageLogRow) : StorageRow :=
  ⟨row.hashedKey, row.address, row.key, row.value, row.txHash⟩

def contentOf (hash : List UInt8 → H256) (entry : H256 × StorageLog) : StorageRow :=
  ⟨entry.2.key.hashedKey hash, entry.2.key.account, entry.2.key.key, entry.2.value, entry.1⟩

theorem content_storageLogRows (number : ℕ) (logs : List (H256 × List StorageLog)) :
    (storageLogRows hash number logs).map StorageLogRow.content =
      (flatLogs logs).map (contentOf hash) := by
  rw [storageLogRows, List.map_map]
  conv_rhs => rw [← List.zipIdx_map_fst 0 (flatLogs logs), List.map_map]
  rfl

theorem content_filter (rows : List StorageLogRow) (hashedKey : H256) :
    (rows.filter fun row => row.hashedKey = hashedKey).map StorageLogRow.content =
      (rows.map StorageLogRow.content).filter fun row => row.hashedKey = hashedKey := by
  rw [List.filter_map]
  rfl

theorem uniqueUpdates_eq (logs : List (H256 × List StorageLog)) : StorageDal.uniqueUpdates logs =
    .ofList ((flatLogs logs).map fun entry => (entry.2.key, (entry.1, entry.2.value))) := by
  rw [StorageDal.uniqueUpdates, flatLogs, List.map_flatMap]
  simp only [List.map_map, Function.comp_def]

/-- The logs of a hashed key, when the statement for all logs succeeds: they have one slot, and the
rows that the statement puts in for the key are one, with the last value. -/
theorem uniqueUpdates_of_hashedKey {logs : List (H256 × List StorageLog)}
    (hnodup : (((StorageDal.uniqueUpdates logs).toList.map Prod.fst).map
      (StorageKey.hashedKey hash)).Nodup)
    {entries : List (H256 × StorageLog)} {hashedKey : H256}
    (hentries : entries = (flatLogs logs).filter fun entry =>
      entry.2.key.hashedKey hash = hashedKey) {last : H256 × StorageLog}
    (hlast : entries.getLast? = some last) :
    (∀ entry ∈ entries, entry.2.key = last.2.key) ∧
      (StorageDal.uniqueUpdates logs).toList.filter
          (fun update => update.1.hashedKey hash = hashedKey) =
        [(last.2.key, (last.1, last.2.value))] := by
  rw [uniqueUpdates_eq] at hnodup ⊢
  generalize hrecords : (flatLogs logs).map (fun entry =>
    (entry.2.key, (entry.1, entry.2.value))) = records at hnodup ⊢
  have hinj := List.inj_on_of_nodup_map hnodup
  have hmem : ∀ entry ∈ entries, entry.2.key.hashedKey hash = hashedKey ∧
      entry.2.key ∈ (KeyedMap.ofList records).toList.map Prod.fst := by
    intro entry hentry
    rw [hentries] at hentry
    obtain ⟨hentry, hkey⟩ := List.mem_filter.mp hentry
    have hin : entry.2.key ∈ records.map Prod.fst := by
      rw [← hrecords, List.map_map]
      exact List.mem_map_of_mem hentry
    obtain ⟨value, -, hlookup⟩ := KeyedMap.lookup_ofList_isSome hin
    exact ⟨by simpa using hkey,
      List.mem_map_of_mem (f := Prod.fst) (KeyedMap.mem_toList.mpr hlookup)⟩
  have hlastMem := hmem last (List.mem_of_getLast? hlast)
  have hsame : ∀ entry ∈ entries, entry.2.key = last.2.key := fun entry hentry =>
    hinj (hmem entry hentry).2 hlastMem.2 ((hmem entry hentry).1.trans hlastMem.1.symm)
  refine ⟨hsame, ?_⟩
  -- the value that is kept for the slot is that of the last log
  have hlookup : (KeyedMap.ofList records).lookup last.2.key = some (last.1, last.2.value) := by
    have hfilter : (flatLogs logs).filter (fun entry => entry.2.key = last.2.key) = entries := by
      rw [hentries]
      apply List.filter_congr
      intro entry hentry
      refine decide_eq_decide.mpr ⟨fun h => h ▸ hlastMem.1, fun h => hsame entry ?_⟩
      rw [hentries]
      exact List.mem_filter.mpr ⟨hentry, by simpa using h⟩
    rw [lookup_ofList_eq_lastValue, lastValue, ← hrecords, List.filter_map, Function.comp_def,
      hfilter, List.getLast?_map, hlast]
    rfl
  have hfilter : (KeyedMap.ofList records).toList.filter
      (fun update => update.1.hashedKey hash = hashedKey) =
        (KeyedMap.ofList records).toList.filter fun update => update.1 = last.2.key := by
    apply List.filter_congr
    intro update hupdate
    refine decide_eq_decide.mpr ⟨fun h => ?_, fun h => h ▸ hlastMem.1⟩
    exact hinj (List.mem_map_of_mem hupdate) hlastMem.2 (h.trans hlastMem.1.symm)
  rw [hfilter, KeyedMap.filter_key_toList, hlookup]
  rfl

theorem uniqueUpdates_of_no_log {logs : List (H256 × List StorageLog)} {hashedKey : H256}
    (hnil : (flatLogs logs).filter (fun entry => entry.2.key.hashedKey hash = hashedKey) = []) :
    (StorageDal.uniqueUpdates logs).toList.filter
      (fun update => update.1.hashedKey hash = hashedKey) = [] := by
  rw [uniqueUpdates_eq, List.filter_eq_nil_iff]
  intro update hupdate hkey
  have hmem := KeyedMap.mem_of_lookup_ofList (KeyedMap.mem_toList.mp hupdate)
  obtain ⟨entry, hentry, heq⟩ := List.mem_map.mp hmem
  rw [← (Prod.mk.inj heq).1] at hkey
  exact List.filter_eq_nil_iff.mp hnil entry hentry hkey

/-- The rows for one hashed key that the statement puts in. -/
theorem queryParts_filter (updates : List (StorageKey × (H256 × H256))) (hashedKey : H256) :
    (updates.map fun (key, (txHash, value)) =>
        (⟨key.hashedKey hash, key.account, key.key, value, txHash⟩ : StorageRow)).filter
          (fun row => row.hashedKey = hashedKey) =
      (updates.filter fun update => update.1.hashedKey hash = hashedKey).map
        fun (key, (txHash, value)) =>
          ⟨key.hashedKey hash, key.account, key.key, value, txHash⟩ := by
  rw [List.filter_map]
  rfl

/-- `storage` has one row for each hashed key of `storage_logs`, its latest one. -/
structure StorageInv (storage : List StorageRow) (rows : List StorageLogRow) : Prop where
  nodup : (storage.map StorageRow.hashedKey).Nodup
  row_eq : ∀ hashedKey, Upsert.row StorageRow.hashedKey storage hashedKey =
    latestRow (rows.filter fun row => row.hashedKey = hashedKey)

/-- One statement for the logs of a miniblock. -/
theorem StorageInv.apply {storage storage' : List StorageRow} {rows : List StorageLogRow}
    (h : StorageInv storage rows) {logs : List (H256 × List StorageLog)}
    {updates : KeyedMap StorageKey (H256 × H256)}
    (happly : StorageDal.applyStorageLogs hash storage logs = .ok (storage', updates))
    (number : ℕ) : StorageInv storage' (rows ++ storageLogRows hash number logs) := by
  have hkeep : ∀ old new : StorageRow, (StorageDal.setExcluded old new).hashedKey =
      old.hashedKey := fun _ _ => rfl
  unfold StorageDal.applyStorageLogs at happly
  dsimp only at happly
  split_ifs at happly with hnodup
  obtain ⟨rfl, -⟩ := Prod.mk.inj (Except.ok.inj happly)
  refine ⟨Upsert.nodup_foldl_upsert hkeep h.nodup _, fun hashedKey => ?_⟩
  have hkeys : (((StorageDal.uniqueUpdates logs).toList.map Prod.fst).map
      (StorageKey.hashedKey hash)).Nodup := by
    rw [List.map_map] at hnodup ⊢
    exact hnodup
  rw [Upsert.row_foldl_upsert hkeep, h.row_eq, queryParts_filter, List.filter_append]
  generalize hentries : (flatLogs logs).filter
    (fun entry => entry.2.key.hashedKey hash = hashedKey) = entries
  have hcontent : ((storageLogRows hash number logs).filter
      fun row => row.hashedKey = hashedKey).map StorageLogRow.content =
        entries.map (contentOf hash) := by
    rw [content_filter, content_storageLogRows, List.filter_map, ← hentries]
    rfl
  generalize (storageLogRows hash number logs).filter
    (fun row => row.hashedKey = hashedKey) = new at hcontent ⊢
  cases hlast : entries.getLast? with
  | none =>
    obtain rfl := List.getLast?_eq_none_iff.mp hlast
    obtain rfl : new = [] := by simpa using hcontent
    rw [uniqueUpdates_of_no_log hentries, List.append_nil]
    rfl
  | some last =>
    obtain ⟨hsame, hparts⟩ := uniqueUpdates_of_hashedKey hkeys hentries.symm hlast
    obtain ⟨entry, hentry⟩ : ∃ entry, entries.head? = some entry := by
      cases entries with
      | nil => cases hlast
      | cons entry entries => exact ⟨entry, rfl⟩
    -- the first and the last row are those of the first and the last log
    obtain ⟨first, hfirst, hfirstEq⟩ : ∃ row, new.head? = some row ∧
        row.content = contentOf hash entry := by
      have := congrArg List.head? hcontent
      rw [List.head?_map, List.head?_map, hentry] at this
      exact Option.map_eq_some_iff.mp this
    obtain ⟨lastRow, hlastRow, hlastEq⟩ : ∃ row, new.getLast? = some row ∧
        row.content = contentOf hash last := by
      have := congrArg List.getLast? hcontent
      rw [List.getLast?_map, List.getLast?_map, hlast] at this
      exact Option.map_eq_some_iff.mp this
    have hslot := hsame entry (List.mem_of_mem_head? hentry)
    simp only [StorageLogRow.content, contentOf, StorageRow.mk.injEq] at hfirstEq hlastEq
    rw [hparts, latestRow_append hfirst hlastRow]
    cases hold : latestRow (rows.filter fun row => row.hashedKey = hashedKey) with
    | none => simp [Upsert.mergeRow, hfirstEq, hlastEq, hslot]
    | some old => simp [Upsert.mergeRow, StorageDal.setExcluded, hlastEq]

/-- The rows of `storage` over a run. -/
theorem ChainState.Reachable.storageInv {s : ChainState} (h : Reachable hash s) :
    StorageInv s.chain.storage s.io.storage.storageLogs := by
  induction h with
  | genesis h =>
    cases h with
    | create batchTimestamp protocolVersion hwrites hrun hchain hqueries hbatch =>
      obtain ⟨⟨storage', updates⟩, happly, hchain⟩ := Seq.bind_eq_ok.mp hchain
      cases hchain
      have hempty : StorageInv [] [] := ⟨.nil, fun _ => rfl⟩
      rw [(genesis_tables hrun).1]
      exact hempty.apply happly 0
  | step hs hstep ih =>
    rcases hstep.cases hs with ⟨hstorage, -, hchain, -⟩ | ⟨command, isFictive, hseals⟩
    · rw [hstorage, hchain]
      exact ih
    · obtain ⟨logs, updates, hrows, happly⟩ := hseals.logs
      rw [hrows]
      exact ih.apply happly _

/-- The values of `storage` are those of the last logs: in every state, the row of a hashed key has
the slot of its first log and the value and transaction of its last one, and there is no row for a
key without a log. -/
theorem ChainState.Reachable.storage_latest (hash : List UInt8 → H256) (s : ChainState)
    (h : Reachable hash s) : (s.chain.storage.map StorageRow.hashedKey).Nodup ∧
      ∀ hashedKey, (s.chain.storage.find? fun row => row.hashedKey = hashedKey) =
        latestRow (s.io.storage.orderedLogs fun row => row.hashedKey = hashedKey) := by
  obtain ⟨bound, hinv⟩ := h.sealRun.inv
  refine ⟨h.storageInv.nodup, fun hashedKey => ?_⟩
  rw [hinv.tables.orderedLogs_eq]
  exact h.storageInv.row_eq hashedKey

theorem sampleChainRun_storage :
    (sampleChainRun.toOption.map fun run => run.2.2.2.storage.length) = some 3 := by
  simp only [sampleChainRun, SequencerIo.sealL1Batch, UpdatesManager.sealL1Batch, sort_sampleBatch]
  decide +kernel

theorem ChainState.Reachable.storage_latest_sample : ∃ s, Reachable sampleHash s ∧
    s.chain.storage.length = 3 ∧ ∀ hashedKey,
      (s.chain.storage.find? fun row => row.hashedKey = hashedKey) =
        latestRow (s.io.storage.orderedLogs fun row => row.hashedKey = hashedKey) := by
  obtain ⟨s, s', hs, hsteps, -, -, io, chain, hrun⟩ := reachable_sample
  have hlength := sampleChainRun_storage
  rw [hrun] at hlength
  exact ⟨s', hs.trans hsteps, Option.some.inj hlength,
    (storage_latest sampleHash s' (hs.trans hsteps)).2⟩

end OlaOs
