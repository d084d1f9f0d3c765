import OlaOs.Sequencer.SealHistory

/-! What the storage tables hold in every state of the sequencer. -/
namespace OlaOs

open StorageTables Enumerate

variable {hash : List UInt8 → H256} {history : List SealedBatch} {bound : ℕ → ℕ}

/-- The miniblocks are numbered from 0 on, and batch `n` has those from `bound n` to before
`bound (n + 1)`; at least two, but for the first batch. -/
structure MiniblocksInv (miniblocks : List MiniblockRow) (batches : ℕ) (bound : ℕ → ℕ) : Prop where
  numbers : miniblocks.map MiniblockRow.number = List.range miniblocks.length
  length_le : miniblocks.length ≤ 2 ^ 32
  bound_zero : bound 0 = 0
  bound_lt : ∀ n < batches, bound n < bound (n + 1)
  bound_le : bound batches ≤ miniblocks.length
  two_each : 2 * batches ≤ bound batches + 1
  sealed_iff : ∀ row ∈ miniblocks, ∀ n : ℕ, row.l1BatchNumber = some (n : ℤ) ↔
    n < batches ∧ bound n ≤ row.number ∧ row.number < bound (n + 1)
  pending_iff : ∀ row ∈ miniblocks, row.l1BatchNumber = none ↔ bound batches ≤ row.number

/-- The records of the rows whose miniblock is in a range. -/
def recordsIn (rows : List StorageLogRow) (start stop : ℕ) : List (StorageKey × H256) :=
  (rows.filter fun row => start ≤ row.miniblockNumber && row.miniblockNumber < stop).map
    StorageLogRow.record

/-- The rows of `storage_logs` are ordered, and the miniblocks of a batch hold the writes and
rollbacks of its queries; so do those after the last batch with the queries `pending`. -/
structure RowsInv (hash : List UInt8 → H256) (rows : List StorageLogRow)
    (history : List SealedBatch) (bound : ℕ → ℕ) (count : ℕ) (pending : List LogQuery) : Prop where
  ordered : rows.Pairwise fun a b => a.miniblockNumber < b.miniblockNumber ∨
    a.miniblockNumber = b.miniblockNumber ∧ a.operationNumber < b.operationNumber
  lt_count : ∀ row ∈ rows, row.miniblockNumber < count
  hashedKey_eq : ∀ row ∈ rows, row.hashedKey = row.storageKey.hashedKey hash
  batch_records : ∀ n (hn : n < history.length),
    recordsIn rows (bound n) (bound (n + 1)) = writeRecords history[n].queries
  pending_records : recordsIn rows (bound history.length) count = writeRecords pending

/-- The rows of `protective_reads` and `initial_writes` are those of the deduplicated queries. -/
structure DedupInv (hash : List UInt8 → H256) (protectiveReads : List ProtectiveReadRow)
    (initialWrites : List InitialWriteRow) (history : List SealedBatch) : Prop where
  sorted : ∀ batch ∈ history, ∃ sorted,
    sortStorageAccessQueries batch.queries = .ok (sorted, batch.deduplicated)
  reads_lt : ∀ row ∈ protectiveReads, row.l1BatchNumber < history.length
  reads : ∀ n (hn : n < history.length),
    protectiveReads.filter (fun row => row.l1BatchNumber = n) =
      (history[n].deduplicated.filter fun q => !q.rwFlag).map
        fun q => ⟨n, q.address, u256ToH256 q.key⟩
  numbered : Numbered initialWrites
  writes_lt : ∀ row ∈ initialWrites, row.l1BatchNumber < history.length
  hashedKeys : ∀ n ≤ history.length,
    (initialWrites.filter fun row => row.l1BatchNumber < n).map InitialWriteRow.hashedKey =
      enumerate [] ((history.take n).flatMap fun batch => writtenHashes hash batch.deduplicated)

/-! Miniblocks -/

theorem miniblocksInv_nil : MiniblocksInv [] 0 fun _ => 0 :=
  ⟨rfl, by simp, rfl, nofun, le_rfl, by simp, nofun, nofun⟩

/-- The number of a new miniblock does not wrap. -/
theorem MiniblocksInv.number_eq {miniblocks : List MiniblockRow} {batches : ℕ}
    (h : MiniblocksInv miniblocks batches bound)
    (hfresh : miniblocks.length % 2 ^ 32 ∉ miniblocks.map MiniblockRow.number) :
    miniblocks.length < 2 ^ 32 := by
  rw [h.numbers, List.mem_range] at hfresh
  by_contra hge
  have hlen : miniblocks.length = 2 ^ 32 := le_antisymm h.length_le (not_lt.mp hge)
  rw [hlen] at hfresh
  exact hfresh (by norm_num)

theorem MiniblocksInv.bound_mono {miniblocks : List MiniblockRow} {batches : ℕ}
    (h : MiniblocksInv miniblocks batches bound) {m n : ℕ} (hmn : m ≤ n) (hn : n ≤ batches) :
    bound m ≤ bound n := by
  induction hmn with
  | refl => exact le_rfl
  | step _ ih => exact (ih (by omega)).trans (h.bound_lt _ hn).le

theorem MiniblocksInv.add {miniblocks : List MiniblockRow} {batches : ℕ}
    (h : MiniblocksInv miniblocks batches bound) (hlt : miniblocks.length < 2 ^ 32) :
    MiniblocksInv (miniblocks ++ [⟨miniblocks.length, none⟩]) batches bound := by
  refine ⟨?_, ?_, h.bound_zero, h.bound_lt, ?_, h.two_each, ?_, ?_⟩
  · rw [List.map_append, h.numbers, List.length_append, List.length_singleton, List.range_succ]
    rfl
  · rw [List.length_append, List.length_singleton]
    omega
  · rw [List.length_append]
    exact h.bound_le.trans (Nat.le_add_right _ _)
  · intro row hrow n
    rcases List.mem_append.mp hrow with hrow | hrow
    · exact h.sealed_iff row hrow n
    · rw [List.mem_singleton.mp hrow]
      simp only [reduceCtorEq, false_iff, not_and, not_lt]
      exact fun hn _ => (h.bound_mono (Nat.succ_le_of_lt hn) le_rfl).trans h.bound_le
  · intro row hrow
    rcases List.mem_append.mp hrow with hrow | hrow
    · exact h.pending_iff row hrow
    · rw [List.mem_singleton.mp hrow]
      simp only [true_iff]
      exact h.bound_le

/-- The pending miniblocks are put into the next batch. There are too few miniblocks for a batch
number that does not fit into an `i32`. -/
theorem MiniblocksInv.seal {miniblocks : List MiniblockRow} {batches : ℕ}
    (h : MiniblocksInv miniblocks batches bound) (hlt : bound batches < miniblocks.length)
    (htwo : 2 * (batches + 1) ≤ miniblocks.length + 1) :
    MiniblocksInv (miniblocks.map fun row =>
        { row with l1BatchNumber := row.l1BatchNumber.or (some (asI32 batches)) })
      (batches + 1) (Function.update bound (batches + 1) miniblocks.length) := by
  rw [asI32_of_lt (by have := h.length_le; omega)]
  have hold {n : ℕ} (hn : n ≤ batches) :
      Function.update bound (batches + 1) miniblocks.length n = bound n :=
    Function.update_of_ne (by omega) _ _
  have hnumber : ∀ row ∈ miniblocks, row.number < miniblocks.length := by
    intro row hrow
    rw [← List.mem_range, ← h.numbers]
    exact List.mem_map_of_mem hrow
  refine ⟨?_, ?_, ?_, ?_, ?_, ?_, ?_, ?_⟩
  · rw [List.map_map, List.length_map, ← h.numbers]
    rfl
  · rw [List.length_map]
    exact h.length_le
  · rw [hold (Nat.zero_le _), h.bound_zero]
  · intro n hn
    rcases Nat.lt_succ_iff_lt_or_eq.mp hn with hn | rfl
    · rw [hold hn.le, hold hn]
      exact h.bound_lt n hn
    · rw [hold le_rfl, Function.update_self]
      exact hlt
  · rw [Function.update_self, List.length_map]
  · rw [Function.update_self]
    exact htwo
  · intro row' hrow' n
    obtain ⟨row, hrow, rfl⟩ := List.mem_map.mp hrow'
    have hpending := h.pending_iff row hrow
    have hsealed := h.sealed_iff row hrow
    rcases lt_trichotomy n batches with hn | rfl | hn
    · have hbatch := hsealed n
      simp only [hold hn.le, hold hn, hn, Nat.lt_succ_of_lt hn, true_and] at hbatch ⊢
      rw [← hbatch]
      cases hrow : row.l1BatchNumber with
      | none => simp [hn.ne']
      | some b => simp
    · -- the miniblocks of the new batch are those that were pending
      have hbatch := hsealed n
      simp only [lt_irrefl, false_and, iff_false] at hbatch
      simp only [hold le_rfl, Function.update_self, Nat.lt_succ_self, hnumber row hrow, ← hpending,
        true_and, and_true]
      cases hrow : row.l1BatchNumber with
      | none => simp
      | some b => simpa [hrow] using hbatch
    · have hbatch := hsealed n
      simp only [hn.not_gt, false_and, iff_false] at hbatch
      simp only [show ¬ n < batches + 1 by omega, false_and, iff_false]
      cases hrow : row.l1BatchNumber with
      | none => simp [hn.ne]
      | some b => simpa [hrow] using hbatch
  · intro row' hrow'
    obtain ⟨row, hrow, rfl⟩ := List.mem_map.mp hrow'
    rw [Function.update_self]
    have hlt := hnumber row hrow
    cases row.l1BatchNumber <;> simp [hlt]

/-! Rows of `storage_logs` -/

section Records

variable {rows rows' : List StorageLogRow} {start mid stop : ℕ}

theorem recordsIn_append (rows rows' : List StorageLogRow) (start stop : ℕ) :
    recordsIn (rows ++ rows') start stop =
      recordsIn rows start stop ++ recordsIn rows' start stop := by
  rw [recordsIn, List.filter_append, List.map_append]
  rfl

theorem recordsIn_of_forall (h : ∀ row ∈ rows, start ≤ row.miniblockNumber ∧
    row.miniblockNumber < stop) : recordsIn rows start stop = rows.map StorageLogRow.record := by
  rw [recordsIn, List.filter_eq_self.mpr fun row hrow => by simpa using h row hrow]

theorem recordsIn_eq_nil (h : ∀ row ∈ rows, ¬ (start ≤ row.miniblockNumber ∧
    row.miniblockNumber < stop)) : recordsIn rows start stop = [] := by
  rw [recordsIn, List.filter_eq_nil_iff.mpr fun row hrow => by simpa using h row hrow]
  rfl

theorem recordsIn_congr (h : ∀ row ∈ rows, row.miniblockNumber < stop ↔
    row.miniblockNumber < mid) : recordsIn rows start stop = recordsIn rows start mid := by
  rw [recordsIn, recordsIn]
  congr 1
  apply List.filter_congr
  intro row hrow
  simp [h row hrow]

/-- In ordered rows two adjacent ranges make one. -/
theorem recordsIn_split (h : rows.Pairwise fun a b => a.miniblockNumber ≤ b.miniblockNumber)
    (hstart : start ≤ mid) (hstop : mid ≤ stop) :
    recordsIn rows start mid ++ recordsIn rows mid stop = recordsIn rows start stop := by
  induction rows with
  | nil => rfl
  | cons row rows ih =>
    rcases List.pairwise_cons.mp h with ⟨hle, h'⟩
    have hcons (lo hi : ℕ) : recordsIn (row :: rows) lo hi =
        recordsIn [row] lo hi ++ recordsIn rows lo hi := recordsIn_append [row] rows lo hi
    rw [hcons, hcons, hcons, ← ih h']
    by_cases hrow : row.miniblockNumber < mid
    · have hnone : recordsIn [row] mid stop = [] := recordsIn_eq_nil (by simp [hrow])
      have hsame : recordsIn [row] start stop = recordsIn [row] start mid :=
        recordsIn_congr (by simp [hrow, hrow.trans_le hstop])
      rw [hnone, hsame, List.nil_append, List.append_assoc]
    · -- no later row is in the first range either
      have hnone : recordsIn [row] start mid = [] := recordsIn_eq_nil (by
        simpa using fun _ => not_lt.mp hrow)
      have hlater : recordsIn rows start mid = [] := recordsIn_eq_nil fun row' hrow' hmem =>
        hrow ((hle row' hrow').trans_lt hmem.2)
      have hsame : recordsIn [row] mid stop = recordsIn [row] start stop := by
        rw [recordsIn, recordsIn]
        congr 1
        apply List.filter_congr
        simp [not_lt.mp hrow, hstart.trans (not_lt.mp hrow)]
      rw [hnone, hlater, hsame, List.nil_append, List.nil_append, List.nil_append]

end Records

theorem rowsInv_nil : RowsInv hash [] [] (fun _ => 0) 0 [] :=
  ⟨.nil, nofun, nofun, nofun, rfl⟩

/-- The rows of the next miniblock. -/
theorem RowsInv.add {rows rows' : List StorageLogRow} {count : ℕ} {pending queries : List LogQuery}
    (h : RowsInv hash rows history bound count pending)
    (hbound : ∀ n ≤ history.length, bound n ≤ count)
    (hrows : MiniblockRows hash count queries rows') :
    RowsInv hash (rows ++ rows') history bound (count + 1) (pending ++ queries) := by
  refine ⟨?_, ?_, ?_, ?_, ?_⟩
  · rw [List.pairwise_append]
    refine ⟨h.ordered, hrows.ordered.imp_of_mem ?_, ?_⟩
    · intro a b ha hb hab
      exact .inr ⟨(hrows.number_eq a ha).trans (hrows.number_eq b hb).symm, hab⟩
    · intro a ha b hb
      rw [hrows.number_eq b hb]
      exact .inl (h.lt_count a ha)
  · intro row hrow
    rcases List.mem_append.mp hrow with hrow | hrow
    · exact (h.lt_count row hrow).trans (Nat.lt_succ_self _)
    · rw [hrows.number_eq row hrow]
      exact Nat.lt_succ_self _
  · intro row hrow
    rcases List.mem_append.mp hrow with hrow | hrow
    · exact h.hashedKey_eq row hrow
    · exact hrows.hashedKey_eq row hrow
  · intro n hn
    have hnone : recordsIn rows' (bound n) (bound (n + 1)) = [] :=
      recordsIn_eq_nil fun row hrow hmem => by
        rw [hrows.number_eq row hrow] at hmem
        exact absurd hmem.2 (hbound (n + 1) hn).not_gt
    rw [recordsIn_append, hnone, List.append_nil]
    exact h.batch_records n hn
  · have hold : recordsIn rows (bound history.length) (count + 1) =
        recordsIn rows (bound history.length) count :=
      recordsIn_congr fun row hrow => by
        have hlt := h.lt_count row hrow
        exact ⟨fun _ => hlt, fun _ => hlt.trans (Nat.lt_succ_self _)⟩
    have hnew : recordsIn rows' (bound history.length) (count + 1) = writeRecords queries := by
      rw [← hrows.records]
      refine recordsIn_of_forall fun row hrow => ?_
      rw [hrows.number_eq row hrow]
      exact ⟨hbound _ le_rfl, Nat.lt_succ_self _⟩
    rw [recordsIn_append, hold, hnew, h.pending_records, writeRecords_append]

/-- The pending rows become those of the next batch. -/
theorem RowsInv.seal {rows : List StorageLogRow} {count : ℕ} {batch : SealedBatch}
    (h : RowsInv hash rows history bound count batch.queries) :
    RowsInv hash rows (history ++ [batch]) (Function.update bound (history.length + 1) count) count
      [] := by
  have hold {n : ℕ} (hn : n ≤ history.length) :
      Function.update bound (history.length + 1) count n = bound n :=
    Function.update_of_ne (by omega) _ _
  refine ⟨h.ordered, h.lt_count, h.hashedKey_eq, ?_, ?_⟩
  · intro n hn
    rw [List.length_append, List.length_singleton] at hn
    rcases Nat.lt_succ_iff_lt_or_eq.mp hn with hn | rfl
    · rw [hold hn.le, hold hn, List.getElem_append_left hn]
      exact h.batch_records n hn
    · rw [hold le_rfl, Function.update_self, List.getElem_concat_length rfl]
      exact h.pending_records
  · rw [List.length_append, List.length_singleton, Function.update_self]
    exact recordsIn_eq_nil fun row _ hmem => absurd hmem.1 hmem.2.not_ge

/-- The rows before batch `n` are those of the batches before it. -/
theorem RowsInv.records_before {rows : List StorageLogRow} {count : ℕ} {pending : List LogQuery}
    {miniblocks : List MiniblockRow} (h : RowsInv hash rows history bound count pending)
    (hm : MiniblocksInv miniblocks history.length bound) {n : ℕ} (hn : n ≤ history.length) :
    recordsIn rows 0 (bound n) =
      (history.take n).flatMap fun batch => writeRecords batch.queries := by
  induction n with
  | zero =>
    rw [hm.bound_zero]
    exact recordsIn_eq_nil (by simp)
  | succ n ih =>
    have hordered : rows.Pairwise fun a b => a.miniblockNumber ≤ b.miniblockNumber :=
      h.ordered.imp fun hab => hab.elim le_of_lt fun hab => hab.1.le
    rw [← recordsIn_split hordered (Nat.zero_le _) (hm.bound_mono (Nat.le_succ n) hn),
      ih (by omega), h.batch_records n hn, List.take_succ_eq_append_getElem hn,
      List.flatMap_append, List.flatMap_singleton]

/-! Protective reads and initial writes -/

theorem dedupInv_nil : DedupInv hash [] [] [] :=
  ⟨nofun, nofun, nofun, ⟨rfl, .nil⟩, nofun, fun n hn => by simp [enumerate]⟩

/-! Rows that are added for the next batch -/

section Rows

variable {α : Type} {f : α → ℕ} {old new : List α} {number n : ℕ}

theorem filter_eq_append_of_lt (hnew : ∀ row ∈ new, f row = number) (hn : n < number) :
    (old ++ new).filter (fun row => f row = n) = old.filter fun row => f row = n := by
  have hnone : new.filter (fun row => f row = n) = [] := by
    rw [List.filter_eq_nil_iff]
    intro row hrow
    simpa [hnew row hrow] using hn.ne'
  rw [List.filter_append, hnone, List.append_nil]

theorem filter_eq_append_last (hold : ∀ row ∈ old, f row < number)
    (hnew : ∀ row ∈ new, f row = number) :
    (old ++ new).filter (fun row => f row = number) = new := by
  have hnone : old.filter (fun row => f row = number) = [] := by
    rw [List.filter_eq_nil_iff]
    intro row hrow
    simpa using (hold row hrow).ne
  rw [List.filter_append, hnone, List.nil_append, List.filter_eq_self.mpr]
  intro row hrow
  simpa using hnew row hrow

theorem filter_lt_append_of_le (hnew : ∀ row ∈ new, f row = number) (hn : n ≤ number) :
    (old ++ new).filter (fun row => f row < n) = old.filter fun row => f row < n := by
  have hnone : new.filter (fun row => f row < n) = [] := by
    rw [List.filter_eq_nil_iff]
    intro row hrow
    simpa [hnew row hrow] using hn
  rw [List.filter_append, hnone, List.append_nil]

theorem lt_succ_of_mem_append (hold : ∀ row ∈ old, f row < number)
    (hnew : ∀ row ∈ new, f row = number) : ∀ row ∈ old ++ new, f row < number + 1 := by
  intro row hrow
  rcases List.mem_append.mp hrow with hrow | hrow
  · exact (hold row hrow).trans (Nat.lt_succ_self _)
  · rw [hnew row hrow]
    exact Nat.lt_succ_self _

end Rows

theorem DedupInv.insert {t t' : StorageTables} {batch : SealedBatch}
    (h : DedupInv hash t.protectiveReads t.initialWrites history)
    (hsorted : ∃ sorted, sortStorageAccessQueries batch.queries = .ok (sorted, batch.deduplicated))
    (hins : Inserted hash history.length batch.deduplicated t t') :
    DedupInv hash t'.protectiveReads t'.initialWrites (history ++ [batch]) := by
  have hreads : ∀ row ∈ (batch.deduplicated.filter fun q => !q.rwFlag).map fun q =>
      (⟨history.length, q.address, u256ToH256 q.key⟩ : ProtectiveReadRow),
      row.l1BatchNumber = history.length := by
    intro row hrow
    obtain ⟨q, -, rfl⟩ := List.mem_map.mp hrow
    rfl
  obtain ⟨hashes, hwrites⟩ := hins.initialWrites
  have hnew : ∀ row ∈ (hashes.zipIdx (t.initialWrites.length + 1)).map
      (fun e => (⟨e.1, history.length, some e.2⟩ : InitialWriteRow)),
      row.l1BatchNumber = history.length := by
    intro row hrow
    obtain ⟨e, -, rfl⟩ := List.mem_map.mp hrow
    rfl
  have hlt : ∀ row ∈ t'.initialWrites, row.l1BatchNumber < history.length + 1 := by
    rw [hwrites]
    exact lt_succ_of_mem_append h.writes_lt hnew
  refine ⟨?_, ?_, ?_, ?_, ?_, ?_⟩
  · intro b hb
    rcases List.mem_append.mp hb with hb | hb
    · exact h.sorted b hb
    · rw [List.mem_singleton.mp hb]
      exact hsorted
  · rw [List.length_append, List.length_singleton, hins.protectiveReads]
    exact lt_succ_of_mem_append h.reads_lt hreads
  · intro n hn
    rw [List.length_append, List.length_singleton] at hn
    rw [hins.protectiveReads]
    rcases Nat.lt_succ_iff_lt_or_eq.mp hn with hn | rfl
    · rw [filter_eq_append_of_lt hreads hn, List.getElem_append_left hn, h.reads n hn]
    · rw [filter_eq_append_last h.reads_lt hreads, List.getElem_concat_length rfl]
  · rw [hwrites]
    exact h.numbered.append hashes fun row hrow => (h.writes_lt row hrow).le
  · rw [List.length_append, List.length_singleton]
    exact hlt
  · intro n hn
    rw [List.length_append, List.length_singleton] at hn
    rcases Nat.le_succ_iff.mp hn with hn | rfl
    · rw [hwrites, filter_lt_append_of_le hnew hn, List.take_append_of_le_length hn,
        ← h.hashedKeys n hn]
    · -- all rows, and before them all rows of the earlier batches
      have hold : t.initialWrites.map InitialWriteRow.hashedKey =
          enumerate [] (history.flatMap fun batch => writtenHashes hash batch.deduplicated) := by
        have hkeys := h.hashedKeys history.length le_rfl
        rw [List.take_length] at hkeys
        rw [← hkeys, List.filter_eq_self.mpr fun row hrow => by simpa using h.writes_lt row hrow]
      rw [List.filter_eq_self.mpr fun row hrow => by simpa using hlt row hrow, hins.hashedKeys,
        hold, List.take_of_length_le (by simp), List.flatMap_append, List.flatMap_singleton,
        enumerate_append]

/-! Whole runs -/

/-- The tables after the batches `history`, with the miniblocks of the batch in progress. -/
structure TablesInv (hash : List UInt8 → H256) (t : StorageTables) (history : List SealedBatch)
    (bound : ℕ → ℕ) (pending : List LogQuery) : Prop where
  headers : t.l1Batches = (List.range history.length).map fun n => ⟨n, true⟩
  miniblocks : MiniblocksInv t.miniblocks history.length bound
  rows : RowsInv hash t.storageLogs history bound t.miniblocks.length pending
  dedup : DedupInv hash t.protectiveReads t.initialWrites history
  consistent : ConsistentHistory history

structure SealInv (hash : List UInt8 → H256) (io : SequencerIo) (history : List SealedBatch)
    (bound : ℕ → ℕ) : Prop where
  tables : TablesInv hash io.storage history bound
    (io.updates.l1Batch.blockStorageLogs.map StorageLogQuery.logQuery)
  currentMiniblockNumber : io.currentMiniblockNumber = io.storage.miniblocks.length % 2 ^ 32
  currentL1BatchNumber : io.currentL1BatchNumber = history.length
  pending : io.updates.l1Batch.executedTransactions ≠ [] →
    bound history.length < io.storage.miniblocks.length

variable {t t' : StorageTables} {pending : List LogQuery}

theorem MiniblocksInv.bound_le_length {miniblocks : List MiniblockRow} {batches : ℕ}
    (h : MiniblocksInv miniblocks batches bound) {n : ℕ} (hn : n ≤ batches) :
    bound n ≤ miniblocks.length :=
  (h.bound_mono hn le_rfl).trans h.bound_le

theorem TablesInv.sealInner (h : TablesInv hash t history bound pending)
    {command : MiniblockSealCommand} {isFictive : Bool}
    (hnumber : command.miniblockNumber = t.miniblocks.length % 2 ^ 32)
    (hrun : command.sealInner hash t isFictive = .ok t') :
    TablesInv hash t' history bound
        (pending ++ command.miniblock.storageLogs.map StorageLogQuery.logQuery) ∧
      t.miniblocks.length < 2 ^ 32 ∧ t'.miniblocks.length = t.miniblocks.length + 1 := by
  obtain ⟨-, hfresh, rows, hrows, rfl⟩ := MiniblockSealCommand.sealInner_ok hrun
  rw [hnumber] at hfresh
  have hlt := h.miniblocks.number_eq hfresh
  rw [Nat.mod_eq_of_lt hlt] at hnumber
  rw [hnumber] at hrows ⊢
  have hlen : (t.miniblocks ++ [(⟨t.miniblocks.length, none⟩ : MiniblockRow)]).length =
      t.miniblocks.length + 1 := by
    rw [List.length_append, List.length_singleton]
  refine ⟨⟨h.headers, h.miniblocks.add hlt, ?_, h.dedup, h.consistent⟩, hlt, hlen⟩
  rw [hlen]
  exact h.rows.add (fun n hn => h.miniblocks.bound_le_length hn) hrows

theorem SealedBatch.deduplicated_eq {batch : SealedBatch} {sorted : List EnumeratedQuery}
    {deduplicated : List LogQuery}
    (h : sortStorageAccessQueries batch.queries = .ok (sorted, deduplicated)) :
    batch.deduplicated = deduplicated := by
  rw [SealedBatch.deduplicated, h]

/-- The pending miniblocks become a batch. -/
theorem TablesInv.seal {batch : SealedBatch} (h : TablesInv hash t history bound batch.queries)
    (hlt : bound history.length < t.miniblocks.length)
    (htwo : 2 * (history.length + 1) ≤ t.miniblocks.length + 1)
    (hbatch : batch.Consistent (storeAfter history)) {sorted : List EnumeratedQuery}
    (hsorted : sortStorageAccessQueries batch.queries = .ok (sorted, batch.deduplicated))
    (hins : Inserted hash history.length batch.deduplicated
      (markMiniblocksAsExecutedInL1Batch
        { t with l1Batches := t.l1Batches ++ [⟨history.length, true⟩] } history.length) t') :
    TablesInv hash t' (history ++ [batch])
      (Function.update bound (history.length + 1) t.miniblocks.length) [] := by
  obtain ⟨hheaders, hminiblocks, hrows⟩ := hins.frame
  have hlen : t'.miniblocks.length = t.miniblocks.length := by
    rw [hminiblocks]
    exact List.length_map _
  refine ⟨?_, ?_, ?_, DedupInv.insert (by exact h.dedup) ⟨sorted, hsorted⟩ hins,
    h.consistent.concat hbatch⟩
  · rw [hheaders, List.length_append, List.length_singleton, List.range_succ, List.map_append]
    exact congrArg (· ++ _) h.headers
  · rw [hminiblocks, List.length_append, List.length_singleton]
    exact h.miniblocks.seal hlt htwo
  · rw [hrows, hlen]
    exact h.rows.seal

theorem Genesis.logQuery_record (txIndex logIndex : ℕ) {log : StorageLog} (h : log.kind = .write) :
    (logQuery txIndex logIndex log).rwFlag = true ∧
    ((logQuery txIndex logIndex log).storageKey,
      u256ToH256 (logQuery txIndex logIndex log).move.2) = (log.key, log.value) := by
  have hrw : (logQuery txIndex logIndex log).rwFlag = true := decide_eq_true h
  have hmove : (logQuery txIndex logIndex log).move.2 = h256ToU256 log.value := by
    rw [LogQuery.move, hrw]
    rfl
  refine ⟨hrw, ?_⟩
  rw [hmove, u256ToH256_h256ToU256, LogQuery.storageKey]
  simp only [logQuery, u256ToH256_h256ToU256]

/-- The rows of the genesis logs are those of its queries. -/
theorem Genesis.writeRecords_logQueries {storageLogs : List (H256 × List StorageLog)}
    (h : ∀ entry ∈ storageLogs, ∀ log ∈ entry.2, log.kind = .write) :
    (storageLogs.flatMap Prod.snd).map (fun log => (log.key, log.value)) =
      writeRecords (logQueries storageLogs) := by
  have hgroup {logs : List StorageLog} (hlogs : ∀ log ∈ logs, log.kind = .write)
      (txIndex start : ℕ) : writeRecords ((logs.zipIdx start).map fun e =>
        logQuery txIndex e.2 e.1) = logs.map fun log => (log.key, log.value) := by
    induction logs generalizing start with
    | nil => rfl
    | cons log logs ih =>
      obtain ⟨hrw, hrecord⟩ := logQuery_record txIndex start
        (hlogs log List.mem_cons_self)
      rw [List.zipIdx_cons, List.map_cons, List.map_cons, writeRecords,
        List.filter_cons_of_pos hrw, List.map_cons, hrecord]
      exact congrArg (_ :: ·) (ih (fun log hlog => hlogs log (List.mem_cons_of_mem _ hlog)) _)
  have hall (start : ℕ) : writeRecords ((storageLogs.zipIdx start).flatMap fun e =>
      e.1.2.zipIdx.map fun e' => logQuery e.2 e'.2 e'.1) =
        (storageLogs.flatMap Prod.snd).map fun log => (log.key, log.value) := by
    induction storageLogs generalizing start with
    | nil => rfl
    | cons entry storageLogs ih =>
      rw [List.zipIdx_cons, List.flatMap_cons, List.flatMap_cons, writeRecords_append,
        List.map_append, hgroup (h entry List.mem_cons_self),
        ih fun entry hentry => h entry (List.mem_cons_of_mem _ hentry)]
  exact (hall 0).symm

theorem tablesInv_genesis {storageLogs : List (H256 × List StorageLog)} {batch : SealedBatch}
    (hwrites : ∀ entry ∈ storageLogs, ∀ log ∈ entry.2, log.kind = .write)
    (hrun : Genesis.createGenesisL1Batch hash {} storageLogs = .ok t)
    (hqueries : batch.queries = Genesis.logQueries storageLogs)
    (hbatch : batch.Consistent (storeAfter [])) :
    ∃ bound, TablesInv hash t [batch] bound [] ∧ t.miniblocks.length = 1 := by
  obtain ⟨t₁, h₁, hrun⟩ := Seq.bind_eq_ok.mp hrun
  obtain ⟨t₂, h₂, hrun⟩ := Seq.bind_eq_ok.mp hrun
  obtain ⟨t₃, h₃, hrun⟩ := Seq.bind_eq_ok.mp hrun
  obtain ⟨⟨sorted, deduplicated⟩, hsort, hrun⟩ := Seq.bind_eq_ok.mp hrun
  simp only [List.partition_eq_filter_filter] at hrun
  obtain ⟨t₄, h₄, h₅⟩ := Seq.bind_eq_ok.mp hrun
  obtain rfl := insertL1Batch_ok h₁
  obtain ⟨-, rfl⟩ := insertMiniblock_ok h₂
  obtain rfl := insertStorageLogs_ok h₃
  rw [← hqueries] at hsort
  obtain rfl := SealedBatch.deduplicated_eq hsort
  have hrows : MiniblockRows hash 0 batch.queries (storageLogRows hash 0 storageLogs) :=
    storageLogRows_spec (by rw [hqueries]; exact Genesis.writeRecords_logQueries hwrites)
  -- the tables as they are before the batch is marked
  let start : StorageTables :=
    { miniblocks := [⟨0, none⟩], storageLogs := storageLogRows hash 0 storageLogs }
  have hins : Inserted hash 0 batch.deduplicated (markMiniblocksAsExecutedInL1Batch
      { start with l1Batches := start.l1Batches ++ [⟨0, true⟩] } 0) t := by
    refine inserted_of_ok ⟨rfl, .nil⟩ h₄ ?_ h₅
    rw [List.map_map]
    exact (List.filter_eq_self.mpr fun _ _ => decide_eq_true List.not_mem_nil).symm
  have hopen : TablesInv hash start [] (fun _ => 0) batch.queries :=
    ⟨rfl, miniblocksInv_nil.add (by norm_num), rowsInv_nil.add (by simp) hrows, dedupInv_nil,
      nofun⟩
  refine ⟨_, hopen.seal Nat.zero_lt_one le_rfl hbatch hsort hins, ?_⟩
  rw [hins.frame.2.1]
  rfl

/-- What the tables hold in every state of a run. -/
theorem SealRun.inv {io : SequencerIo} (h : SealRun hash io history) :
    ∃ bound, SealInv hash io history bound := by
  induction h with
  | genesis batchTimestamp protocolVersion hwrites hrun hqueries hbatch =>
    obtain ⟨bound, htables, hlen⟩ := tablesInv_genesis hwrites hrun hqueries hbatch
    refine ⟨bound, htables, ?_, rfl, fun hne => absurd rfl hne⟩
    rw [hlen]
    exact (Nat.mod_eq_of_lt (by norm_num)).symm
  | execute _ hextend ih =>
    obtain ⟨bound, hinv⟩ := ih
    have hsame := UpdatesManager.l1Batch_extend hextend
    refine ⟨bound, ?_, hinv.currentMiniblockNumber, hinv.currentL1BatchNumber, ?_⟩
    · rw [hsame]
      exact hinv.tables
    · rw [hsame]
      exact hinv.pending
  | sealMiniblock newTimestamp _ hseal ih =>
    obtain ⟨bound, hinv⟩ := ih
    obtain ⟨t', hrun, hseal⟩ := Seq.bind_eq_ok.mp hseal
    cases hseal
    obtain ⟨htables, -, hlen⟩ := hinv.tables.sealInner hinv.currentMiniblockNumber hrun
    refine ⟨bound, ?_, ?_, hinv.currentL1BatchNumber, fun _ => ?_⟩
    · rw [← List.map_append] at htables
      exact htables
    · rw [hlen, hinv.currentMiniblockNumber, Nat.mod_add_mod]
    · rw [hlen]
      exact Nat.lt_succ_of_le hinv.tables.miniblocks.bound_le
  | @sealL1Batch io io' history blockResult batch batchTimestamp protocolVersion _ hpending hfull
      hqueries hbatch hseal ih =>
    obtain ⟨bound, hinv⟩ := ih
    obtain ⟨t', hrun, hseal⟩ := Seq.bind_eq_ok.mp hseal
    cases hseal
    obtain ⟨t₁, hfictive, hrun⟩ := Seq.bind_eq_ok.mp hrun
    obtain ⟨⟨sorted, deduplicated⟩, hsort, hrun⟩ := Seq.bind_eq_ok.mp hrun
    obtain ⟨t₂, hheader, hrun⟩ := Seq.bind_eq_ok.mp hrun
    obtain rfl := insertL1Batch_ok hheader
    rw [← hqueries] at hsort
    obtain rfl := SealedBatch.deduplicated_eq hsort
    rw [hinv.currentL1BatchNumber] at hrun
    obtain ⟨htables, -, hlen⟩ := hinv.tables.sealInner hinv.currentMiniblockNumber hfictive
    -- the miniblocks of the batch hold its queries
    have hall : TablesInv hash t₁ history bound batch.queries := by
      rw [hqueries, hfull, List.append_assoc, List.map_append]
      exact htables
    -- the transactions of the batch are in earlier miniblocks than the fictive one
    have hsealed : bound history.length < io.storage.miniblocks.length := by
      obtain ⟨hempty, -⟩ := MiniblockSealCommand.sealInner_ok hfictive
      have hempty : io.updates.miniblock.executedTransactions = [] := List.isEmpty_iff.mp hempty
      refine hinv.pending fun hnil => hpending ?_
      rw [UpdatesManager.pendingExecutedTransactionsLen, hnil, hempty]
      rfl
    have htwo := hinv.tables.miniblocks.two_each
    have hcount := hall.miniblocks.length_le
    have hins := UpdatesManager.insertDeduplicated_ok (by exact hall.dedup.numbered) hrun
    have hdone := hall.seal (by omega) (by omega) hbatch hsort hins
    have hlen' : t'.miniblocks.length = t₁.miniblocks.length := by
      rw [hins.frame.2.1]
      exact List.length_map _
    refine ⟨_, hdone, ?_, ?_, fun hne => absurd rfl hne⟩
    · rw [hlen', hlen, hinv.currentMiniblockNumber, Nat.mod_add_mod]
    · rw [hinv.currentL1BatchNumber, List.length_append, List.length_singleton]
      exact Nat.mod_eq_of_lt (by omega)

end OlaOs
