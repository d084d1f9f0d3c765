import OlaOs.Metadata.BlockLogs
import OlaOs.Tree.Enumeration
import OlaOs.Tree.Updater

/-! The indices in `initial_writes` and the leaf indices of the tree, over runs of the sequencer and
the metadata calculator. -/
namespace OlaOs

open Enumerate AccountTree BatchOps

variable {Row : Type}

/-- The sequencer, and the calculator that has saved the first `processed` batches in its tree. The
sequencer moves on by any steps that keep the batches it has sealed. -/
inductive CalculatorRun (env : TreeEnv Row) :
    SequencerIo → List SealedBatch → ℕ → AccountTree → Prop where
  | start {io : SequencerIo} {history : List SealedBatch} {tree : AccountTree} :
      SealRun env.poseidonHashBytes io history → newWithDb env .empty = .ok tree →
      CalculatorRun env io history 0 tree
  | sequencer {io io' : SequencerIo} {history history' : List SealedBatch} {processed : ℕ}
      {tree : AccountTree} : CalculatorRun env io history processed tree →
      SealRun env.poseidonHashBytes io' history' → history <+: history' →
      CalculatorRun env io' history' processed tree
  | processBatch {io : SequencerIo} {history : List SealedBatch} {processed : ℕ}
      {tree tree' : AccountTree} {block : WitnessBlockWithLogs} {metadata : TreeMetadata Row}
      (sched : Schedule Row) : CalculatorRun env io history processed tree →
      getLogsForL1Batch env.poseidonHashBytes io.storage processed = .ok (some block) →
      TreeUpdater.processL1Batch env sched tree block.storageLogs = .ok (metadata, tree') →
      CalculatorRun env io history (processed + 1) (AsyncTree.save tree' true)

/-- The database and the tree give the same index to every key that the processed batches write. -/
structure IndicesAgree (env : TreeEnv Row) (storage : StorageTables) (history : List SealedBatch)
    (processed : ℕ) (tree : AccountTree) : Prop where
  processed_le : processed ≤ history.length
  index_iff : ∀ key i, tree.leafIndex (env.treeKeyOf key) = some i ↔
    ∃ row ∈ storage.initialWrites, row.l1BatchNumber < processed ∧
      row.hashedKey = key.hashedKey env.poseidonHashBytes ∧ row.index = some i
  /-- No row is left out once all batches are processed. -/
  rows : ∀ row ∈ storage.initialWrites, row.l1BatchNumber < history.length ∧ row.index.isSome
  /-- The next batch can be read, and processed if it changes a slot. -/
  next : ∀ hlt : processed < history.length, ∃ block,
    getLogsForL1Batch env.poseidonHashBytes storage processed = .ok (some block) ∧
    ((∃ q ∈ history[processed].deduplicated, q.rwFlag = true) → ∀ sched, ∃ metadata tree',
      TreeUpdater.processL1Batch env sched tree block.storageLogs = .ok (metadata, tree'))

/-- The hashed keys written by the first `n` batches. -/
def hashesBefore (hash : List UInt8 → H256) (history : List SealedBatch) (n : ℕ) : List H256 :=
  (history.take n).flatMap fun batch => writtenHashes hash batch.deduplicated

theorem hashesBefore_succ (hash : List UInt8 → H256) {history : List SealedBatch} {n : ℕ}
    (hn : n < history.length) : hashesBefore hash history (n + 1) =
      hashesBefore hash history n ++ writtenHashes hash history[n].deduplicated := by
  rw [hashesBefore, List.take_succ_eq_append_getElem hn, List.flatMap_append,
    List.flatMap_singleton]
  rfl

theorem hashesBefore_of_longer (hash : List UInt8 → H256) {history history' : List SealedBatch}
    (h : history <+: history') {n : ℕ} (hn : n ≤ history.length) :
    hashesBefore hash history' n = hashesBefore hash history n := by
  obtain ⟨later, rfl⟩ := h
  rw [hashesBefore, List.take_append_of_le_length hn]
  rfl

theorem h256ToTreeKey_injective : Function.Injective h256ToTreeKey :=
  Function.LeftInverse.injective treeKeyToH256_h256ToTreeKey

namespace SealedBatch

variable (batch : SealedBatch)

theorem filterBlockLogs_witnessLog : filterBlockLogs (batch.deduplicated.map batch.witnessLog) =
    (batch.deduplicated.filter LogQuery.rwFlag).map batch.witnessLog := by
  rw [filterBlockLogs, List.filter_map]
  congr 1
  apply List.filter_congr
  intro q _
  cases hrw : q.rwFlag <;>
    simp [witnessLog, hrw, StorageLog.newWriteLog, StorageLog.newReadLog]

/-- The tree operations of a batch write the keys of its deduplicated writes. -/
theorem writtenBy_batchOps (env : TreeEnv Row) :
    writtenBy (TreeUpdater.batchOps env (batch.deduplicated.map batch.witnessLog)) =
      (writtenHashes env.poseidonHashBytes batch.deduplicated).map h256ToTreeKey := by
  have hwrite : ∀ queries : List LogQuery, (∀ q ∈ queries, q.rwFlag = true) →
      writtenBy (blockOps env (queries.map batch.witnessLog)) =
        (queries.map fun q => q.storageKey.hashedKey env.poseidonHashBytes).map h256ToTreeKey := by
    intro queries hqueries
    induction queries with
    | nil => rfl
    | cons q queries ih =>
      have hrest := ih fun q' hq' => hqueries q' (List.mem_cons_of_mem _ hq')
      have hkind : batch.witnessLog q = ⟨.newWriteLog q.storageKey
          (u256ToH256 (batch.after q.slot)), u256ToH256 (batch.before q.slot)⟩ := by
        rw [witnessLog, if_pos (hqueries q List.mem_cons_self)]
      simp only [List.map_cons, blockOps, hkind] at hrest ⊢
      rw [← hrest]
      rfl
  rw [TreeUpdater.batchOps, filterBlockLogs_witnessLog]
  exact hwrite _ fun q hq => (List.mem_filter.mp hq).2

end SealedBatch

namespace CalculatorRun

variable {env : TreeEnv Row} {io : SequencerIo} {history : List SealedBatch} {processed : ℕ}
  {tree : AccountTree}

theorem sealRun (h : CalculatorRun env io history processed tree) :
    SealRun env.poseidonHashBytes io history := by
  induction h with
  | start hrun _ => exact hrun
  | sequencer _ hrun _ _ => exact hrun
  | processBatch _ _ _ _ ih => exact ih

/-- A batch is only read once it is sealed. -/
theorem lt_of_getLogsForL1Batch {hash : List UInt8 → H256} {block : WitnessBlockWithLogs}
    (hrun : SealRun hash io history)
    (h : getLogsForL1Batch hash io.storage processed = .ok (some block)) :
    processed < history.length := by
  obtain ⟨bound, hinv⟩ := hrun.inv
  by_contra hge
  have hnone : io.storage.getL1BatchHeader processed = none := by
    rw [StorageTables.getL1BatchHeader, hinv.tables.headers, List.find?_eq_none]
    intro header hheader
    obtain ⟨n, hn, rfl⟩ := List.mem_map.mp hheader
    have hlt := List.mem_range.mp hn
    simp only [decide_eq_true_eq]
    omega
  simp only [getLogsForL1Batch, hnone] at h
  cases h

/-- The numbering of the saved tree is that of the batches processed. -/
structure Inv (env : TreeEnv Row) (history : List SealedBatch) (processed : ℕ)
    (tree : AccountTree) : Prop where
  processed_le : processed ≤ history.length
  saved : ∃ m, SavedInv env m ((enumerate []
    (hashesBefore env.poseidonHashBytes history processed)).map h256ToTreeKey) tree

variable (hout : env.hasher.TraceOutput) (hkeys : env.CanonicalKeys) (hsep : env.SeparateKeys)

include hout hkeys hsep

theorem Inv.process (h : Inv env history processed tree)
    (hrun : SealRun env.poseidonHashBytes io history)
    (hinj : Set.InjOn (StorageKey.hashedKey env.poseidonHashBytes) (usedKeys history))
    (hlt : processed < history.length) (sched : Schedule Row) {block : WitnessBlockWithLogs}
    (hblock : getLogsForL1Batch env.poseidonHashBytes io.storage processed = .ok (some block))
    (hne : filterBlockLogs block.storageLogs ≠ []) : ∃ metadata tree',
      TreeUpdater.processL1Batch env sched tree block.storageLogs = .ok (metadata, tree') ∧
      Inv env history (processed + 1) (AsyncTree.save tree' true) := by
  obtain ⟨m, hsaved⟩ := h.saved
  obtain ⟨bound, htables⟩ := hrun.inv
  have hlogs := (htables.tables.blockLogs hinj hlt).logs
  rw [hblock] at hlogs
  cases hlogs
  obtain ⟨tree', hprocess, hdb, hdel, hpending, hroot, -⟩ :=
    TreeUpdater.processL1Batch_step hout hkeys hsep sched hsaved.db hne
  obtain ⟨hsave, -, hinv⟩ := hsaved.save hsep hdb hdel hpending hroot
  have hnumbering : (enumerate [] (hashesBefore env.poseidonHashBytes history (processed + 1))).map
      h256ToTreeKey = enumerate ((enumerate []
        (hashesBefore env.poseidonHashBytes history processed)).map h256ToTreeKey)
          (writtenBy (TreeUpdater.batchOps env
            (history[processed].deduplicated.map history[processed].witnessLog))) := by
    rw [hashesBefore_succ _ hlt, enumerate_append, ← enumerate_map h256ToTreeKey_injective,
      SealedBatch.writtenBy_batchOps]
  have hsave' : AsyncTree.save tree' true = tree'.saved := by rw [AsyncTree.save, hsave]
  rw [← hnumbering, ← hsave'] at hinv
  exact ⟨_, tree', hprocess, hlt, _, hinv⟩

theorem inv (hrun : CalculatorRun env io history processed tree)
    (hinj : Set.InjOn (StorageKey.hashedKey env.poseidonHashBytes) (usedKeys history)) :
    Inv env history processed tree := by
  induction hrun with
  | start _ htree => exact ⟨Nat.zero_le _, _, savedInv_start htree⟩
  | sequencer _ _ hprefix ih =>
    obtain ⟨hle, m, hsaved⟩ := ih (hinj.mono (usedKeys_mono hprefix))
    exact ⟨hle.trans hprefix.length_le, m, by rwa [hashesBefore_of_longer _ hprefix hle]⟩
  | @processBatch _ _ _ _ _ block _ sched hprev hblock hprocess ih =>
    have hlt := lt_of_getLogsForL1Batch hprev.sealRun hblock
    have hinv := ih hinj
    by_cases hne : filterBlockLogs block.storageLogs = []
    · -- a batch without writes makes the tree panic
      obtain ⟨m, hsaved⟩ := hinv.saved
      rw [TreeUpdater.processL1Batch_nil sched hsaved.db hne] at hprocess
      cases hprocess
    · obtain ⟨metadata, tree', hprocess', hnext⟩ :=
        hinv.process hout hkeys hsep hprev.sealRun hinj hlt sched hblock hne
      rw [hprocess] at hprocess'
      cases hprocess'
      exact hnext

/-- After every batch that the calculator saves, whatever the sequencer has sealed meanwhile, the
index of a key in `initial_writes` is its leaf index in the tree. -/
theorem indicesAgree (hrun : CalculatorRun env io history processed tree)
    (hinj : Set.InjOn (StorageKey.hashedKey env.poseidonHashBytes) (usedKeys history)) :
    IndicesAgree env io.storage history processed tree := by
  have hinv := hrun.inv hout hkeys hsep hinj
  obtain ⟨m, hsaved⟩ := hinv.saved
  obtain ⟨bound, htables⟩ := hrun.sealRun.inv
  have hdedup := htables.tables.dedup
  refine ⟨hinv.processed_le, ?_, ?_, ?_⟩
  · intro key i
    have hfilter := hdedup.numbered.filter processed
    have hmap := hdedup.hashedKeys processed hinv.processed_le
    have hrows := hfilter.index_iff (hmap ▸ enumerate_nodup List.nodup_nil _)
      (key.hashedKey env.poseidonHashBytes) i
    rw [hsaved.db.leafIndex_eq_some, TreeEnv.treeKeyOf,
      List.mem_map_of_injective h256ToTreeKey_injective,
      Seq.idxOf_map_of_injective h256ToTreeKey_injective, hashesBefore, ← hmap, ← hrows]
    simp only [List.mem_filter, decide_eq_true_eq, and_assoc]
  · intro row hrow
    exact ⟨hdedup.writes_lt row hrow, hdedup.numbered.index_isSome row hrow⟩
  · intro hlt
    have hlogs := (htables.tables.blockLogs hinj hlt).logs
    refine ⟨_, hlogs, ?_⟩
    rintro ⟨q, hq, hrw⟩ sched
    have hne : filterBlockLogs (history[processed].deduplicated.map
        history[processed].witnessLog) ≠ [] := by
      rw [SealedBatch.filterBlockLogs_witnessLog, ne_eq, List.map_eq_nil_iff,
        List.filter_eq_nil_iff]
      exact fun h => h q hq hrw
    obtain ⟨metadata, tree', hprocess, -⟩ :=
      hinv.process hout hkeys hsep hrun.sealRun hinj hlt sched hlogs hne
    exact ⟨metadata, tree', hprocess⟩

omit hout hkeys hsep in
/-- The calculator has processed the genesis batch, while the next one was sealed. -/
theorem indicesAgree_sample : ∃ io tree, CalculatorRun sampleEnv io sampleHistory 1 tree ∧
    IndicesAgree sampleEnv io.storage sampleHistory 1 tree := by
  obtain ⟨io, hseal⟩ := sealRun_sampleHistory
  have hstart : CalculatorRun sampleEnv io sampleHistory 0 _ :=
    .start hseal (newWithDb_empty sampleEnv)
  obtain ⟨block, hblock, hprocess⟩ := (indicesAgree sampleEnv_traceOutput sampleEnv_canonicalKeys
    sampleEnv_separateKeys hstart injOn_sampleHistory).next (by decide)
  obtain ⟨metadata, tree, hprocess⟩ := hprocess (by decide +kernel) sampleSchedule
  have hrun := CalculatorRun.processBatch sampleSchedule hstart hblock hprocess
  exact ⟨io, _, hrun, indicesAgree sampleEnv_traceOutput sampleEnv_canonicalKeys
    sampleEnv_separateKeys hrun injOn_sampleHistory⟩

end CalculatorRun

end OlaOs
