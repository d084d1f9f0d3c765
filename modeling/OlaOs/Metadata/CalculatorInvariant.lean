import OlaOs.Metadata.CalculatorTrees
import OlaOs.State.Rocksdb

/-! What holds of the shared tables in every state of the calculators, and what a calculator knows
between two statements. -/
namespace OlaOs

open Enumerate AccountTree BatchOps TreeUpdater

variable {Trace Row : Type}

/-- What the tables of the sequencer say about the batches. -/
structure ReadsHistory (env : TreeEnv Row) (storage : StorageTables) (history : List SealedBatch) :
    Prop where
  ne_nil : history ≠ []
  sealed : storage.getSealedL1BatchNumber = .ok (history.length - 1)
  headers : ∀ n < history.length, (storage.getL1BatchHeader n).isSome
  logs : ∀ n (hn : n < history.length), getLogsForL1Batch env.poseidonHashBytes storage n =
    .ok (some ⟨⟨n, true⟩, history[n].witnessLogs⟩)

theorem RegularHistory.tablesRead {env : TreeEnv Row} {io : SequencerIo}
    {history : List SealedBatch} (h : RegularHistory env history)
    (hrun : SealRun env.poseidonHashBytes io history) : ReadsHistory env io.storage history := by
  obtain ⟨bound, hinv⟩ := hrun.inv
  have hne := CacheRun.history_ne_nil hrun
  refine ⟨hne, CacheRun.getSealedL1BatchNumber_eq hinv.tables hne, fun n hn => ?_, fun n hn => ?_⟩
  · rw [hinv.tables.getL1BatchHeader_eq hn]
    rfl
  · exact (hinv.tables.blockLogs h.hashed hn).logs

/-- What batch `n` is committed to. Of the genesis batch no writes are published. -/
def committedAt (env : TreeEnv Row) (contracts : ℕ → L1BatchMetaParameters)
    (history : List SealedBatch) (n : ℕ) : CommittedBatch :=
  let batch := committedBatch (batchReport env history n) (contracts n)
  if n = 0 then { batch with initialWrites := [], repeatedWrites := [] } else batch

/-- The metadata of batch `n`. -/
def columnsAt (env : TreeEnv Row) (contracts : ℕ → L1BatchMetaParameters)
    (history : List SealedBatch) (n : ℕ) : MetadataColumns :=
  let metadata := (committedAt env contracts history n).metadata env.poseidonHashBytes
  if n = 0 then
    .new { metadata with initialWritesCompressed := [], repeatedWritesCompressed := [] } none
  else .new metadata (some (stateRoot env history n))

section Columns

variable {env : TreeEnv Row} {contracts : ℕ → L1BatchMetaParameters}
  {history history' : List SealedBatch} {n : ℕ}

theorem rollupRootHash_committedAt (hn : n < history.length) :
    (committedAt env contracts history n).rollupRootHash = stateRoot env history (n + 1) := by
  rw [← rootHash_batchReport hn, committedAt]
  split_ifs <;> rfl

theorem hash_columnsAt (hn : n < history.length) :
    (columnsAt env contracts history n).hash = stateRoot env history (n + 1) := by
  rw [← rollupRootHash_committedAt hn, columnsAt]
  split_ifs <;> rfl

theorem commitment_columnsAt : (columnsAt env contracts history n).commitment =
    ((committedAt env contracts history n).hashes env.poseidonHashBytes).commitment := by
  rw [columnsAt]
  split_ifs <;> rfl

theorem rollupLastLeafIndex_committedAt :
    (committedAt env contracts history n).rollupLastLeafIndex =
      (batchReport env history n).rollupLastLeafIndex := by
  rw [committedAt]
  split_ifs <;> rfl

theorem rollupLastLeafIndex_columnsAt :
    (columnsAt env contracts history n).rollupLastLeafIndex =
      asI64 (batchReport env history n).rollupLastLeafIndex := by
  have hindex : (committedAt env contracts history n).rollupLastLeafIndex = _ :=
    rollupLastLeafIndex_committedAt
  rw [← hindex]
  by_cases h0 : n = 0
  · simp only [columnsAt, if_pos h0, MetadataColumns.new, CommittedBatch.metadata]
  · simp only [columnsAt, if_neg h0, MetadataColumns.new, CommittedBatch.metadata]

theorem metaParameters_committedAt :
    (committedAt env contracts history n).metaParameters = contracts n := by
  rw [committedAt]
  split_ifs <;> rfl

theorem committedAt_of_longer (h : history <+: history') (hn : n < history.length) :
    committedAt env contracts history' n = committedAt env contracts history n := by
  rw [committedAt, committedAt, batchReport_of_longer h hn]

theorem columnsAt_of_longer (h : history <+: history') (hn : n < history.length) :
    columnsAt env contracts history' n = columnsAt env contracts history n := by
  rw [columnsAt, columnsAt, committedAt_of_longer h hn, stateRoot_of_longer h hn.le]

end Columns

/-- The witness of batch `n` with all its parts. -/
structure IsComplete (env : TreeEnv Row) (history : List SealedBatch) (n : ℕ)
    (job : PrepareBasicCircuitsJob Trace Row) : Prop where
  txTrace : job.txTrace.isSome
  storage : job.storage.isSome
  preRootHash : job.preRootHash = some (h256ToTreeValue (stateRoot env history n))
  rootHash : job.rootHash = some (h256ToTreeValue (stateRoot env history (n + 1)))

namespace CalculatorTables

def Witnessed (env : TreeEnv Row) (history : List SealedBatch) (tables : CalculatorTables Trace Row)
    (n : ℕ) : Prop :=
  ∃ job, tables.witnesses.lookup n = some job ∧ IsComplete env history n job

/-- The batch has a row in the table of the proof data handler. -/
def Handed (tables : CalculatorTables Trace Row) (n : ℕ) : Prop :=
  n ∈ tables.proofs.table.map ProofGenerationRow.l1BatchNumber

/-- All that a calculator writes for batch `n` before it saves its tree. Without an object store it
hands nothing over. -/
structure Done (tables : CalculatorTables Trace Row) (hasObjectStore : Bool) (n : ℕ) : Prop where
  metadata : (tables.metadata.lookup n).isSome
  handed : hasObjectStore = true → 0 < n → tables.Handed n

/-- The shared tables, in any state of the calculators. -/
structure Inv (env : TreeEnv Row) (contracts : ℕ → L1BatchMetaParameters)
    (history : List SealedBatch) (tables : CalculatorTables Trace Row) : Prop where
  metadata : ∀ n columns, tables.metadata.lookup n = some columns →
    n < history.length ∧ columns = columnsAt env contracts history n
  genesis : (tables.metadata.lookup 0).isSome
  gapless : ∀ n, (tables.metadata.lookup (n + 1)).isSome → (tables.metadata.lookup n).isSome
  traces : ∀ n, 0 < n → n < history.length →
    ∃ job, tables.witnesses.lookup n = some job ∧ job.txTrace.isSome
  proofs : ∀ n, tables.Handed n →
    0 < n ∧ (tables.metadata.lookup n).isSome ∧ tables.Witnessed env history n
  handedOut : ∀ n ∈ tables.proofs.handedOut, tables.Handed n

/-- What a step leaves in the tables and in the history. -/
structure Grows (env : TreeEnv Row) (history history' : List SealedBatch)
    (tables tables' : CalculatorTables Trace Row) : Prop where
  longer : history <+: history'
  metadata : ∀ n columns, tables.metadata.lookup n = some columns →
    tables'.metadata.lookup n = some columns
  witnessed : ∀ n, n < history.length → tables.Witnessed env history n →
    tables'.Witnessed env history' n
  handed : ∀ n, tables.Handed n → tables'.Handed n

variable {env : TreeEnv Row} {contracts : ℕ → L1BatchMetaParameters}
  {history history' : List SealedBatch} {tables tables' : CalculatorTables Trace Row} {n : ℕ}
  {hasObjectStore : Bool}

theorem Grows.refl (env : TreeEnv Row) (history : List SealedBatch)
    (tables : CalculatorTables Trace Row) : Grows env history history tables tables :=
  ⟨List.prefix_rfl, fun _ _ h => h, fun _ _ h => h, fun _ h => h⟩

theorem Grows.isSome (h : Grows env history history' tables tables')
    (hsome : (tables.metadata.lookup n).isSome) : (tables'.metadata.lookup n).isSome := by
  obtain ⟨columns, hcolumns⟩ := Option.isSome_iff_exists.mp hsome
  rw [h.metadata n columns hcolumns]
  rfl

/-- A step that leaves the metadata and the witnesses alone. -/
theorem Grows.of_eq (hlonger : history <+: history')
    (hmetadata : tables'.metadata = tables.metadata)
    (hwitnessed : ∀ n, n < history.length → tables.Witnessed env history n →
      tables'.Witnessed env history' n)
    (hhanded : ∀ n, tables.Handed n → tables'.Handed n) :
    Grows env history history' tables tables' := by
  refine ⟨hlonger, fun n columns hcolumns => ?_, hwitnessed, hhanded⟩
  rw [hmetadata]
  exact hcolumns

theorem Done.grows (h : tables.Done hasObjectStore n)
    (hgrows : Grows env history history' tables tables') : tables'.Done hasObjectStore n :=
  ⟨hgrows.isSome h.metadata, fun hstore hpos => hgrows.handed n (h.handed hstore hpos)⟩

end CalculatorTables

open CalculatorTables

/-- The input of the tree for batch `n`. -/
def IsInput (history : List SealedBatch) (n : ℕ) (data : Option WitnessBlockWithLogs) : Prop :=
  ∃ hn : n < history.length, data = some ⟨⟨n, true⟩, history[n].witnessLogs⟩

theorem IsInput.of_longer {history history' : List SealedBatch} {n : ℕ}
    {data : Option WitnessBlockWithLogs} (h : IsInput history n data)
    (hlonger : history <+: history') : IsInput history' n data := by
  obtain ⟨hn, rfl⟩ := h
  obtain ⟨later, rfl⟩ := hlonger
  refine ⟨by rw [List.length_append]; omega, ?_⟩
  rw [List.getElem_append_left hn]

/-- What a calculator knows between two statements; `saved` batches are in its database. -/
inductive PhaseInv (env : TreeEnv Row) (history : List SealedBatch)
    (tables : CalculatorTables Trace Row) (hasObjectStore : Bool) (saved : ℕ) (tree : AccountTree) :
    CalculatorPhase Row → Prop where
  | down : PhaseInv env history tables hasObjectStore saved tree .down
  | waiting {next : ℕ} : HeldTree env history saved next tree → 0 < next →
      next ≤ history.length → (∀ n < next, tables.Done hasObjectStore n) →
      PhaseInv env history tables hasObjectStore saved tree (.waiting next)
  | iterating {number last : ℕ} {data : Option WitnessBlockWithLogs} :
      HeldTree env history saved number tree → 0 < number → number ≤ last →
      last < history.length → (∀ n < number, tables.Done hasObjectStore n) →
      IsInput history number data →
      PhaseInv env history tables hasObjectStore saved tree
        (.iterating number last data (stateRoot env history number))
  | processed {number last : ℕ} {nextData : Option WitnessBlockWithLogs} :
      HeldTree env history saved (number + 1) tree → saved < number + 1 → 0 < number →
      number ≤ last → last < history.length → (∀ n < number, tables.Done hasObjectStore n) →
      (number < last → IsInput history (number + 1) nextData) →
      (hasObjectStore = true → tables.Witnessed env history number) →
      PhaseInv env history tables hasObjectStore saved tree (.processed number last
        (batchReport env history number) nextData (stateRoot env history number))
  | stored {number last : ℕ} {nextData : Option WitnessBlockWithLogs} :
      HeldTree env history saved (number + 1) tree → saved < number + 1 → 0 < number →
      number ≤ last → last < history.length → (∀ n < number, tables.Done hasObjectStore n) →
      (number < last → IsInput history (number + 1) nextData) →
      (hasObjectStore = true → tables.Witnessed env history number) →
      (tables.metadata.lookup number).isSome →
      PhaseInv env history tables hasObjectStore saved tree
        (.stored number last nextData (stateRoot env history (number + 1)))
  | finished {last : ℕ} : HeldTree env history saved (last + 1) tree → saved < last + 1 →
      last < history.length → (∀ n < last + 1, tables.Done hasObjectStore n) →
      PhaseInv env history tables hasObjectStore saved tree (.finished last)

/-- A calculator, in any state: its database holds the tree over the first batches, and everything
is written for them. -/
structure CalculatorInv (env : TreeEnv Row) (history : List SealedBatch)
    (tables : CalculatorTables Trace Row) (c : MetadataCalculator Row) : Prop where
  db : DbInv env (leavesAt env history c.batchesSaved) (orderAt env history c.batchesSaved)
    (.new c.tree.storage.db)
  saved_le : c.batchesSaved ≤ history.length
  done : ∀ n < c.batchesSaved, tables.Done c.hasObjectStore n
  phase : PhaseInv env history tables c.hasObjectStore c.batchesSaved c.tree c.phase

section Grows

variable {env : TreeEnv Row} {history history' : List SealedBatch}
  {tables tables' : CalculatorTables Trace Row} {hasObjectStore : Bool} {saved : ℕ}
  {tree : AccountTree} {phase : CalculatorPhase Row} {c : MetadataCalculator Row}

/-- What the others do changes nothing of what a calculator knows. -/
theorem PhaseInv.grows (h : PhaseInv env history tables hasObjectStore saved tree phase)
    (hgrows : Grows env history history' tables tables') :
    PhaseInv env history' tables' hasObjectStore saved tree phase := by
  have hlength := hgrows.longer.length_le
  cases h with
  | down => exact .down
  | waiting htree hpos hle hdone =>
    exact .waiting (htree.of_longer hgrows.longer hle) hpos (hle.trans hlength)
      fun n hn => (hdone n hn).grows hgrows
  | iterating htree hpos hle hlt hdone hdata =>
    rw [← stateRoot_of_longer hgrows.longer (by omega)]
    exact .iterating (htree.of_longer hgrows.longer (by omega)) hpos hle (by omega)
      (fun n hn => (hdone n hn).grows hgrows) (hdata.of_longer hgrows.longer)
  | processed htree hsaved hpos hle hlt hdone hdata hwitness =>
    rw [← stateRoot_of_longer hgrows.longer (by omega),
      ← batchReport_of_longer hgrows.longer (by omega)]
    exact .processed (htree.of_longer hgrows.longer (by omega)) hsaved hpos hle (by omega)
      (fun n hn => (hdone n hn).grows hgrows) (fun h => (hdata h).of_longer hgrows.longer)
      (fun h => hgrows.witnessed _ (by omega) (hwitness h))
  | stored htree hsaved hpos hle hlt hdone hdata hwitness hmetadata =>
    rw [← stateRoot_of_longer hgrows.longer (by omega)]
    exact .stored (htree.of_longer hgrows.longer (by omega)) hsaved hpos hle (by omega)
      (fun n hn => (hdone n hn).grows hgrows) (fun h => (hdata h).of_longer hgrows.longer)
      (fun h => hgrows.witnessed _ (by omega) (hwitness h)) (hgrows.isSome hmetadata)
  | finished htree hsaved hlt hdone =>
    exact .finished (htree.of_longer hgrows.longer (by omega)) hsaved (by omega)
      fun n hn => (hdone n hn).grows hgrows

theorem CalculatorInv.grows (h : CalculatorInv env history tables c)
    (hgrows : Grows env history history' tables tables') :
    CalculatorInv env history' tables' c := by
  refine ⟨?_, h.saved_le.trans hgrows.longer.length_le,
    fun n hn => (h.done n hn).grows hgrows, h.phase.grows hgrows⟩
  rw [leavesAt_of_longer hgrows.longer h.saved_le, orderAt_of_longer hgrows.longer h.saved_le]
  exact h.db

/-- What the invariant of a calculator takes, when its tree is in memory. -/
theorem HeldTree.calculatorInv {n maxL1BatchesPerIter : ℕ} (h : HeldTree env history saved n tree)
    (hn : n ≤ history.length) (hdone : ∀ k < saved, tables.Done hasObjectStore k)
    (hphase : PhaseInv env history tables hasObjectStore saved tree phase) :
    CalculatorInv env history tables ⟨maxL1BatchesPerIter, hasObjectStore, tree, phase⟩ := by
  obtain rfl := h.saved_eq
  exact ⟨h.db.of_db_eq rfl, h.saved_le.trans hn, hdone, hphase⟩

end Grows

end OlaOs
