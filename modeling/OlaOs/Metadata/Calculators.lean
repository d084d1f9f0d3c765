import OlaOs.Dal.BatchMetadata
import OlaOs.Metadata.StateRoots
import OlaOs.Prover.ProofGeneration
import OlaOs.Prover.WitnessGenerator

/-! Any number of metadata calculators beside one sequencer
(`ola_core/src/metadata_calculator/updater.rs`): what they read and write, statement by statement,
with crashes and failed writes. -/
namespace OlaOs

open Enumerate AccountTree BatchOps

variable {Trace Row : Type}

/-- The traces of the virtual machine, and what the tree adds to them later. -/
structure PrepareBasicCircuitsJob (Trace Row : Type) where
  txTrace : Option Trace
  storage : Option (StorageUpdateTrace Row)
  preRootHash : Option TreeValue
  rootHash : Option TreeValue

/-- What the calculators share: the witnesses in the object store, the metadata columns and the
table of the proof data handler. -/
structure CalculatorTables (Trace Row : Type) where
  witnesses : KeyedMap ℕ (PrepareBasicCircuitsJob Trace Row) := ∅
  metadata : KeyedMap ℕ MetadataColumns := ∅
  proofs : ProofDataHandler := {}

/-- Where a calculator stands: in its loop, or between the statements of an iteration over the
batches up to `last`. -/
inductive CalculatorPhase (Row : Type) where
  | down
  | waiting (nextL1BatchToSeal : ℕ)
  | iterating (number last : ℕ) (data : Option WitnessBlockWithLogs) (previousRootHash : H256)
  | processed (number last : ℕ) (metadata : TreeMetadata Row)
      (nextData : Option WitnessBlockWithLogs) (previousRootHash : H256)
  | stored (number last : ℕ) (nextData : Option WitnessBlockWithLogs) (previousRootHash : H256)
  | finished (last : ℕ)

/-- Of a calculator that is down only its settings and the database are left. It has an object store
when the mode of its tree is `MerkleTreeMode::Full`. -/
structure MetadataCalculator (Row : Type) where
  maxL1BatchesPerIter : ℕ
  hasObjectStore : Bool
  tree : AccountTree
  phase : CalculatorPhase Row

def AccountTree.isEmpty (env : TreeEnv Row) (tree : AccountTree) : Except Fault Bool := do
  let emptyTree ← TreeConfig.emptyTree env.hasher
  let defaultRootHash ← orPanic "index out of bounds" (emptyTree.head?.map NodeEntry.hash)
  return tree.rootHash = defaultRootHash

namespace TreeUpdater

/-- The first part of `loop_updating_tree`: the tree is opened, and an empty one gets the genesis
batch. -/
def openTree (env : TreeEnv Row) (storage : StorageTables) (sched : Schedule Row) (written : Bool)
    (db : Db) : Except Fault AccountTree := do
  let tree ← newWithDb env db
  if ← tree.isEmpty env then
    match ← (getLogsForL1Batch env.poseidonHashBytes storage 0).mapError Fault.panic with
    | none => throw (.panic "Missing storage logs for the genesis block")
    | some block => do
      let (_, tree) ← AsyncTree.processL1Batch env sched tree block.storageLogs
      return AsyncTree.save tree written
  else return tree

/-- `process_l1_batch`; the witness of the batch is completed in the object store, if there is
one. -/
def processWithStore (env : TreeEnv Row) (sched : Schedule Row) (hasObjectStore : Bool)
    (witnesses : KeyedMap ℕ (PrepareBasicCircuitsJob Trace Row)) (tree : AccountTree)
    (block : WitnessBlockWithLogs) : Except Fault
      (TreeMetadata Row × AccountTree × KeyedMap ℕ (PrepareBasicCircuitsJob Trace Row)) := do
  let preRootHash := h256ToTreeValue (treeKeyToH256 tree.rootHash)
  let (metadata, tree) ← AsyncTree.processL1Batch env sched tree block.storageLogs
  let rootHash := h256ToTreeValue (treeKeyToH256 tree.rootHash)
  let number := block.header.number
  if hasObjectStore then do
    let storage ← orPanic ("No storage trace found in batch " ++ toString number ++ "!")
      metadata.witness
    let witness ← orPanic ("No transaction trace found from object store in batch " ++
      toString number ++ "!") (witnesses.lookup number)
    return ({ metadata with witness := none }, tree, witnesses.insert number
      { witness with
        storage := some storage, preRootHash := some preRootHash, rootHash := some rootHash })
  else return ({ metadata with witness := none }, tree, witnesses)

/-- `build_l1_batch_metadata`, with the parent hash that is saved beside it. -/
def metadataColumns (env : TreeEnv Row) (metadata : TreeMetadata Row)
    (metaParameters : L1BatchMetaParameters) (previousRootHash : H256) :
    Except String MetadataColumns := do
  let metadata ← buildL1BatchMetadata env.poseidonHashBytes metadata metaParameters
  return .new metadata (some previousRootHash)

/-- The part of `ensure_genesis_state` that saves the metadata of the genesis batch: no writes are
published, and there is no parent. -/
def genesisColumns (env : TreeEnv Row) (metadata : TreeMetadata Row)
    (metaParameters : L1BatchMetaParameters) : Except String MetadataColumns := do
  let genesisRootHash := treeKeyToH256 metadata.rootHash
  let blockCommitment := L1BatchCommitment.new env.poseidonHashBytes metadata.rollupLastLeafIndex
    genesisRootHash [] [] metaParameters
  let commitmentHash ← blockCommitment.hash env.poseidonHashBytes
  let metadata : L1BatchMetadata := {
    rootHash := genesisRootHash
    rollupLastLeafIndex := metadata.rollupLastLeafIndex
    merkleRootHash := genesisRootHash
    initialWritesCompressed := []
    repeatedWritesCompressed := []
    commitment := commitmentHash.commitment
    l2L1MessagesCompressed := []
    l2L1MerkleRoot := .zero
    blockMetaParams := blockCommitment.metaParameters
    auxDataHash := commitmentHash.auxOutput
    metaParametersHash := commitmentHash.metaParameters
    passThroughDataHash := commitmentHash.passThroughData
    stateDiffsCompressed := []
    eventsQueueCommitment := none }
  return .new metadata none

theorem metadataColumns_ok (env : TreeEnv Row) (metadata : TreeMetadata Row)
    (metaParameters : L1BatchMetaParameters) (previousRootHash : H256) :
    metadataColumns env metadata metaParameters previousRootHash = .ok (.new
      ((committedBatch metadata metaParameters).metadata env.poseidonHashBytes)
      (some previousRootHash)) := by
  simp only [metadataColumns, buildL1BatchMetadata_eq, bind, Except.bind, pure, Except.pure]

/-- The genesis batch is committed to without writes. -/
theorem genesisColumns_ok (env : TreeEnv Row) (metadata : TreeMetadata Row)
    (metaParameters : L1BatchMetaParameters) :
    genesisColumns env metadata metaParameters = .ok (.new
      { { committedBatch metadata metaParameters with
            initialWrites := [], repeatedWrites := [] }.metadata env.poseidonHashBytes with
          initialWritesCompressed := [], repeatedWritesCompressed := [] } none) := by
  have hhash := CommittedBatch.hash_commitment env.poseidonHashBytes
    { committedBatch metadata metaParameters with initialWrites := [], repeatedWrites := [] }
  simp only [CommittedBatch.commitment, committedBatch] at hhash
  simp only [genesisColumns, hhash, bind, Except.bind, pure, Except.pure]
  rfl

end TreeUpdater

namespace MetadataCalculator

open TreeUpdater

/-- The number of batches in the database of the tree. -/
def batchesSaved (c : MetadataCalculator Row) : ℕ := c.tree.storage.db.blockNumber.getD 0

/-- The first batch and the range of an iteration, from `step` and `process_multiple_batches`. -/
def nextRange (env : TreeEnv Row) (storage : StorageTables) (c : MetadataCalculator Row)
    (nextL1BatchToSeal : ℕ) : Except String (CalculatorPhase Row) := do
  let lastSealedL1Batch ← storage.getSealedL1BatchNumber
  let lastRequestedL1Batch := (nextL1BatchToSeal + c.maxL1BatchesPerIter + (2 ^ 32 - 1)) % 2 ^ 32
  let lastRequestedL1Batch := min lastRequestedL1Batch lastSealedL1Batch
  if lastRequestedL1Batch < nextL1BatchToSeal then return .waiting nextL1BatchToSeal
  else do
    let data ← getLogsForL1Batch env.poseidonHashBytes storage nextL1BatchToSeal
    return .iterating nextL1BatchToSeal lastRequestedL1Batch data
      (treeKeyToH256 c.tree.rootHash)

/-- The next statement of a calculator. `contracts` are the base system contracts in the headers of
the batches, and `written` is the outcome of a write to RocksDB. -/
def advance (env : TreeEnv Row) (contracts : ℕ → L1BatchMetaParameters) (storage : StorageTables)
    (sched : Schedule Row) (written : Bool) (tables : CalculatorTables Trace Row)
    (c : MetadataCalculator Row) :
    Except Fault (CalculatorTables Trace Row × MetadataCalculator Row) :=
  match c.phase with
  | .down => do
    let tree ← openTree env storage sched written c.tree.storage.db
    return (tables, { c with tree := tree, phase := .waiting tree.blockNumber })
  | .waiting nextL1BatchToSeal => do
    let phase ← (c.nextRange env storage nextL1BatchToSeal).mapError Fault.panic
    return (tables, { c with phase := phase })
  | .iterating number last data previousRootHash =>
    match data with
    -- an early return, without a save
    | none => return (tables, { c with phase := .waiting number })
    | some block => do
      let (metadata, tree, witnesses) ←
        processWithStore env sched c.hasObjectStore tables.witnesses c.tree block
      let nextData ← if number < last then
          (getLogsForL1Batch env.poseidonHashBytes storage (number + 1)).mapError Fault.panic
        else pure none
      return ({ tables with witnesses := witnesses },
        { c with tree := tree, phase := .processed number last metadata nextData previousRootHash })
  | .processed number last metadata nextData previousRootHash => do
    let columns ← (metadataColumns env metadata (contracts number) previousRootHash).mapError
      Fault.panic
    let rows ← (BlocksDal.saveL1BatchMetadata storage tables.metadata number columns).mapError
      Fault.panic
    return ({ tables with metadata := rows },
      { c with phase := .stored number last nextData (treeKeyToH256 metadata.rootHash) })
  | .stored number last nextData previousRootHash =>
    -- only a calculator with an object store has a key for the row
    let table := if c.hasObjectStore then
        ProofGenerationDal.insertProofGenerationDetails tables.proofs.table number
          (prepareWitnessKey number)
      else tables.proofs.table
    return ({ tables with proofs.table := table },
      { c with phase := if number < last then .iterating (number + 1) last nextData previousRootHash
        else .finished last })
  | .finished last =>
    return (tables, { c with tree := AsyncTree.save c.tree written, phase := .waiting (last + 1) })

end MetadataCalculator

/-- The sequencer with the batches it has sealed, and the calculators. -/
structure MetadataSystem (Trace Row : Type) where
  io : SequencerIo
  history : List SealedBatch
  tables : CalculatorTables Trace Row
  calculators : List (MetadataCalculator Row)

namespace MetadataSystem

/-- A step of the system, with the calculator whose statement it is, if it is one. A calculator may
exit at any time; one that panics exits. -/
inductive Step (env : TreeEnv Row) (contracts : ℕ → L1BatchMetaParameters) :
    MetadataSystem Trace Row → Option (MetadataCalculator Row) → MetadataSystem Trace Row →
      Prop where
  /-- The traces of a batch are in the object store before it is sealed. -/
  | finishBatch {s : MetadataSystem Trace Row} (trace : Trace) :
      Step env contracts s none { s with
        tables.witnesses := s.tables.witnesses.insert s.io.currentL1BatchNumber
          ⟨some trace, none, none, none⟩ }
  | sequencer {s : MetadataSystem Trace Row} {io : SequencerIo} {history : List SealedBatch} :
      SealRun env.poseidonHashBytes io history → s.history <+: history →
      (∀ n, s.history.length ≤ n → n < history.length →
        ∃ job, s.tables.witnesses.lookup n = some job ∧ job.txTrace.isSome) →
      Step env contracts s none { s with io := io, history := history }
  | prover {s : MetadataSystem Trace Row} {action : ProofDataAction} {proofs : ProofDataHandler} :
      (∀ number url, action ≠ .insertProofGenerationDetails number url) →
      s.tables.proofs.step action = some proofs →
      Step env contracts s none { s with tables.proofs := proofs }
  | addCalculator {s : MetadataSystem Trace Row} (maxL1BatchesPerIter : ℕ)
      (hasObjectStore : Bool) :
      Step env contracts s none { s with
        calculators := s.calculators ++
          [⟨maxL1BatchesPerIter, hasObjectStore, ⟨.new .empty, treeKeyDefault, 0⟩, .down⟩] }
  | exit {s : MetadataSystem Trace Row} {i : ℕ} {c : MetadataCalculator Row} :
      s.calculators[i]? = some c →
      Step env contracts s none
        { s with calculators := s.calculators.set i { c with phase := .down } }
  | advance {s : MetadataSystem Trace Row} {i : ℕ} {c c' : MetadataCalculator Row}
      {tables : CalculatorTables Trace Row} (sched : Schedule Row) (written : Bool) :
      s.calculators[i]? = some c →
      c.advance env contracts s.io.storage sched written s.tables = .ok (tables, c') →
      Step env contracts s (some c)
        { s with tables := tables, calculators := s.calculators.set i c' }

/-- The batches that are not in the database of the tree yet do no harm to the one that is processed
next: they have given no leaf its first index, and the batch writes every leaf that they changed.
When a batch is saved before the next one is processed, there are none. -/
def Unaffected (env : TreeEnv Row) (history : List SealedBatch) (c : MetadataCalculator Row) :
    Prop :=
  ∀ number last block previousRootHash,
    c.phase = .iterating number last (some block) previousRootHash →
      orderAt env history number = orderAt env history c.batchesSaved ∧
      ∀ k, k ∉ (TreeUpdater.batchOps env block.storageLogs).map (fun op => treeKeyToU256 op.1) →
        leavesAt env history number k = leavesAt env history c.batchesSaved k

/-- A step that does not process a batch which unsaved ones affect. The code does not check it: it
is the condition on the runs that the results are about. -/
inductive UnaffectedStep (env : TreeEnv Row) (contracts : ℕ → L1BatchMetaParameters)
    (s s' : MetadataSystem Trace Row) : Prop where
  | step {actor : Option (MetadataCalculator Row)} : Step env contracts s actor s' →
      (∀ c, actor = some c → Unaffected env s.history c) → UnaffectedStep env contracts s s'

/-- The states from `ensure_genesis_state` on, by unaffected steps. -/
inductive Reachable (env : TreeEnv Row) (contracts : ℕ → L1BatchMetaParameters) :
    MetadataSystem Trace Row → Prop where
  | genesis {io : SequencerIo} {batch : SealedBatch} {block : WitnessBlockWithLogs}
      {metadata : TreeMetadata Row} {columns : MetadataColumns} (sched : Schedule Row) :
      SealRun env.poseidonHashBytes io [batch] →
      getLogsForL1Batch env.poseidonHashBytes io.storage 0 = .ok (some block) →
      MetadataCalculator.processGenesisBatch env sched block.storageLogs = .ok metadata →
      TreeUpdater.genesisColumns env metadata (contracts 0) = .ok columns →
      Reachable env contracts ⟨io, [batch], { metadata := (∅ : KeyedMap ℕ _).insert 0 columns }, []⟩
  | step {s s' : MetadataSystem Trace Row} :
      Reachable env contracts s → UnaffectedStep env contracts s s' → Reachable env contracts s'

end MetadataSystem

end OlaOs
