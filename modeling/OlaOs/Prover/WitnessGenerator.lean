import OlaOs.Lib.KeyedMap
import OlaOs.Lib.Transition
import OlaOs.Prover.JobProcessor
import OlaOs.Prover.WitnessInputs

/-! The basic witness generators (`prover/witness_generator/src/basic_circuits.rs`), each a process
that runs the polling loop, and the gateway that saves their inputs
(`prover/prover_fri_gateway/src/proof_gen_data_fetcher.rs`). -/
namespace OlaOs

open FriWitnessGeneratorDal FriProtocolVersionsDal

structure FriWitnessGeneratorConfig where
  blocksProvingPercentage : Option ℕ := none
  lastL1BatchToProcess : Option ℕ := none
  forceProcessBlock : Option ℕ := none

namespace FriWitnessGeneratorConfig

/-- `last_l1_batch_to_process()` -/
def lastBatch (config : FriWitnessGeneratorConfig) : ℕ :=
  config.lastL1BatchToProcess.getD (2 ^ 32 - 1)

/-- The test of `process_job_impl` for the threshold that was drawn. -/
def skips (config : FriWitnessGeneratorConfig) (threshold blockNumber : ℕ) : Bool :=
  (config.blocksProvingPercentage.any fun percentage => percentage < threshold) &&
    !(config.forceProcessBlock.any fun block => block = blockNumber)

end FriWitnessGeneratorConfig

/-- `PrepareBasicCircuitsJob::encode_key` -/
def prepareWitnessKey (l1BatchNumber : ℕ) : String :=
  "prepare_witness_" ++ toString l1BatchNumber ++ ".bin"

structure ProofGenerationData where
  l1BatchNumber : ℕ
  data : List UInt8
  friProtocolVersionId : FriProtocolVersionId

/-- How far a call of `save_proof_gen_data` is. -/
inductive SaveStage where
  | received
  | blobSaved
  | versionSaved

/-- How the task of a job has ended. -/
inductive WitnessTaskResult where
  | skipped
  | artifacts
  | panicked (error : String)
  deriving DecidableEq

/-- One process. Its last task is running until it has a result; `taken` lists the batches that it
was handed. -/
structure BasicWitnessGenerator where
  config : FriWitnessGeneratorConfig
  protocolVersions : List FriProtocolVersionId
  podName : String
  batchSize : Option ℕ
  stopped : Bool
  exited : Bool
  run : JobRun ℕ
  task : Option (ℕ × Option WitnessTaskResult)
  taken : List ℕ

namespace BasicWitnessGenerator

def start (config : FriWitnessGeneratorConfig) (protocolVersions : List FriProtocolVersionId)
    (podName : String) (batchSize : Option ℕ) : BasicWitnessGenerator :=
  ⟨config, protocolVersions, podName, batchSize, false, false, .start batchSize, none, []⟩

/-- One turn of the loop up to the end of `get_next_job`, and `process_job`. A missing blob makes
`get_artifacts` panic. -/
def poll (w : BasicWitnessGenerator) (table : List WitnessInputRow)
    (blobs : KeyedMap String (List UInt8)) (locked : List ℕ) :
    Option (BasicWitnessGenerator × List WitnessInputRow) :=
  match w.run.phase with
  | .polling =>
    if !w.run.continues || w.stopped then
      some ({ w with run := { w.run with phase := .returned (.ok ()) } }, table)
    else
      match getNextBasicCircuitWitnessJob table w.config.lastBatch w.protocolVersions w.podName
        locked with
      | (some blockNumber, table) =>
        if (blobs.lookup (prepareWitnessKey blockNumber)).isSome then
          some ({ w with
            run := w.run.poll (.ok (some blockNumber))
            task := some (blockNumber, none)
            taken := w.taken ++ [blockNumber] }, table)
        else some ({ w with exited := true, taken := w.taken ++ [blockNumber] }, table)
      | (none, table) => some ({ w with run := w.run.poll (.ok none) }, table)
  | _ => none

/-- `process_job_impl`, with the number that was drawn from `1..100` and what became of the
witness. The task lives as long as the process. -/
def processJobImpl (w : BasicWitnessGenerator) (table : List WitnessInputRow) (threshold : ℕ)
    (result : Except String Unit) : Option (BasicWitnessGenerator × List WitnessInputRow) :=
  match w.task with
  | some (blockNumber, none) =>
    if 1 ≤ threshold ∧ threshold < 100 then
      if w.config.skips threshold blockNumber then
        some ({ w with task := some (blockNumber, some .skipped) },
          markWitnessJob table .skipped blockNumber)
      else match result with
        | .ok () => some ({ w with task := some (blockNumber, some .artifacts) }, table)
        | .error error =>
          some ({ w with task := some (blockNumber, some (.panicked error)) }, table)
    else none
  | _ => none

/-- The start of `wait_for_task`; the query may fail. -/
def getJobAttempts (w : BasicWitnessGenerator) (table : List WitnessInputRow)
    (failure : Option String) : Option (BasicWitnessGenerator × List WitnessInputRow) :=
  match w.run.phase with
  | .attempts blockNumber =>
    let attempts := failure.elim
      (.ok ((getBasicCircuitWitnessJobAttempts table blockNumber).getD 0))
      fun e => .error ["failed to get job attempts for BasicWitnessGenerator", e]
    some ({ w with run := w.run.getJobAttempts blockNumber attempts }, table)
  | _ => none

/-- The end of `wait_for_task`: `save_result` or `save_failure`. Without a version
`update_database` panics. -/
def waitForTask (w : BasicWitnessGenerator) (table : List WitnessInputRow) :
    Option (BasicWitnessGenerator × List WitnessInputRow) :=
  match w.run.phase, w.task with
  | .waiting blockNumber, some (_, some result) =>
    match result with
    | .skipped => some ({ w with run := w.run.jobSaved (.ok ()) }, table)
    | .artifacts =>
      if (protocolVersionForL1Batch table blockNumber).isSome then
        some ({ w with run := w.run.jobSaved (.ok ()) },
          markWitnessJobAsSuccessful table blockNumber)
      else some ({ w with exited := true }, table)
    | .panicked error =>
      some ({ w with run := w.run.jobSaved (.ok ()) }, markWitnessJobFailed table error blockNumber)
  | _, _ => none

/-- The batch that the loop has taken and not reported on, also when it never will. -/
def pending (w : BasicWitnessGenerator) : Option ℕ :=
  match w.run.phase with
  | .attempts blockNumber => some blockNumber
  | .waiting blockNumber => some blockNumber
  | .returned (.error _) => w.task.map Prod.fst
  | _ => none

end BasicWitnessGenerator

/-- The tables, the bucket of witness inputs, the calls of `save_proof_gen_data`, one for each
gateway at most, and the generators. -/
structure WitnessSystem where
  table : List WitnessInputRow := []
  versions : List FriProtocolVersionId := []
  blobs : KeyedMap String (List UInt8) := ∅
  saves : List (ProofGenerationData × SaveStage) := []
  workers : List BasicWitnessGenerator := []

inductive WitnessAction where
  | handleResponse (data : ProofGenerationData)
  | saveProofGenData (i : ℕ)
  | gatewayExits (i : ℕ)
  | start (config : FriWitnessGeneratorConfig) (podName : String) (batchSize : Option ℕ)
  | stop (i : ℕ)
  | exit (i : ℕ)
  | poll (i : ℕ) (locked : List ℕ)
  | processJobImpl (i : ℕ) (threshold : ℕ) (result : Except String Unit)
  | getJobAttempts (i : ℕ) (failure : Option String)
  | waitForTask (i : ℕ)

namespace WitnessSystem

/-- The next statement of a call of `save_proof_gen_data`. The version of a row has to be in the
table of versions. -/
def saveProofGenData (s : WitnessSystem) (i : ℕ) : Option WitnessSystem :=
  match s.saves[i]? with
  | some (data, .received) => some { s with
    blobs := s.blobs.insert (prepareWitnessKey data.l1BatchNumber) data.data
    saves := s.saves.set i (data, .blobSaved) }
  | some (data, .blobSaved) => some { s with
    versions := saveProverProtocolVersion s.versions data.friProtocolVersionId
    saves := s.saves.set i (data, .versionSaved) }
  | some (data, .versionSaved) =>
    if data.friProtocolVersionId ∈ s.versions then some { s with
      table := saveWitnessInputs s.table data.l1BatchNumber (prepareWitnessKey data.l1BatchNumber)
        data.friProtocolVersionId
      saves := s.saves.eraseIdx i }
    else some { s with saves := s.saves.eraseIdx i }
  | none => none

/-- A step of one process that is alive. -/
def stepWorker (s : WitnessSystem) (i : ℕ) (f : BasicWitnessGenerator →
    Option (BasicWitnessGenerator × List WitnessInputRow)) : Option WitnessSystem :=
  (s.workers[i]?.bind fun w => if w.exited then none else f w).map fun next =>
    { s with workers := s.workers.set i next.1, table := next.2 }

def step (s : WitnessSystem) : WitnessAction → Option WitnessSystem
  | .handleResponse data => some { s with saves := s.saves ++ [(data, .received)] }
  | .saveProofGenData i => s.saveProofGenData i
  | .gatewayExits i => some { s with saves := s.saves.eraseIdx i }
  | .start config podName batchSize =>
    -- a process that runs for ever needs a version to start
    if batchSize = none ∧ s.versions = [] then none
    else some { s with
      workers := s.workers ++ [.start config s.versions podName batchSize] }
  | .stop i => s.stepWorker i fun w => some ({ w with stopped := true }, s.table)
  | .exit i => s.stepWorker i fun w => some ({ w with exited := true }, s.table)
  | .poll i locked => s.stepWorker i fun w => w.poll s.table s.blobs locked
  | .processJobImpl i threshold result =>
    s.stepWorker i fun w => w.processJobImpl s.table threshold result
  | .getJobAttempts i failure => s.stepWorker i fun w => w.getJobAttempts s.table failure
  | .waitForTask i => s.stepWorker i fun w => w.waitForTask s.table

/-- The states in any interleaving of gateways and generators, with exits at any time. -/
abbrev Reachable : WitnessSystem → Prop :=
  Transition.Reaches step (fun _ _ => True) fun s => s = {}

end WitnessSystem

end OlaOs
