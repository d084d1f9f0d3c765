import Mathlib.Data.ZMod.Defs
import OlaOs.Types.Transaction

/-! The executor of a batch (`ola_core/src/sequencer/batch_executor/mod.rs`) over the block manager
of the virtual machine. -/
namespace OlaOs

/-- `[u64; 4]` -/
abbrev U64Array := Fin 4 → U64

def u64ArrayToH256 (arr : U64Array) : H256 :=
  ⟨(List.ofFn arr).flatMap fun w => Bytes.toBE 8 w.val, by simp⟩

def u64sToU256 (u64s : U64Array) : U256 := h256ToU256 (u64ArrayToH256 u64s)

/-- Word `i` of a byte string, eight bytes from the first one on. -/
def wordAt (bytes : List UInt8) (i : ℕ) : U64 :=
  Fin.ofNat _ (Bytes.ofBE ((bytes.drop (8 * i)).take 8))

def h256ToU64Array (h : H256) : U64Array := fun i => wordAt h.bytes i

/-- `bytes_to_u64s`; its assertion fails on other lengths. -/
def bytesToU64s (bytes : List UInt8) : Option (List U64) :=
  if bytes.length % 8 = 0 then some ((List.range (bytes.length / 8)).map (wordAt bytes)) else none

def u64sToBytes (words : List U64) : List UInt8 := words.flatMap fun w => Bytes.toBE 8 w.val

def TransactionType.code : TransactionType → U64
  | .eip712Transaction => 0x71
  | .eip1559Transaction => 0x02
  | .olaRawTransaction => 0x10
  | .priorityOpTransaction => 0xff
  | .protocolUpgradeTransaction => 0xfe

inductive StorageAccessKind where
  | read
  | initialWrite
  | repeatedWrite
  deriving DecidableEq

structure StorageAccessLog where
  blockTimestamp : U64
  kind : StorageAccessKind
  contractAddr : U64Array
  storageKey : U64Array
  preValue : Option U64Array
  value : Option U64Array

def StorageAccessKind.intoLogType : StorageAccessKind → StorageLogQueryType
  | .read => .read
  | .initialWrite => .initialWrite
  | .repeatedWrite => .repeatedWrite

namespace StorageAccessLog

/-- `From<&StorageAccessLog> for LogQuery` -/
def intoLogQuery (log : StorageAccessLog) : LogQuery where
  timestamp := Fin.ofNat _ log.blockTimestamp
  txNumberInBlock := 0
  auxByte := 0
  shardId := 0
  address := u64ArrayToH256 log.contractAddr
  key := u64sToU256 log.storageKey
  readValue := u64sToU256 (log.preValue.getD 0)
  writtenValue := u64sToU256 (log.value.getD 0)
  rwFlag := log.kind ≠ .read
  rollback := false
  isService := false

/-- `From<&StorageAccessLog> for StorageLogQuery` -/
def intoStorageLogQuery (log : StorageAccessLog) : StorageLogQuery :=
  ⟨log.intoLogQuery, log.kind.intoLogType⟩

end StorageAccessLog

/-- An event of the virtual machine. -/
structure Event where
  batchNumber : U64
  indexInBatch : U64
  address : U64Array
  topics : List U64Array
  data : List U64

structure VmEvent where
  location : U32 × U32
  address : Address
  indexedTopics : List H256
  value : List UInt8

/-- `From<&Event> for VmEvent` -/
def Event.intoVmEvent (event : Event) : VmEvent where
  location := (Fin.ofNat _ event.batchNumber, Fin.ofNat _ event.indexInBatch)
  address := u64ArrayToH256 event.address
  indexedTopics := event.topics.map u64ArrayToH256
  value := u64sToBytes event.data

structure ExecutionMetrics where
  publishedBytecodeBytes : ℕ := 0
  contractsUsed : ℕ := 0
  contractsDeployed : U16 := 0
  vmEvents : ℕ := 0
  storageLogs : ℕ := 0
  totalLogQueries : ℕ := 0
  cyclesUsed : U32 := 0
  deriving DecidableEq

instance : Add ExecutionMetrics where
  add a b := {
    publishedBytecodeBytes := a.publishedBytecodeBytes + b.publishedBytecodeBytes
    contractsUsed := a.contractsUsed + b.contractsUsed
    contractsDeployed := a.contractsDeployed + b.contractsDeployed
    vmEvents := a.vmEvents + b.vmEvents
    storageLogs := a.storageLogs + b.storageLogs
    totalLogQueries := a.totalLogQueries + b.totalLogQueries
    cyclesUsed := a.cyclesUsed + b.cyclesUsed }

inductive VmRevertReason where
  | general (msg : String) (data : List UInt8)
  | innerTxError
  | vmError
  | unknown (functionSelector data : List UInt8)

inductive TxRevertReason where
  | ethCall (reason : VmRevertReason)
  | txReverted (reason : VmRevertReason)
  | validationFailed (reason : VmRevertReason)
  | paymasterValidationFailed (reason : VmRevertReason)
  | prePaymasterPreparationFailed (reason : VmRevertReason)
  | payForTxFailed (reason : VmRevertReason)
  | failedToMarkFactoryDependencies (reason : VmRevertReason)
  | failedToChargeFee (reason : VmRevertReason)
  | fromIsNotAnAccount
  | innerTxError
  | unknown (reason : VmRevertReason)
  | unexpectedVMBehavior (problem : String)
  | bootloaderOutOfGas
  | tooBigGasLimit
  | notEnoughGasProvided
  | missingInvocationLimitReached

def hexEncode (bytes : List UInt8) : String :=
  String.ofList (bytes.flatMap fun b =>
    [Nat.digitChar (b.toNat / 16), Nat.digitChar (b.toNat % 16)])

def VmRevertReason.toString : VmRevertReason → String
  | .general msg _ => msg
  | .vmError => "VM Error"
  | .innerTxError => "Bootloader-based tx failed"
  | .unknown functionSelector data =>
    "Error function_selector = 0x" ++ hexEncode functionSelector ++ ", data = 0x" ++ hexEncode data

def TxRevertReason.toString : TxRevertReason → String
  | .ethCall reason => reason.toString
  | .txReverted reason => reason.toString
  | .validationFailed reason => "Account validation error: " ++ reason.toString
  | .failedToChargeFee reason => "Failed to charge fee: " ++ reason.toString
  | .fromIsNotAnAccount => "Sender is not an account"
  | .innerTxError => "Bootloader-based tx failed"
  | .paymasterValidationFailed reason => "Paymaster validation error: " ++ reason.toString
  | .prePaymasterPreparationFailed reason => "Pre-paymaster preparation error: " ++ reason.toString
  | .unknown reason => "Unknown reason: " ++ reason.toString
  | .unexpectedVMBehavior problem =>
    "virtual machine entered unexpected state. Please contact developers and provide transaction details " ++
      "that caused this error. Error description: " ++ problem
  | .bootloaderOutOfGas => "Bootloader out of gas"
  | .notEnoughGasProvided => "Bootloader did not have enough gas to start the transaction"
  | .failedToMarkFactoryDependencies reason =>
    "Failed to mark factory dependencies: " ++ reason.toString
  | .payForTxFailed reason => "Failed to pay for the transaction: " ++ reason.toString
  | .tooBigGasLimit =>
    "Transaction has a too big ergs limit and will not be executed by the server"
  | .missingInvocationLimitReached => "Tx produced too much cold storage accesses"

/-- The panics of the sequencer and its executor. -/
inductive SequencerPanic where
  | noInputData
  | signatureTooShort
  | calldataNotWords
  | notSupported
  | finishBatch
  | reexecutionFailed
  | unreachableInclusion
  | failedUpgrade
  | unexecutableUpgrade
  | upgradeNotFirst
  deriving DecidableEq

/-- What the virtual machine is started with. -/
structure OlaTapeInitInfo where
  version : U64
  originAddress : U64Array
  calldata : List U64
  nonce : Option U64
  signatureR : Option U64Array
  signatureS : Option U64Array
  txHash : Option U64Array

/-- What an invocation returns: the storage accesses, the events and the trace. -/
structure TxExeResult (T : Type) where
  storageAccessLogs : List StorageAccessLog
  events : List Event
  trace : T

structure BatchExeResult (T : Type) where
  storageAccessLogs : List StorageAccessLog
  events : List Event
  blockTipQueries : List StorageAccessLog
  txTraces : List T

/-- The block manager of the virtual machine, with states `σ` and traces `T`. -/
structure BlockExeManager (σ T : Type) where
  invoke : σ → OlaTapeInitInfo → Except String (TxExeResult T) × σ
  finishBatch : σ → Except String (BatchExeResult T)

/-- What the node relies on: a failed invocation leaves nothing, the results of the others are
kept in `journal`, and the end of a batch returns their accesses and traces with those of the
block tip. -/
structure BlockExeManager.Journaled {σ T : Type} (manager : BlockExeManager σ T)
    (journal : σ → List (TxExeResult T)) (tipQueries : σ → List StorageAccessLog)
    (tipTraces : σ → List T) : Prop where
  invoke_error : ∀ {s info e s'}, manager.invoke s info = (.error e, s') → s' = s
  invoke_ok : ∀ {s info r s'}, manager.invoke s info = (.ok r, s') → journal s' = journal s ++ [r]
  finishBatch_ok : ∀ {s r}, manager.finishBatch s = .ok r →
    r.storageAccessLogs = (journal s).flatMap TxExeResult.storageAccessLogs ++ tipQueries s ∧
      r.txTraces = (journal s).map TxExeResult.trace ++ tipTraces s

inductive TxExecutionStatus where
  | success
  | failure
  deriving DecidableEq

structure VmPartialExecutionResult where
  storageLogs : List StorageLogQuery := []
  events : List VmEvent := []
  revertReason : Option String := none

/-- `from_storage_events` -/
def VmPartialExecutionResult.fromStorageEvents (storageAccessLogs : List StorageAccessLog)
    (events : List Event) (txIndexInL1Batch : U32) : VmPartialExecutionResult where
  storageLogs := storageAccessLogs.map fun log =>
    ⟨{ log.intoLogQuery with txNumberInBlock := Fin.ofNat _ txIndexInL1Batch },
      log.kind.intoLogType⟩
  events := events.map Event.intoVmEvent

structure VmTxExeResult (T : Type) where
  status : TxExecutionStatus
  result : VmPartialExecutionResult
  trace : T

structure VmExecutionResult where
  events : List VmEvent := []
  storageLogQueries : List StorageLogQuery

structure VmBlockResult where
  fullResult : VmExecutionResult
  blockTipResult : VmPartialExecutionResult

inductive TxExecutionResult (T : Type) where
  | success (txResult : VmTxExeResult T) (txMetrics : ExecutionMetrics)
      (entrypointDryRunResult : VmPartialExecutionResult)
  | rejectedByVm (rejectionReason : TxRevertReason)
  | bootloaderOutOfGasForTx
  | bootloaderOutOfGasForBlockTip

namespace BatchExecutor

/-- The tape of a transaction, with the panics on its way. -/
def tapeInitInfo (tx : Transaction) : Except SequencerPanic OlaTapeInitInfo := do
  let hash ← match tx.hash with
    | some hash => .ok hash
    | none => .error .noInputData
  match tx.commonData with
  | .l2 data =>
    if data.signature.length < 64 then .error .signatureTooShort
    else
      let calldata ← match bytesToU64s tx.execute.calldata with
        | some calldata => .ok calldata
        | none => .error .calldataNotWords
      .ok {
        version := data.transactionType.code
        originAddress := h256ToU64Array data.initiatorAddress
        calldata := calldata
        nonce := some (Fin.ofNat _ data.nonce)
        signatureR := some fun i => wordAt (data.signature.take 32) i
        signatureS := some fun i => wordAt ((data.signature.drop 32).take 32) i
        txHash := some (h256ToU64Array hash) }
  | .protocolUpgrade _ => .error .notSupported

variable {σ T : Type} (manager : BlockExeManager σ T)

/-- `BatchExecutor::tx`: run a transaction; what it did stays in the manager. -/
def tx (s : σ) (transaction : Transaction) (txIndexInL1Batch : U32) :
    Except SequencerPanic (TxExecutionResult T × σ) := do
  let info ← tapeInitInfo transaction
  match manager.invoke s info with
  | (.ok result, s) =>
    .ok (.success
      ⟨.success, .fromStorageEvents result.storageAccessLogs result.events txIndexInL1Batch,
        result.trace⟩ {} {}, s)
  | (.error e, s) => .ok (.rejectedByVm (.txReverted (.general e [])), s)

/-- `BatchExecutor::finish_batch` -/
def finishBatch (s : σ) (txIndexInL1Batch : U32) :
    Except SequencerPanic (VmBlockResult × List T) :=
  match manager.finishBatch s with
  | .error _ => .error .finishBatch
  | .ok result => .ok (
      ⟨⟨result.events.map Event.intoVmEvent,
          result.storageAccessLogs.map StorageAccessLog.intoStorageLogQuery⟩,
        .fromStorageEvents result.blockTipQueries [] txIndexInL1Batch⟩,
      result.txTraces)

end BatchExecutor

end OlaOs
