import OlaOs.Dedup.Rollback
import OlaOs.Sequencer.Coverage

/-! The executions of `restore_state` against those of the sequencer that was stopped, for a virtual
machine whose results depend only on the parameters of the batch and on the transactions that were
included before. -/
namespace OlaOs

/-- What a virtual machine does in a batch, by its parameters and the transactions included
before. -/
structure VmModel (T : Type) where
  outcome : L1BatchParams → List Transaction → OlaTapeInitInfo → Except String (TxExeResult T)

/-- A miniblock of a batch. -/
structure Block where
  timestamp : U64
  txs : List Transaction

def MiniblockReexecuteData.block (miniblock : MiniblockReexecuteData) : Block :=
  ⟨miniblock.timestamp, miniblock.txs⟩

/-- The storage logs of all transactions of a batch. -/
def UpdatesManager.storageLogs (updates : UpdatesManager) : List StorageLogQuery :=
  updates.l1Batch.blockStorageLogs ++ updates.miniblock.storageLogs

namespace VmModel

variable {σ T : Type} (vm : VmModel T) (params : L1BatchParams)

/-- `BatchExecutor::tx`, after the given transactions. -/
def tx (included : List Transaction) (transaction : Transaction) :
    Except SequencerPanic (TxExecutionResult T) := do
  let info ← BatchExecutor.tapeInitInfo transaction
  match vm.outcome params included info with
  | .ok result =>
    .ok (.success
      ⟨.success, .fromStorageEvents result.storageAccessLogs result.events
        (Fin.ofNat _ included.length), result.trace⟩ {} {})
  | .error e => .ok (.rejectedByVm (.txReverted (.general e [])))

/-- The block manager does what the model says in all states that the model describes. -/
structure Describes (manager : BlockExeManager σ T)
    (holds : L1BatchParams → List Transaction → σ → Prop) : Prop where
  invoke : ∀ {params included s info}, holds params included s →
    (manager.invoke s info).1 = vm.outcome params included info
  included : ∀ {params included s transaction info result s'}, holds params included s →
    BatchExecutor.tapeInitInfo transaction = .ok info → manager.invoke s info = (.ok result, s') →
    holds params (included ++ [transaction]) s'

variable {vm params}

/-- The executor is a state that the model describes. -/
theorem Describes.tx {manager : BlockExeManager σ T}
    {holds : L1BatchParams → List Transaction → σ → Prop} (hvm : vm.Describes manager holds)
    {included : List Transaction} {s s' : σ} (hs : holds params included s)
    {transaction : Transaction} {result : TxExecutionResult T}
    (h : BatchExecutor.tx manager s transaction (Fin.ofNat _ included.length) = .ok (result, s')) :
    vm.tx params included transaction = .ok result ∧
      (∀ txResult metrics dryRun, result = .success txResult metrics dryRun →
        holds params (included ++ [transaction]) s') := by
  unfold BatchExecutor.tx at h
  obtain ⟨info, hinfo, h⟩ := Seq.bind_eq_ok.mp h
  have hinvoke : (manager.invoke s info).1 = vm.outcome params included info := hvm.invoke hs
  unfold VmModel.tx
  rw [hinfo]
  dsimp only [Except.bind, bind]
  rw [← hinvoke]
  rcases hresult : manager.invoke s info with ⟨e | exeResult, s₁⟩
  · rw [hresult] at h
    cases h
    exact ⟨rfl, nofun⟩
  · rw [hresult] at h
    cases h
    exact ⟨rfl, fun _ _ _ _ => hvm.included hs hinfo hresult⟩

/-- What the model says, in a state that it describes. -/
theorem Describes.tx_eq {manager : BlockExeManager σ T}
    {holds : L1BatchParams → List Transaction → σ → Prop} (hvm : vm.Describes manager holds)
    {included : List Transaction} {s : σ} (hs : holds params included s)
    {transaction : Transaction} {txResult : VmTxExeResult T} {metrics : ExecutionMetrics}
    {dryRun : VmPartialExecutionResult}
    (h : vm.tx params included transaction = .ok (.success txResult metrics dryRun)) :
    ∃ s', BatchExecutor.tx manager s transaction (Fin.ofNat _ included.length) =
      .ok (.success txResult metrics dryRun, s') ∧ holds params (included ++ [transaction]) s' := by
  unfold VmModel.tx at h
  obtain ⟨info, hinfo, h⟩ := Seq.bind_eq_ok.mp h
  have hinvoke : (manager.invoke s info).1 = vm.outcome params included info := hvm.invoke hs
  rw [← hinvoke] at h
  unfold BatchExecutor.tx
  rw [hinfo]
  dsimp only [Except.bind, bind]
  rcases hresult : manager.invoke s info with ⟨e | exeResult, s₁⟩
  · rw [hresult] at h
    cases h
  · rw [hresult] at h
    cases h
    exact ⟨s₁, rfl, hvm.included hs hinfo hresult⟩

end VmModel

namespace Sequencer

open StorageWritesDeduplicator

variable {σ T : Type}

/-- Updates that are made of executions after one another: of the transactions of some miniblocks,
and of those of the open one. -/
inductive Builds (env : SequencerEnv σ T) (vm : VmModel T) (params : L1BatchParams) :
    List Block → Block → UpdatesManager → Prop where
  | new : Builds env vm params [] ⟨params.blockTimestamp, []⟩
      (.new params.blockTimestamp params.protocolVersion)
  | tx {done : List Block} {block : Block} {updates updates' : UpdatesManager}
      {transaction : Transaction} {txResult : VmTxExeResult T} {metrics : ExecutionMetrics}
      {dryRun : VmPartialExecutionResult} :
      Builds env vm params done block updates →
      vm.tx params updates.included transaction = .ok (.success txResult metrics dryRun) →
      updates.extendFromExecutedTransaction transaction (env.encodedTransactionSize transaction)
        txResult metrics = .ok updates' →
      Builds env vm params done ⟨block.timestamp, block.txs ++ [transaction]⟩ updates'
  | push {done : List Block} {block : Block} {updates : UpdatesManager} (timestamp : U64) :
      Builds env vm params done block updates →
      Builds env vm params (done ++ [block]) ⟨timestamp, []⟩ (updates.pushMiniblock timestamp)

variable {env : SequencerEnv σ T} {vm : VmModel T} {params : L1BatchParams} {done : List Block}
  {block : Block} {updates updates' : UpdatesManager}

theorem storageLogs_pushMiniblock (updates : UpdatesManager) (timestamp : U64) :
    (updates.pushMiniblock timestamp).storageLogs = updates.storageLogs :=
  List.append_nil _

theorem included_pushBlock (done : List Block) (block : Block) (timestamp : U64) :
    (done ++ [block]).flatMap Block.txs ++ (⟨timestamp, []⟩ : Block).txs =
      done.flatMap Block.txs ++ block.txs := by
  simp

/-- What the updates say of their miniblocks. -/
structure Contents (params : L1BatchParams) (done : List Block) (block : Block)
    (updates : UpdatesManager) : Prop where
  batchTimestamp : updates.batchTimestamp = params.blockTimestamp
  protocolVersion : updates.protocolVersion = params.protocolVersion
  timestamp : updates.miniblock.timestamp = block.timestamp
  first : (done ++ [block]).head?.map Block.timestamp = some params.blockTimestamp
  txs : updates.miniblock.executedTransactions.map TransactionExecutionResult.transaction =
    block.txs
  included : updates.included = done.flatMap Block.txs ++ block.txs
  hash : ∀ e ∈ updates.executed, e.transaction.hash = some e.hash

theorem Builds.contents (h : Builds env vm params done block updates) :
    Contents params done block updates := by
  induction h with
  | new => exact ⟨rfl, rfl, rfl, rfl, rfl, rfl, nofun⟩
  | @tx done block updates updates' transaction _ _ _ _ _ hextend ih =>
    have hincluded := UpdatesManager.included_extend hextend
    obtain ⟨e, rfl, hhash, hexecuted, -⟩ := UpdatesManager.executed_extend hextend
    obtain ⟨hash, -, rfl⟩ := UpdatesManager.extendFromExecutedTransaction_eq_ok.mp hextend
    refine ⟨ih.batchTimestamp, ih.protocolVersion, ih.timestamp, ?_, ?_, ?_, ?_⟩
    · have hfirst := ih.first
      cases done with
      | nil => exact hfirst
      | cons first done => exact hfirst
    · rw [List.map_append, ih.txs]
      rfl
    · rw [hincluded, ih.included, List.append_assoc]
    · intro e' he'
      rw [hexecuted] at he'
      rcases List.mem_append.mp he' with he' | he'
      · exact ih.hash e' he'
      · cases List.mem_singleton.mp he'
        exact hhash
  | @push done block updates timestamp _ ih =>
    refine ⟨ih.batchTimestamp, ih.protocolVersion, rfl, ?_, rfl, ?_, ?_⟩
    · have hfirst := ih.first
      cases done with
      | nil => exact hfirst
      | cons first done => exact hfirst
    · rw [UpdatesManager.included_pushMiniblock, ih.included, included_pushBlock]
    · rw [UpdatesManager.executed_pushMiniblock]
      exact ih.hash

/-- The initial values of a batch are those that its included transactions have read. -/
theorem Builds.initialValues (h : Builds env vm params done block updates) (key : StorageKey) :
    updates.storageWritesDeduplicator.initialValues.lookup key =
      firstRead updates.storageLogs key := by
  induction h with
  | new => rfl
  | @tx done block updates updates' transaction txResult metrics dryRun _ _ hextend ih =>
    obtain ⟨hash, -, rfl⟩ := UpdatesManager.extendFromExecutedTransaction_eq_ok.mp hextend
    refine (lookup_processStorageLogs _ key).trans ?_
    unfold initialValueIn
    rw [ih, ← firstRead_append]
    exact congrArg (firstRead · key) (List.append_assoc _ _ _)
  | push timestamp _ ih =>
    rw [storageLogs_pushMiniblock]
    exact ih

/-- Updates of a sequencer that ran on, with transactions that it dropped: all but the write counter
is made of the executions of the included ones, and it counts the same changes. The initial values
that rolled back writes have left in it are free. -/
def Tracks (env : SequencerEnv σ T) (vm : VmModel T) (params : L1BatchParams)
    (done : List Block) (block : Block) (updates : UpdatesManager) : Prop :=
  ∃ deduplicator, SameWrites updates.storageWritesDeduplicator deduplicator ∧
    Builds env vm params done block { updates with storageWritesDeduplicator := deduplicator }

theorem Builds.tracks (h : Builds env vm params done block updates) :
    Tracks env vm params done block updates :=
  ⟨_, ⟨rfl, rfl⟩, h⟩

theorem Tracks.contents (h : Tracks env vm params done block updates) :
    Contents params done block updates := by
  obtain ⟨deduplicator, -, hbuilds⟩ := h
  have hcontents := hbuilds.contents
  exact ⟨hcontents.batchTimestamp, hcontents.protocolVersion, hcontents.timestamp, hcontents.first,
    hcontents.txs, hcontents.included, hcontents.hash⟩

/-- The transactions of the sealed miniblocks of a batch. -/
theorem Tracks.sealed (h : Tracks env vm params done block updates) :
    updates.l1Batch.executedTransactions.map TransactionExecutionResult.transaction =
      done.flatMap Block.txs := by
  have hcontents := h.contents
  have hincluded := hcontents.included
  unfold UpdatesManager.included at hincluded
  rw [List.map_append, hcontents.txs] at hincluded
  exact List.append_cancel_right hincluded

theorem Tracks.push (h : Tracks env vm params done block updates) (timestamp : U64) :
    Tracks env vm params (done ++ [block]) ⟨timestamp, []⟩ (updates.pushMiniblock timestamp) := by
  obtain ⟨deduplicator, hsame, hbuilds⟩ := h
  exact ⟨deduplicator, hsame, hbuilds.push timestamp⟩

/-- The storage logs of a transaction, if it goes into the batch. -/
def includedLogs (env : SequencerEnv σ T) (s : BatchState σ) (transaction : Transaction) :
    List StorageLogQuery :=
  match BatchExecutor.tx env.manager s.executor transaction
      (Fin.ofNat _ s.updates.pendingExecutedTransactionsLen) with
  | .ok (.success txResult metrics dryRun, _) =>
    if (resolve env s.updates transaction (.success txResult metrics dryRun)).1.includes then
      txResult.result.storageLogs
    else []
  | _ => []

/-- Each write sets its slot back to the initial value that the write counter has for it exactly if
that is the first value that the included transactions read there. The counter can have another one
when a dropped transaction or a dry run of the block tip was the first to write to the slot: what
they read stays when their writes are rolled back. -/
def CountsAlike (updates : UpdatesManager) (logs : List StorageLogQuery) : Prop :=
  ∀ log ∈ logs, log.logQuery.rwFlag = true →
    (updates.storageWritesDeduplicator.initialValueIn logs log.logQuery.storageKey =
        some log.newValue ↔
      firstRead (updates.storageLogs ++ logs) log.logQuery.storageKey = some log.newValue)

instance (updates : UpdatesManager) (logs : List StorageLogQuery) :
    Decidable (CountsAlike updates logs) :=
  inferInstanceAs (Decidable (∀ log ∈ logs, _ → _))

/-- The write counter after a transaction is tried: its logs are applied and rolled back, or they
are not looked at. -/
theorem sameWrites_resolve {transaction : Transaction} {execResult : TxExecutionResult T}
    {resolution : SealResolution} {deduplicator : StorageWritesDeduplicator}
    (hresolve : resolve env updates transaction execResult = (resolution, deduplicator)) :
    SameWrites deduplicator updates.storageWritesDeduplicator := by
  cases execResult with
  | success txResult metrics dryRun =>
    obtain ⟨-, rfl⟩ := Prod.mk.inj hresolve
    exact .applyAndRollback _ _
  | rejectedByVm reason =>
    cases reason <;> (obtain ⟨-, rfl⟩ := Prod.mk.inj hresolve; exact ⟨rfl, rfl⟩)
  | bootloaderOutOfGasForTx =>
    obtain ⟨-, rfl⟩ := Prod.mk.inj hresolve
    exact ⟨rfl, rfl⟩
  | bootloaderOutOfGasForBlockTip =>
    obtain ⟨-, rfl⟩ := Prod.mk.inj hresolve
    exact ⟨rfl, rfl⟩

/-- The logs of an included transaction count alike with and without what rolled back writes
have left. -/
theorem Builds.sameWrites_apply {built deduplicator : StorageWritesDeduplicator}
    (hbuilds : Builds env vm params done block
      { updates with storageWritesDeduplicator := built })
    (hsame : SameWrites deduplicator built) {logs tip : List StorageLogQuery}
    (hlookup : ∀ key, deduplicator.initialValues.lookup key =
      updates.storageWritesDeduplicator.initialValueIn (logs ++ tip) key)
    (halike : CountsAlike updates logs) :
    SameWrites (deduplicator.apply logs) (built.apply logs) := by
  refine hsame.processStorageLogs fun log hmem hrw => ?_
  have hbuilt : built.initialValueIn logs log.logQuery.storageKey =
      firstRead (updates.storageLogs ++ logs) log.logQuery.storageKey := by
    rw [firstRead_append]
    exact congrArg (Option.or · _) (hbuilds.initialValues _)
  have hleft : deduplicator.initialValueIn logs log.logQuery.storageKey =
      updates.storageWritesDeduplicator.initialValueIn logs log.logQuery.storageKey := by
    obtain ⟨value, hvalue⟩ := Option.isSome_iff_exists.mp (firstRead_isSome hmem hrw)
    unfold initialValueIn at hlookup ⊢
    rw [hlookup, firstRead_append, hvalue]
    cases updates.storageWritesDeduplicator.initialValues.lookup log.logQuery.storageKey <;> rfl
  rw [hleft, hbuilt]
  exact halike log hmem hrw

variable {holds : L1BatchParams → List Transaction → σ → Prop}

theorem length_included (updates : UpdatesManager) :
    updates.included.length = updates.pendingExecutedTransactionsLen := by
  rw [UpdatesManager.included_eq, List.length_map, UpdatesManager.length_executed]

/-- A transaction that is tried goes into the open miniblock, or leaves only its rolled back
writes. -/
theorem Tracks.tried (hvm : vm.Describes env.manager holds) {s s₁ s' : BatchState σ}
    (h : Tracks env vm params done block s.updates)
    (hholds : holds params s.updates.included s.executor) {transaction : Transaction}
    (halike : CountsAlike s.updates (includedLogs env s transaction))
    {resolution : SealResolution} {execResult : TxExecutionResult T}
    (hone : processOneTx env s transaction = .ok ((resolution, execResult), s₁))
    (happly : applyResolution env s₁ transaction execResult resolution = .ok s') :
    ∃ block', Tracks env vm params done block' s'.updates := by
  obtain ⟨deduplicator, hexec, hresolve, hcases⟩ := processOneTx_includes_cases hone happly
  obtain ⟨built, hsame, hbuilds⟩ := h
  have htried := (sameWrites_resolve hresolve).trans hsame
  rcases hcases with ⟨hincludes, txResult, metrics, dryRun, rfl, hextend⟩ | ⟨-, heq⟩
  · have hlogs : includedLogs env s transaction = txResult.result.storageLogs := by
      unfold includedLogs
      rw [hexec]
      dsimp only
      rw [hresolve, if_pos hincludes]
    rw [hlogs] at halike
    obtain ⟨-, rfl⟩ := Prod.mk.inj hresolve
    have hlookup := s.updates.storageWritesDeduplicator.lookup_applyAndRollback
      (txResult.result.storageLogs ++ dryRun.storageLogs)
    rw [← length_included] at hexec
    obtain ⟨htx, -⟩ := hvm.tx hholds hexec
    obtain ⟨hash, hhash, heq⟩ := UpdatesManager.extendFromExecutedTransaction_eq_ok.mp hextend
    refine ⟨⟨block.timestamp, block.txs ++ [transaction]⟩,
      built.apply txResult.result.storageLogs, ?_, hbuilds.tx htx ?_⟩
    · rw [heq]
      exact hbuilds.sameWrites_apply htried hlookup halike
    · refine UpdatesManager.extendFromExecutedTransaction_eq_ok.mpr ⟨hash, hhash, ?_⟩
      rw [heq]
  · refine ⟨block, built, ?_, ?_⟩
    · rw [heq]
      exact htried
    · rw [heq]
      exact hbuilds

theorem reexecute_success {s : BatchState σ} {index : U32} {transaction : Transaction}
    {executor : σ}
    {txResult : VmTxExeResult T} {metrics : ExecutionMetrics} {dryRun : VmPartialExecutionResult}
    (hexec : BatchExecutor.tx env.manager s.executor transaction index =
      .ok (.success txResult metrics dryRun, executor))
    (hextend : s.updates.extendFromExecutedTransaction transaction
      (env.encodedTransactionSize transaction) txResult metrics = .ok updates') :
    reexecute env (s, index) transaction = .ok ({ s with
        executor := executor
        updates := updates'
        executions := s.executions ++ [⟨transaction, index, txResult.result⟩] }, index + 1) := by
  unfold reexecute
  dsimp only
  rw [hexec]
  dsimp only [bind, Except.bind]
  rw [hextend]

/-- Another transaction at the end of the last miniblock. -/
theorem reexecuteMiniblocks_tx {first : Bool} {miniblocks : List MiniblockReexecuteData}
    (number : ℕ) (timestamp : U64) (txs : List Transaction) (transaction : Transaction)
    (loop : BatchState σ × U32) :
    reexecuteMiniblocks env first (miniblocks ++ [⟨number, timestamp, txs ++ [transaction]⟩]) loop =
      (reexecuteMiniblocks env first (miniblocks ++ [⟨number, timestamp, txs⟩]) loop).bind
        fun loop => reexecute env loop transaction := by
  induction miniblocks generalizing first loop with
  | nil =>
    simp only [List.nil_append, reexecuteMiniblocks, List.foldlM_append, List.foldlM_cons,
      List.foldlM_nil, bind_pure]
    generalize txs.foldlM (reexecute env) _ = result
    cases result with
    | error e => rfl
    | ok loop =>
      show (reexecute env loop transaction).bind _ = reexecute env loop transaction
      cases reexecute env loop transaction <;> rfl
  | cons miniblock miniblocks ih =>
    simp only [List.cons_append, reexecuteMiniblocks]
    generalize miniblock.txs.foldlM (reexecute env) _ = result
    cases result with
    | error e => rfl
    | ok loop => exact ih loop

/-- Another miniblock, still without a transaction. -/
theorem reexecuteMiniblocks_push {first : Bool} {miniblocks : List MiniblockReexecuteData}
    (hpush : first = false ∨ miniblocks ≠ []) (number : ℕ) (timestamp : U64)
    (loop : BatchState σ × U32) :
    reexecuteMiniblocks env first (miniblocks ++ [⟨number, timestamp, []⟩]) loop =
      (reexecuteMiniblocks env first miniblocks loop).bind fun loop =>
        .ok ({ loop.1 with updates := loop.1.updates.pushMiniblock timestamp }, loop.2) := by
  induction miniblocks generalizing first loop with
  | nil =>
    obtain rfl := hpush.resolve_right (by simp)
    rfl
  | cons miniblock miniblocks ih =>
    simp only [List.cons_append, reexecuteMiniblocks]
    generalize miniblock.txs.foldlM (reexecute env) _ = result
    cases result with
    | error e => rfl
    | ok loop => exact ih (.inl rfl) loop

/-- The executions of a restored batch, by their indices. -/
def indexedIn (s : BatchState σ) : List (Transaction × U32) :=
  s.executions.map fun execution => (execution.transaction, execution.txIndexInL1Batch)

/-- Executing the transactions of the miniblocks again makes the same updates, on an executor that
was started with the parameters of the batch. -/
theorem Builds.restores (hvm : vm.Describes env.manager holds) {executor : σ}
    (hfresh : holds params [] executor) (h : Builds env vm params done block updates)
    {miniblocks : List MiniblockReexecuteData}
    (hblocks : miniblocks.map MiniblockReexecuteData.block = done ++ [block]) :
    ∃ s, reexecuteMiniblocks env true miniblocks (RunState.newBatchState params executor, 0) =
        .ok (s, Fin.ofNat _ updates.included.length) ∧
      s.updates = updates ∧ holds params updates.included s.executor ∧
      indexedIn s = updates.included.mapIdx fun i transaction => (transaction, Fin.ofNat _ i) := by
  induction h generalizing miniblocks with
  | new =>
    obtain ⟨⟨number, timestamp, txs⟩, rfl, hblock⟩ := List.map_eq_singleton_iff.mp hblocks
    obtain ⟨rfl, rfl⟩ := Block.mk.inj hblock
    exact ⟨_, rfl, rfl, hfresh, rfl⟩
  | @tx done block updates updates' transaction txResult metrics dryRun _ htx hextend ih =>
    obtain ⟨front, last, rfl, hfront, hlast⟩ := List.map_eq_append_iff.mp hblocks
    obtain ⟨⟨number, timestamp, txs⟩, rfl, hblock⟩ := List.map_eq_singleton_iff.mp hlast
    obtain ⟨rfl, rfl⟩ := Block.mk.inj hblock
    have hblocks' : (front ++ [(⟨number, block.timestamp, block.txs⟩ :
        MiniblockReexecuteData)]).map MiniblockReexecuteData.block = done ++ [block] := by
      rw [List.map_append, hfront]
      rfl
    obtain ⟨s, hrun, rfl, hholds, hindexed⟩ := ih hblocks'
    obtain ⟨executor', hexec, hholds'⟩ := hvm.tx_eq hholds htx
    have hincluded := UpdatesManager.included_extend hextend
    refine ⟨{ s with
        executor := executor'
        updates := updates'
        executions := s.executions ++
          [⟨transaction, Fin.ofNat _ s.updates.included.length, txResult.result⟩] },
      ?_, rfl, hincluded ▸ hholds', ?_⟩
    · have hindex : (Fin.ofNat (2 ^ 32) s.updates.included.length : U32) + 1 =
          Fin.ofNat _ updates'.included.length := by
        rw [hincluded, List.length_append]
        apply Fin.ext
        simp [Fin.val_add]
      rw [reexecuteMiniblocks_tx, hrun, ← hindex]
      exact reexecute_success hexec hextend
    · rw [hincluded, List.mapIdx_append, ← hindexed]
      simp [indexedIn]
  | @push done block updates timestamp _ ih =>
    obtain ⟨front, last, rfl, hfront, hlast⟩ := List.map_eq_append_iff.mp hblocks
    obtain ⟨⟨number, timestamp', txs⟩, rfl, hblock⟩ := List.map_eq_singleton_iff.mp hlast
    obtain ⟨rfl, rfl⟩ := Block.mk.inj hblock
    obtain ⟨s, hrun, rfl, hholds, hindexed⟩ := ih hfront
    refine ⟨{ s with updates := s.updates.pushMiniblock timestamp' }, ?_, rfl, ?_, ?_⟩
    · rw [reexecuteMiniblocks_push, hrun]
      · rw [UpdatesManager.included_pushMiniblock]
        rfl
      · right
        rintro rfl
        simp at hfront
    · rwa [UpdatesManager.included_pushMiniblock]
    · rwa [UpdatesManager.included_pushMiniblock]

/-- Two batches with the same parameters, sealed miniblocks and changed slots. -/
structure SameBatch (updates updates' : UpdatesManager) : Prop where
  batchTimestamp : updates'.batchTimestamp = updates.batchTimestamp
  protocolVersion : updates'.protocolVersion = updates.protocolVersion
  l1Batch : updates'.l1Batch = updates.l1Batch
  metrics : updates'.storageWritesDeduplicator.metrics = updates.storageWritesDeduplicator.metrics
  modifiedKeys : updates'.storageWritesDeduplicator.modifiedKeys =
    updates.storageWritesDeduplicator.modifiedKeys

/-- The batch of a stopped sequencer is restored from the contents of its miniblocks. -/
theorem Tracks.restores (hvm : vm.Describes env.manager holds) {executor : σ}
    (hfresh : holds params [] executor) (h : Tracks env vm params done block updates)
    {miniblocks : List MiniblockReexecuteData}
    (hblocks : miniblocks.map MiniblockReexecuteData.block = done ++ [block]) :
    ∃ s, reexecuteMiniblocks env true miniblocks (RunState.newBatchState params executor, 0) =
        .ok (s, Fin.ofNat _ updates.included.length) ∧
      Tracks env vm params done block s.updates ∧
      indexedIn s = updates.included.mapIdx (fun i transaction => (transaction, Fin.ofNat _ i)) ∧
      ∀ timestamp timestamp',
        SameBatch (updates.pushMiniblock timestamp) (s.updates.pushMiniblock timestamp') := by
  obtain ⟨deduplicator, hsame, hbuilds⟩ := h
  obtain ⟨s, hrun, hupdates, -, hindexed⟩ := hbuilds.restores hvm hfresh hblocks
  refine ⟨s, hrun, ?_, hindexed, fun timestamp timestamp' => ?_⟩
  · rw [hupdates]
    exact hbuilds.tracks
  · rw [hupdates]
    exact ⟨rfl, rfl, rfl, hsame.metrics.symm, hsame.modifiedKeys.symm⟩

end Sequencer

end OlaOs
