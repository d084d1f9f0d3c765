import OlaOs.Lib.Seq
import OlaOs.Sequencer.ProcessBatch

/-! What a finished batch contains: the included transactions against the state of the executor. -/
namespace OlaOs

/-- Transactions invoked one after the other from `s`, each successfully, with their results. -/
inductive Replays {σ T : Type} (manager : BlockExeManager σ T) (s : σ) :
    List Transaction → List (TxExeResult T) → σ → Prop where
  | nil : Replays manager s [] [] s
  | snoc {txs : List Transaction} {results : List (TxExeResult T)} {s' s'' : σ} {tx : Transaction}
      {info : OlaTapeInitInfo} {result : TxExeResult T} : Replays manager s txs results s' →
      BatchExecutor.tapeInitInfo tx = .ok info → manager.invoke s' info = (.ok result, s'') →
      Replays manager s (txs ++ [tx]) (results ++ [result]) s''

section Executor

variable {σ T : Type} {manager : BlockExeManager σ T}

theorem BatchExecutor.tx_cases {s s' : σ} {transaction : Transaction} {txIndexInL1Batch : U32}
    {execResult : TxExecutionResult T}
    (h : BatchExecutor.tx manager s transaction txIndexInL1Batch = .ok (execResult, s')) :
    ∃ info, tapeInitInfo transaction = .ok info ∧
      ((∃ result txResult, manager.invoke s info = (.ok result, s') ∧
          execResult = .success txResult {} {}) ∨
        ∃ e, manager.invoke s info = (.error e, s') ∧
          execResult = .rejectedByVm (.txReverted (.general e []))) := by
  unfold BatchExecutor.tx at h
  obtain ⟨info, hinfo, h⟩ := Seq.bind_eq_ok.mp h
  refine ⟨info, hinfo, ?_⟩
  rcases hinvoke : manager.invoke s info with ⟨e | result, s₁⟩
  · rw [hinvoke] at h
    cases h
    exact .inr ⟨e, rfl, rfl⟩
  · rw [hinvoke] at h
    cases h
    exact .inl ⟨result, _, rfl, rfl⟩

variable {journal : σ → List (TxExeResult T)} {tipQueries : σ → List StorageAccessLog}
  {tipTraces : σ → List T}

theorem Replays.journal_eq (hmanager : manager.Journaled journal tipQueries tipTraces) {s s' : σ}
    {txs : List Transaction} {results : List (TxExeResult T)}
    (h : Replays manager s txs results s') :
    journal s' = journal s ++ results := by
  induction h with
  | nil => rw [List.append_nil]
  | snoc _ _ hinvoke ih => rw [hmanager.invoke_ok hinvoke, ih, List.append_assoc]

end Executor

namespace Sequencer

variable {σ T : Type} {env : SequencerEnv σ T}

/-- The executor stands where the included transactions alone lead it. -/
def Exact (env : SequencerEnv σ T) (init : σ) (s : BatchState σ) : Prop :=
  ∃ results, Replays env.manager init s.updates.included results s.executor

/-- A transaction fits: if the executor accepts it, its encoding is within the bounds of the
sealer, alone and with the transactions already included. -/
def Fits (env : SequencerEnv σ T) (s : BatchState σ) (tx : Transaction) : Prop :=
  ∀ config info result s', env.sealer.conditionalSealer = some config →
    BatchExecutor.tapeInitInfo tx = .ok info →
    env.manager.invoke s.executor info = (.ok result, s') →
    env.encodedTransactionSize tx ≤ config.rejectBound ∧
      env.encodedTransactionSize tx + s.updates.pendingTxsEncodingSize ≤ txEncodingSpace

/-- Every transaction that the loop executes fits. -/
def AllFit (env : SequencerEnv σ T) : List Turn → BatchState σ → Prop
  | [], _ => True
  | turn :: turns, s =>
    (∀ tx, shouldSealL1BatchUnconditionally turn s = false → turn.nextTx = some tx →
      Fits env (startTurn turn s) tx) ∧
    ∀ s', processTurn env turn s = .ok (false, s') → AllFit env turns s'

variable {init : σ} {s s' : BatchState σ}

theorem Exact.startTurn (h : Exact env init s) (turn : Turn) :
    Exact env init (startTurn turn s) := by
  unfold Sequencer.startTurn
  split_ifs
  · obtain ⟨results, hreplay⟩ := h
    refine ⟨results, ?_⟩
    unfold sealMiniblock
    rwa [UpdatesManager.included_pushMiniblock]
  · exact h

/-- A transaction that executes and fits is included. -/
theorem Fits.includes {tx : Transaction} (h : Fits env s tx) {info : OlaTapeInitInfo}
    (hinfo : BatchExecutor.tapeInitInfo tx = .ok info) {result : TxExeResult T} {executor : σ}
    (hinvoke : env.manager.invoke s.executor info = (.ok result, executor))
    (txResult : VmTxExeResult T) (metrics : ExecutionMetrics) (dryRun : VmPartialExecutionResult) :
    (resolve env s.updates tx (.success txResult metrics dryRun)).1.includes = true := by
  unfold resolve SealManager.shouldSealL1Batch
  cases hsealer : env.sealer.conditionalSealer with
  | none => rfl
  | some config =>
    exact (ConditionalSealer.includes_shouldSealL1Batch _ _ _ _).mpr
      (h config info result executor hsealer hinfo hinvoke)

theorem applyResolution_excludes {tx : Transaction} {execResult : TxExecutionResult T}
    {resolution : SealResolution} (hres : resolution.includes = false)
    (h : applyResolution env s tx execResult resolution = .ok s') :
    s'.executor = s.executor ∧ s'.updates = s.updates := by
  cases resolution <;> cases hres <;> cases h <;> exact ⟨rfl, rfl⟩

theorem applyResolution_includes {tx : Transaction} {txResult : VmTxExeResult T}
    {metrics : ExecutionMetrics} {dryRun : VmPartialExecutionResult} {resolution : SealResolution}
    (hres : resolution.includes = true)
    (h : applyResolution env s tx (.success txResult metrics dryRun) resolution = .ok s') :
    s'.executor = s.executor ∧ s'.updates.included = s.updates.included ++ [tx] := by
  have hextend : ∃ updates, s.updates.extendFromExecutedTransaction tx
      (env.encodedTransactionSize tx) txResult metrics = .ok updates ∧
        Except.ok (ε := SequencerPanic) { s with updates := updates } = .ok s' := by
    cases resolution <;> cases hres <;> exact Seq.bind_eq_ok.mp h
  obtain ⟨updates, hupdates, hs'⟩ := hextend
  cases hs'
  exact ⟨rfl, UpdatesManager.included_extend hupdates⟩

/-- What `process_one_tx` does: the executor runs the transaction and the result is resolved. -/
theorem processOneTx_cases {tx : Transaction} {resolution : SealResolution}
    {execResult : TxExecutionResult T}
    (h : processOneTx env s tx = .ok ((resolution, execResult), s')) :
    ∃ executor deduplicator, BatchExecutor.tx env.manager s.executor tx
        (Fin.ofNat _ s.updates.pendingExecutedTransactionsLen) = .ok (execResult, executor) ∧
      resolve env s.updates tx execResult = (resolution, deduplicator) ∧ s' = { s with
        executor := executor
        updates := { s.updates with storageWritesDeduplicator := deduplicator }
        executions := s.executions ++
          execution tx (Fin.ofNat _ s.updates.pendingExecutedTransactionsLen) execResult } := by
  unfold processOneTx at h
  obtain ⟨⟨execResult', executor⟩, hexec, h⟩ := Seq.bind_eq_ok.mp h
  dsimp only at h
  rcases hresolve : resolve env s.updates tx execResult' with ⟨resolution', deduplicator⟩
  rw [hresolve] at h
  cases h
  exact ⟨executor, deduplicator, hexec, hresolve, rfl⟩

theorem processOneTx_eq {tx : Transaction} {resolution : SealResolution}
    {execResult : TxExecutionResult T}
    (h : processOneTx env s tx = .ok ((resolution, execResult), s')) :
    ∃ executor, BatchExecutor.tx env.manager s.executor tx
        (Fin.ofNat _ s.updates.pendingExecutedTransactionsLen) = .ok (execResult, executor) ∧
      resolution = (resolve env s.updates tx execResult).1 ∧ executor = s'.executor ∧
      s'.updates.included = s.updates.included := by
  obtain ⟨executor, deduplicator, hexec, hresolve, rfl⟩ := processOneTx_cases h
  exact ⟨executor, hexec, by rw [hresolve], rfl, rfl⟩

/-- One turn: a transaction that fits is executed and included, a rejected one leaves nothing. -/
theorem Exact.processTurn {journal : σ → List (TxExeResult T)}
    {tipQueries : σ → List StorageAccessLog} {tipTraces : σ → List T}
    (hmanager : env.manager.Journaled journal tipQueries tipTraces) (h : Exact env init s)
    {turn : Turn} (hfit : ∀ tx, shouldSealL1BatchUnconditionally turn s = false →
      turn.nextTx = some tx → Fits env (Sequencer.startTurn turn s) tx) {done : Bool}
    (hrun : processTurn env turn s = .ok (done, s')) : Exact env init s' := by
  unfold Sequencer.processTurn at hrun
  split_ifs at hrun with hdeadline
  · cases hrun
    exact h
  · cases htx : turn.nextTx with
    | none =>
      rw [htx] at hrun
      cases hrun
      exact h.startTurn turn
    | some tx =>
      rw [htx] at hrun
      have hfits := hfit tx (by simpa using hdeadline) htx
      obtain ⟨results, hreplay⟩ := h.startTurn turn
      generalize Sequencer.startTurn turn s = s₀ at hrun hfits hreplay
      obtain ⟨⟨⟨resolution, execResult⟩, s₁⟩, hone, hrun⟩ := Seq.bind_eq_ok.mp hrun
      obtain ⟨s₂, happly, hrun⟩ := Seq.bind_eq_ok.mp hrun
      cases hrun
      obtain ⟨executor, hexec, rfl, rfl, hsame⟩ := processOneTx_eq hone
      obtain ⟨info, hinfo, ⟨result, txResult, hinvoke, rfl⟩ | ⟨e, hinvoke, rfl⟩⟩ :=
        BatchExecutor.tx_cases hexec
      · -- executed: the transaction is included as well
        obtain ⟨hexecutor, hincluded⟩ :=
          applyResolution_includes (hfits.includes hinfo hinvoke txResult {} {}) happly
        refine ⟨results ++ [result], ?_⟩
        rw [hincluded, hexecutor, hsame]
        exact hreplay.snoc hinfo hinvoke
      · -- rejected: the executor is where it was
        obtain ⟨hexecutor, hupdates⟩ := applyResolution_excludes rfl happly
        refine ⟨results, ?_⟩
        rw [hexecutor, hupdates, hsame, hmanager.invoke_error hinvoke]
        exact hreplay

section Run

variable {journal : σ → List (TxExeResult T)} {tipQueries : σ → List StorageAccessLog}
  {tipTraces : σ → List T} (hmanager : env.manager.Journaled journal tipQueries tipTraces)

include hmanager

theorem Exact.processTurns {turns : List Turn} (h : Exact env init s) (hfit : AllFit env turns s)
    {done : Bool} (hrun : processTurns env turns s = .ok (done, s')) : Exact env init s' := by
  induction turns generalizing s with
  | nil =>
    cases hrun
    exact h
  | cons turn turns ih =>
    unfold Sequencer.processTurns at hrun
    obtain ⟨⟨done₁, s₁⟩, hturn, hrun⟩ := Seq.bind_eq_ok.mp hrun
    have hexact := h.processTurn hmanager hfit.1 hturn
    cases done₁ with
    | true =>
      cases hrun
      exact hexact
    | false => exact ih hexact (hfit.2 s₁ hturn) hrun

end Run

/-- An executed transaction that is added to the updates. -/
theorem Exact.extend (h : Exact env init s) {tx : Transaction} {txIndexInL1Batch : U32}
    {txResult : VmTxExeResult T} {metrics : ExecutionMetrics} {dryRun : VmPartialExecutionResult}
    {executor : σ}
    (hexec : BatchExecutor.tx env.manager s.executor tx txIndexInL1Batch =
      .ok (.success txResult metrics dryRun, executor)) {updates updates' : UpdatesManager}
    (hincluded : updates.included = s.updates.included) {size : ℕ}
    (hextend : updates.extendFromExecutedTransaction tx size txResult metrics = .ok updates')
    {io : List IoCall} {executions : List Execution} :
    Exact env init ⟨executor, updates', io, executions⟩ := by
  obtain ⟨results, hreplay⟩ := h
  obtain ⟨info, hinfo, ⟨result, -, hinvoke, -⟩ | ⟨e, -, hrejected⟩⟩ := BatchExecutor.tx_cases hexec
  · refine ⟨results ++ [result], ?_⟩
    rw [UpdatesManager.included_extend hextend, hincluded]
    exact hreplay.snoc hinfo hinvoke
  · cases hrejected

theorem Exact.pushMiniblock (h : Exact env init s) (timestamp : U64) :
    Exact env init { s with updates := s.updates.pushMiniblock timestamp } := by
  obtain ⟨results, hreplay⟩ := h
  refine ⟨results, ?_⟩
  rwa [UpdatesManager.included_pushMiniblock]

theorem Exact.reexecute {txIndexInL1Batch : U32} {loop : BatchState σ × U32}
    (h : Exact env init s) {tx : Transaction}
    (hrun : reexecute env (s, txIndexInL1Batch) tx = .ok loop) : Exact env init loop.1 := by
  unfold Sequencer.reexecute at hrun
  obtain ⟨⟨execResult, executor⟩, hexec, hrun⟩ := Seq.bind_eq_ok.mp hrun
  cases execResult with
  | success txResult metrics dryRun =>
    obtain ⟨updates, hextend, hrun⟩ := Seq.bind_eq_ok.mp hrun
    cases hrun
    exact h.extend hexec rfl hextend
  | rejectedByVm reason => cases hrun
  | bootloaderOutOfGasForTx => cases hrun
  | bootloaderOutOfGasForBlockTip => cases hrun

/-- An invariant of restoring: a push keeps it, and so does a transaction that is executed again. -/
theorem reexecuteMiniblocks_invariant {P : BatchState σ × U32 → Prop}
    (hpush : ∀ {s : BatchState σ} {index : U32}, P (s, index) → ∀ timestamp : U64,
      P ({ s with updates := s.updates.pushMiniblock timestamp }, index))
    (hstep : ∀ {loop loop' : BatchState σ × U32} {tx : Transaction}, P loop →
      reexecute env loop tx = .ok loop' → P loop')
    {miniblocks : List MiniblockReexecuteData} {first : Bool} {loop loop' : BatchState σ × U32}
    (h : P loop) (hrun : reexecuteMiniblocks env first miniblocks loop = .ok loop') : P loop' := by
  have hall : ∀ {txs : List Transaction} {loop loop' : BatchState σ × U32}, P loop →
      txs.foldlM (reexecute env) loop = .ok loop' → P loop' := by
    intro txs
    induction txs with
    | nil =>
      intro loop loop' h hrun
      cases hrun
      exact h
    | cons tx txs ih =>
      intro loop loop' h hrun
      rw [List.foldlM_cons] at hrun
      obtain ⟨loop₁, hone, hrun⟩ := Seq.bind_eq_ok.mp hrun
      exact ih (hstep h hone) hrun
  induction miniblocks generalizing loop first with
  | nil =>
    cases hrun
    exact h
  | cons miniblock miniblocks ih =>
    unfold reexecuteMiniblocks at hrun
    obtain ⟨loop₁, hone, hrun⟩ := Seq.bind_eq_ok.mp hrun
    refine ih (hall ?_ hone) hrun
    cases first with
    | true => exact h
    | false => exact hpush h miniblock.timestamp

theorem exact_start {input : BatchInput} (hrun : start env input init = .ok s) :
    Exact env init s := by
  have hnew : Exact env init
      { executor := init, updates := .new input.batchTimestamp input.protocolVersion } := ⟨[], .nil⟩
  unfold start restoreState at hrun
  split_ifs at hrun
  · cases hrun
    exact hnew
  · obtain ⟨⟨s₁, txIndexInL1Batch⟩, hminiblocks, hrun⟩ := Seq.bind_eq_ok.mp hrun
    cases hrun
    have hrestored : Exact env init s₁ :=
      reexecuteMiniblocks_invariant (P := fun loop => Exact env init loop.1)
        (fun h timestamp => h.pushMiniblock timestamp) (fun h hstep => h.reexecute hstep) hnew
        hminiblocks
    exact hrestored.pushMiniblock input.newTimestamp

theorem Exact.processUpgradeTx (h : Exact env init s) {tx : Transaction}
    (hrun : processUpgradeTx env s tx = .ok s') : Exact env init s' := by
  unfold Sequencer.processUpgradeTx at hrun
  split_ifs at hrun
  obtain ⟨⟨⟨resolution, execResult⟩, s₁⟩, hone, hrun⟩ := Seq.bind_eq_ok.mp hrun
  obtain ⟨executor, hexec, -, rfl, hincluded⟩ := processOneTx_eq hone
  cases execResult with
  | success txResult metrics dryRun =>
    have hincludes : (do
        let updates ← s₁.updates.extendFromExecutedTransaction tx (env.encodedTransactionSize tx)
          txResult metrics
        .ok { s₁ with updates := updates } : Except SequencerPanic (BatchState σ)) = .ok s' →
          Exact env init s' := by
      intro hrun
      obtain ⟨updates, hextend, hrun⟩ := Seq.bind_eq_ok.mp hrun
      cases hrun
      exact h.extend hexec hincluded hextend
    cases resolution with
    | noSeal =>
      dsimp only at hrun
      split_ifs at hrun
      exact hincludes hrun
    | includeAndSeal =>
      dsimp only at hrun
      split_ifs at hrun
      exact hincludes hrun
    | excludeAndSeal => cases hrun
    | unexecutable reason => cases hrun
  | rejectedByVm reason => cases resolution <;> cases hrun
  | bootloaderOutOfGasForTx => cases resolution <;> cases hrun
  | bootloaderOutOfGasForBlockTip => cases resolution <;> cases hrun

/-- The batch when it enters the loop: stored miniblocks and an upgrade are executed. -/
def enterLoop (env : SequencerEnv σ T) (input : BatchInput) (init : σ) :
    Except SequencerPanic (BatchState σ) := do
  let s ← start env input init
  match input.protocolUpgradeTx with
  | some tx => Sequencer.processUpgradeTx env s tx
  | none => .ok s

theorem exact_enterLoop {input : BatchInput} (hrun : enterLoop env input init = .ok s) :
    Exact env init s := by
  unfold enterLoop at hrun
  obtain ⟨s₁, hstart, hrun⟩ := Seq.bind_eq_ok.mp hrun
  cases htx : input.protocolUpgradeTx with
  | none =>
    rw [htx] at hrun
    cases hrun
    exact exact_start hstart
  | some tx =>
    rw [htx] at hrun
    exact (exact_start hstart).processUpgradeTx hrun

theorem runBatch_cases {input : BatchInput} {finished : FinishedBatch T}
    (hrun : runBatch env input init = .ok (some finished)) :
    ∃ s s', enterLoop env input init = .ok s ∧
      Sequencer.processTurns env input.turns s = .ok (true, s') ∧
      finish env input.fictiveMiniblockTimestamp s' = .ok finished := by
  unfold runBatch at hrun
  obtain ⟨s₁, hstart, hrun⟩ := Seq.bind_eq_ok.mp hrun
  obtain ⟨⟨done, s'⟩, hloop, hrun⟩ := Seq.bind_eq_ok.mp hrun
  cases done with
  | false => cases hrun
  | true =>
    obtain ⟨finished', hfinish, hrun⟩ := Seq.bind_eq_ok.mp hrun
    cases hrun
    unfold processL1Batch at hloop
    unfold enterLoop
    cases htx : input.protocolUpgradeTx with
    | none =>
      rw [htx] at hloop
      exact ⟨s₁, s', Seq.bind_eq_ok.mpr ⟨s₁, hstart, rfl⟩, hloop, hfinish⟩
    | some tx =>
      rw [htx] at hloop
      obtain ⟨s₂, hupgrade, hloop⟩ := Seq.bind_eq_ok.mp hloop
      exact ⟨s₂, s', Seq.bind_eq_ok.mpr ⟨s₁, hstart, hupgrade⟩, hloop, hfinish⟩

/-- A finished batch holds the included transactions and the block tip, and nothing else: run
alone and in order from the fresh executor, they give its accesses and traces. -/
def LeavesNoTrace (env : SequencerEnv σ T) (tipQueries : σ → List StorageAccessLog)
    (tipTraces : σ → List T) (init : σ) (finished : FinishedBatch T) : Prop :=
  ∃ results s, Replays env.manager init (finished.updates.l1Batch.executedTransactions.map
      TransactionExecutionResult.transaction) results s ∧
    finished.blockResult.fullResult.storageLogQueries =
      (results.flatMap TxExeResult.storageAccessLogs ++ tipQueries s).map
        StorageAccessLog.intoStorageLogQuery ∧
    finished.txTraces = results.map TxExeResult.trace ++ tipTraces s

/-- The end of a batch: every included transaction is in a sealed miniblock. -/
theorem finish_cases {fictiveMiniblockTimestamp : U64} {finished : FinishedBatch T}
    (hrun : finish env fictiveMiniblockTimestamp s = .ok finished) :
    finished.updates.l1Batch.executedTransactions.map TransactionExecutionResult.transaction =
        s.updates.included ∧
      ∃ result, env.manager.finishBatch s.executor = .ok result ∧
        finished.blockResult.fullResult.storageLogQueries =
          result.storageAccessLogs.map StorageAccessLog.intoStorageLogQuery ∧
        finished.txTraces = result.txTraces := by
  have hsealed : ∀ s₁ : BatchState σ, s₁ = sealLastMiniblock fictiveMiniblockTimestamp s →
      s₁.executor = s.executor ∧
        s₁.updates.l1Batch.executedTransactions.map TransactionExecutionResult.transaction =
          s.updates.included := by
    rintro s₁ rfl
    unfold sealLastMiniblock
    split_ifs with hempty
    · rw [List.isEmpty_iff] at hempty
      simp [UpdatesManager.included, hempty]
    · exact ⟨rfl, rfl⟩
  unfold finish at hrun
  dsimp only at hrun
  generalize hs₁ : sealLastMiniblock fictiveMiniblockTimestamp s = s₁ at hrun
  obtain ⟨hexecutor, hincluded⟩ := hsealed s₁ hs₁.symm
  obtain ⟨⟨blockResult, txTraces⟩, hfinish, hrun⟩ := Seq.bind_eq_ok.mp hrun
  cases hrun
  refine ⟨hincluded, ?_⟩
  unfold BatchExecutor.finishBatch at hfinish
  rw [hexecutor] at hfinish
  cases hresult : env.manager.finishBatch s.executor with
  | error e =>
    rw [hresult] at hfinish
    cases hfinish
  | ok result =>
    rw [hresult] at hfinish
    cases hfinish
    exact ⟨result, rfl, rfl, rfl⟩

/-- In every run of the loop in which each transaction that the executor accepts fits into the
batch, the finished batch holds the included transactions and the block tip, and nothing else. -/
theorem runBatch_leavesNoTrace (env : SequencerEnv σ T) (journal : σ → List (TxExeResult T))
    (tipQueries : σ → List StorageAccessLog) (tipTraces : σ → List T)
    (hmanager : env.manager.Journaled journal tipQueries tipTraces) (init : σ)
    (hinit : journal init = []) (input : BatchInput) (finished : FinishedBatch T)
    (hfit : ∀ s, enterLoop env input init = .ok s → AllFit env input.turns s)
    (hrun : runBatch env input init = .ok (some finished)) :
    LeavesNoTrace env tipQueries tipTraces init finished := by
  obtain ⟨s, s', henter, hloop, hfinish⟩ := runBatch_cases hrun
  obtain ⟨results, hreplay⟩ := (exact_enterLoop henter).processTurns hmanager (hfit s henter) hloop
  obtain ⟨hincluded, result, hresult, hlogs, htraces⟩ := finish_cases hfinish
  obtain ⟨hjournal, htrace⟩ := hmanager.finishBatch_ok hresult
  have hresults : journal s'.executor = results := by
    rw [hreplay.journal_eq hmanager, hinit, List.nil_append]
  refine ⟨results, s'.executor, ?_, ?_, ?_⟩
  · rwa [hincluded]
  · rw [hlogs, hjournal, hresults]
  · rw [htraces, htrace, hresults]

theorem length_replays {manager : BlockExeManager σ T} {t t' : σ} {txs : List Transaction}
    {results : List (TxExeResult T)} (h : Replays manager t txs results t') :
    results.length = txs.length := by
  induction h with
  | nil => rfl
  | snoc _ _ _ ih => rw [List.length_append, List.length_append, ih]; rfl

/-- A manager that accepts every transaction, without storage accesses; the trace is the nonce. -/
def sampleManager : BlockExeManager (List (TxExeResult U64)) U64 where
  invoke s info := (.ok ⟨[], [], info.nonce.getD 0⟩, s ++ [⟨[], [], info.nonce.getD 0⟩])
  finishBatch s := .ok ⟨s.flatMap TxExeResult.storageAccessLogs, s.flatMap TxExeResult.events, [],
    s.map TxExeResult.trace⟩

theorem sampleManager_journaled :
    sampleManager.Journaled id (fun _ => []) (fun _ => []) where
  invoke_error h := by cases h
  invoke_ok h := by
    cases h
    rfl
  finishBatch_ok h := by
    cases h
    simp

/-- The encoded size of a transaction with a signature of 64 bytes and no factory deps, and a
sealer that rejects transactions of more than ten words. -/
def sampleEnv : SequencerEnv (List (TxExeResult U64)) U64 where
  manager := sampleManager
  sealer := ⟨some ⟨250, 10, 1000⟩⟩
  encodedSize _ execute := (39 + execute.calldata.length / 8) * 8 / 32 + 1

def sampleSigned (nonce : Nonce) (calldata : List UInt8) : Transaction :=
  ⟨.l2 ⟨nonce, .zero, List.replicate 64 0, .olaRawTransaction, some ⟨.zero, []⟩⟩,
    ⟨.zero, calldata, none⟩, 0⟩

/-- A batch of the given transactions that is sealed by its deadline. -/
def sampleInput (txs : List Transaction) : BatchInput where
  batchTimestamp := 0
  protocolVersion := 0
  pendingMiniblocks := []
  protocolUpgradeTx := none
  turns := txs.map (fun tx => ⟨false, false, 0, some tx⟩) ++ [⟨true, false, 0, none⟩]
  newTimestamp := 0
  fictiveMiniblockTimestamp := 1

theorem sampleFits {s : BatchState (List (TxExeResult U64))} {tx : Transaction}
    (hsize : sampleEnv.encodedTransactionSize tx ≤ 10)
    (hpending : s.updates.pendingTxsEncodingSize ≤ 1000) : Fits sampleEnv s tx := by
  intro config info result s' hsealer _ _
  cases hsealer
  refine ⟨hsize, ?_⟩
  unfold txEncodingSpace
  omega

/-- Two transactions that fit are included and are all that the batch holds. -/
theorem runBatch_leavesNoTrace_sample : ∃ finished,
    runBatch sampleEnv (sampleInput [sampleSigned 0 [], sampleSigned 1 []]) [] =
      .ok (some finished) ∧ finished.txTraces = [0, 1] ∧
    LeavesNoTrace sampleEnv (fun _ => []) (fun _ => []) [] finished := by
  refine ⟨_, rfl, rfl, runBatch_leavesNoTrace sampleEnv id _ _ sampleManager_journaled [] rfl
    (sampleInput [sampleSigned 0 [], sampleSigned 1 []]) _ ?_ rfl⟩
  intro s henter
  cases henter
  refine ⟨?_, ?_⟩
  · rintro tx - htx
    cases htx
    exact sampleFits (by decide) (by decide)
  rintro s₁ hturn
  cases hturn
  refine ⟨?_, ?_⟩
  · rintro tx - htx
    cases htx
    exact sampleFits (by decide) (by decide)
  rintro s₂ hturn
  cases hturn
  refine ⟨?_, fun s₃ hturn => ?_⟩
  · rintro tx - htx
    cases htx
  · trivial

/-- A transaction whose encoding is too large is rejected, but its execution stays in the batch. -/
theorem runBatch_leavesNoTrace_counterexample : ∃ finished,
    runBatch sampleEnv (sampleInput [sampleSigned 0 [], sampleSigned 1 (List.replicate 32 0)]) [] =
      .ok (some finished) ∧
    finished.updates.l1Batch.executedTransactions.map TransactionExecutionResult.transaction =
      [sampleSigned 0 []] ∧ finished.txTraces = [0, 1] ∧
    ¬ LeavesNoTrace sampleEnv (fun _ => []) (fun _ => []) [] finished := by
  refine ⟨_, rfl, rfl, rfl, ?_⟩
  rintro ⟨results, s, hreplay, -, htraces⟩
  have hone : results.length = 1 := length_replays hreplay
  have htwo : ([0, 1] : List U64) = results.map TxExeResult.trace ++ [] := htraces
  have hlength := congrArg List.length htwo
  rw [List.append_nil, List.length_map, hone] at hlength
  exact absurd hlength (by decide)

end Sequencer

end OlaOs
