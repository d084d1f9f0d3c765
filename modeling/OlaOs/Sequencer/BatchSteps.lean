import OlaOs.Sequencer.Inclusion

/-! What a step of a batch can do, for the invariants of whole batches. -/
namespace OlaOs

namespace UpdatesManager

variable {updates updates' : UpdatesManager}

/-- What an executed transaction adds. -/
theorem extendFromExecutedTransaction_eq_ok {T : Type} {tx : Transaction} {size : ℕ}
    {result : VmTxExeResult T} {metrics : ExecutionMetrics} :
    updates.extendFromExecutedTransaction tx size result metrics = .ok updates' ↔
      ∃ hash, tx.hash = some hash ∧ updates' = { updates with
        storageWritesDeduplicator :=
          updates.storageWritesDeduplicator.apply result.result.storageLogs
        miniblock := { updates.miniblock with
          events := updates.miniblock.events ++ result.result.events
          storageLogs := updates.miniblock.storageLogs ++ result.result.storageLogs
          blockExecutionMetrics := updates.miniblock.blockExecutionMetrics + metrics
          txsEncodingSize := updates.miniblock.txsEncodingSize + size
          executedTransactions := updates.miniblock.executedTransactions ++
            [⟨tx, hash, metrics, result.status, result.result.revertReason⟩] } } := by
  unfold extendFromExecutedTransaction MiniblockUpdates.extendFromExecutedTransaction
  cases hhash : tx.hash with
  | none => exact ⟨nofun, nofun⟩
  | some hash =>
    constructor
    · intro h
      cases h
      exact ⟨hash, rfl, rfl⟩
    · rintro ⟨_, heq, rfl⟩
      cases heq
      rfl

@[simp] theorem pendingExecutedTransactionsLen_new (batchTimestamp : U64)
    (protocolVersion : ProtocolVersionId) :
    (new batchTimestamp protocolVersion).pendingExecutedTransactionsLen = 0 := rfl

@[simp] theorem pendingExecutedTransactionsLen_pushMiniblock (newMiniblockTimestamp : U64) :
    (updates.pushMiniblock newMiniblockTimestamp).pendingExecutedTransactionsLen =
      updates.pendingExecutedTransactionsLen := by
  simp [pendingExecutedTransactionsLen, pushMiniblock, L1BatchUpdates.extendFromSealedMiniblock,
    MiniblockUpdates.new]

end UpdatesManager

namespace Sequencer

variable {σ T : Type} {env : SequencerEnv σ T}

/-- One step of a batch: a transaction is executed and included, or executed and not included, the
miniblock is sealed, or a new one is started while the batch is restored. -/
inductive Stepped (env : SequencerEnv σ T) : BatchState σ → BatchState σ → Prop where
  | included {s : BatchState σ} {tx : Transaction} {txResult : VmTxExeResult T}
      {metrics : ExecutionMetrics} {dryRun : VmPartialExecutionResult} {executor : σ}
      {updates : UpdatesManager} (deduplicator : StorageWritesDeduplicator) :
      BatchExecutor.tx env.manager s.executor tx
        (Fin.ofNat _ s.updates.pendingExecutedTransactionsLen) =
          .ok (.success txResult metrics dryRun, executor) →
      { s.updates with
        storageWritesDeduplicator := deduplicator }.extendFromExecutedTransaction tx
          (env.encodedTransactionSize tx) txResult metrics = .ok updates →
      Stepped env s { s with
        executor := executor
        updates := updates
        executions := s.executions ++
          [⟨tx, Fin.ofNat _ s.updates.pendingExecutedTransactionsLen, txResult.result⟩] }
  | excluded {s : BatchState σ} (executor : σ) (deduplicator : StorageWritesDeduplicator)
      (call : IoCall) (executions : List Execution) : (∀ updates, call ≠ .sealMiniblock updates) →
      Stepped env s {
        executor := executor
        updates := { s.updates with storageWritesDeduplicator := deduplicator }
        io := s.io ++ [call]
        executions := s.executions ++ executions }
  | sealMiniblock {s : BatchState σ} (newTimestamp : U64) :
      s.updates.miniblock.executedTransactions ≠ [] →
      Stepped env s (Sequencer.sealMiniblock newTimestamp s)
  | pushMiniblock {s : BatchState σ} (newTimestamp : U64) :
      Stepped env s { s with updates := s.updates.pushMiniblock newTimestamp }

/-- A property of batches that every step keeps. -/
def Kept (env : SequencerEnv σ T) (inv : BatchState σ → Prop) : Prop :=
  ∀ {s s' : BatchState σ}, inv s → Stepped env s s' → inv s'

variable {s s' : BatchState σ} {inv : BatchState σ → Prop}

theorem Kept.startTurn (h : Kept env inv) (hs : inv s) (turn : Turn) :
    inv (startTurn turn s) := by
  unfold Sequencer.startTurn
  split_ifs with hseal
  · refine h hs (.sealMiniblock turn.newTimestamp ?_)
    unfold shouldSealMiniblock at hseal
    rw [Bool.and_eq_true, Bool.not_eq_true', List.isEmpty_eq_false_iff] at hseal
    exact hseal.1
  · exact hs

/-- What a turn does with the transaction that it executes. -/
theorem stepped_processOneTx {tx : Transaction} {resolution : SealResolution}
    {execResult : TxExecutionResult T} {s₁ : BatchState σ}
    (hone : processOneTx env s tx = .ok ((resolution, execResult), s₁))
    (happly : applyResolution env s₁ tx execResult resolution = .ok s') : Stepped env s s' := by
  obtain ⟨executor, deduplicator, hexec, -, rfl⟩ := processOneTx_cases hone
  have hincluded : applyResolution env { s with
        executor := executor
        updates := { s.updates with storageWritesDeduplicator := deduplicator }
        executions := s.executions ++
          execution tx (Fin.ofNat _ s.updates.pendingExecutedTransactionsLen) execResult }
      tx execResult .noSeal = .ok s' → Stepped env s s' := by
    intro happly
    cases execResult with
    | success txResult metrics dryRun =>
      obtain ⟨updates, hextend, happly⟩ := Seq.bind_eq_ok.mp happly
      cases happly
      exact .included deduplicator hexec hextend
    | rejectedByVm reason => cases happly
    | bootloaderOutOfGasForTx => cases happly
    | bootloaderOutOfGasForBlockTip => cases happly
  cases resolution with
  | noSeal => exact hincluded happly
  | includeAndSeal => exact hincluded happly
  | excludeAndSeal =>
    cases happly
    exact .excluded executor deduplicator _ _ nofun
  | unexecutable reason =>
    cases happly
    exact .excluded executor deduplicator _ _ nofun

/-- A transaction is included with its result, or only the write counter changes. -/
theorem processOneTx_includes_cases {tx : Transaction} {resolution : SealResolution}
    {execResult : TxExecutionResult T} {s₁ : BatchState σ}
    (hone : processOneTx env s tx = .ok ((resolution, execResult), s₁))
    (happly : applyResolution env s₁ tx execResult resolution = .ok s') :
    ∃ deduplicator, BatchExecutor.tx env.manager s.executor tx
        (Fin.ofNat _ s.updates.pendingExecutedTransactionsLen) = .ok (execResult, s'.executor) ∧
      resolve env s.updates tx execResult = (resolution, deduplicator) ∧
      ((resolution.includes = true ∧ ∃ txResult metrics dryRun,
          execResult = .success txResult metrics dryRun ∧
          { s.updates with
            storageWritesDeduplicator := deduplicator }.extendFromExecutedTransaction tx
              (env.encodedTransactionSize tx) txResult metrics = .ok s'.updates) ∨
        (resolution.includes = false ∧
          s'.updates = { s.updates with storageWritesDeduplicator := deduplicator })) := by
  obtain ⟨executor, deduplicator, hexec, hresolve, rfl⟩ := processOneTx_cases hone
  have hincluded (happly : applyResolution env { s with
        executor := executor
        updates := { s.updates with storageWritesDeduplicator := deduplicator }
        executions := s.executions ++
          execution tx (Fin.ofNat _ s.updates.pendingExecutedTransactionsLen) execResult }
      tx execResult .noSeal = .ok s') : s'.executor = executor ∧
        ∃ txResult metrics dryRun, execResult = .success txResult metrics dryRun ∧
          { s.updates with
            storageWritesDeduplicator := deduplicator }.extendFromExecutedTransaction tx
              (env.encodedTransactionSize tx) txResult metrics = .ok s'.updates := by
    cases execResult with
    | success txResult metrics dryRun =>
      obtain ⟨updates, hextend, happly⟩ := Seq.bind_eq_ok.mp happly
      cases happly
      exact ⟨rfl, txResult, metrics, dryRun, rfl, hextend⟩
    | rejectedByVm reason => cases happly
    | bootloaderOutOfGasForTx => cases happly
    | bootloaderOutOfGasForBlockTip => cases happly
  cases resolution with
  | noSeal =>
    obtain ⟨hexecutor, hextend⟩ := hincluded happly
    exact ⟨deduplicator, hexecutor ▸ hexec, hresolve, .inl ⟨rfl, hextend⟩⟩
  | includeAndSeal =>
    obtain ⟨hexecutor, hextend⟩ := hincluded happly
    exact ⟨deduplicator, hexecutor ▸ hexec, hresolve, .inl ⟨rfl, hextend⟩⟩
  | excludeAndSeal =>
    cases happly
    exact ⟨deduplicator, hexec, hresolve, .inr ⟨rfl, rfl⟩⟩
  | unexecutable reason =>
    cases happly
    exact ⟨deduplicator, hexec, hresolve, .inr ⟨rfl, rfl⟩⟩

theorem Kept.processTurn (h : Kept env inv) (hs : inv s) {turn : Turn} {done : Bool}
    (hrun : processTurn env turn s = .ok (done, s')) : inv s' := by
  unfold Sequencer.processTurn at hrun
  split_ifs at hrun
  · cases hrun
    exact hs
  · cases htx : turn.nextTx with
    | none =>
      rw [htx] at hrun
      cases hrun
      exact h.startTurn hs turn
    | some tx =>
      rw [htx] at hrun
      obtain ⟨⟨⟨resolution, execResult⟩, s₁⟩, hone, hrun⟩ := Seq.bind_eq_ok.mp hrun
      obtain ⟨s₂, happly, hrun⟩ := Seq.bind_eq_ok.mp hrun
      cases hrun
      exact h (h.startTurn hs turn) (stepped_processOneTx hone happly)

theorem Kept.processTurns (h : Kept env inv) {turns : List Turn} (hs : inv s) {done : Bool}
    (hrun : processTurns env turns s = .ok (done, s')) : inv s' := by
  induction turns generalizing s with
  | nil =>
    cases hrun
    exact hs
  | cons turn turns ih =>
    unfold Sequencer.processTurns at hrun
    obtain ⟨⟨done₁, s₁⟩, hturn, hrun⟩ := Seq.bind_eq_ok.mp hrun
    have hs₁ := h.processTurn hs hturn
    cases done₁ with
    | true =>
      cases hrun
      exact hs₁
    | false => exact ih hs₁ hrun

theorem Kept.processUpgradeTx (h : Kept env inv) (hs : inv s) {tx : Transaction}
    (hrun : processUpgradeTx env s tx = .ok s') : inv s' := by
  unfold Sequencer.processUpgradeTx at hrun
  split_ifs at hrun
  obtain ⟨⟨⟨resolution, execResult⟩, s₁⟩, hone, hrun⟩ := Seq.bind_eq_ok.mp hrun
  cases execResult with
  | success txResult metrics dryRun =>
    cases resolution with
    | noSeal =>
      dsimp only at hrun
      split_ifs at hrun
      exact h hs (stepped_processOneTx hone hrun)
    | includeAndSeal =>
      dsimp only at hrun
      split_ifs at hrun
      exact h hs (stepped_processOneTx hone hrun)
    | excludeAndSeal => cases hrun
    | unexecutable reason => cases hrun
  | rejectedByVm reason => cases resolution <;> cases hrun
  | bootloaderOutOfGasForTx => cases resolution <;> cases hrun
  | bootloaderOutOfGasForBlockTip => cases resolution <;> cases hrun

theorem Kept.processL1Batch (h : Kept env inv) (hs : inv s) {protocolUpgradeTx : Option Transaction}
    {turns : List Turn} {done : Bool}
    (hrun : processL1Batch env s protocolUpgradeTx turns = .ok (done, s')) : inv s' := by
  unfold Sequencer.processL1Batch at hrun
  cases protocolUpgradeTx with
  | none => exact h.processTurns hs hrun
  | some tx =>
    obtain ⟨s₁, hupgrade, hrun⟩ := Seq.bind_eq_ok.mp hrun
    exact h.processTurns (h.processUpgradeTx hs hupgrade) hrun

/-- A transaction that is executed again is executed at the next index. -/
theorem reexecute_cases {index : U32} {tx : Transaction} {loop : BatchState σ × U32}
    (hindex : index = Fin.ofNat _ s.updates.pendingExecutedTransactionsLen)
    (hrun : reexecute env (s, index) tx = .ok loop) : Stepped env s loop.1 ∧
      loop.2 = Fin.ofNat _ loop.1.updates.pendingExecutedTransactionsLen := by
  unfold reexecute at hrun
  obtain ⟨⟨execResult, executor⟩, hexec, hrun⟩ := Seq.bind_eq_ok.mp hrun
  cases execResult with
  | success txResult metrics dryRun =>
    obtain ⟨updates, hextend, hrun⟩ := Seq.bind_eq_ok.mp hrun
    cases hrun
    subst hindex
    refine ⟨.included s.updates.storageWritesDeduplicator hexec hextend, ?_⟩
    obtain ⟨hash, -, rfl⟩ := UpdatesManager.extendFromExecutedTransaction_eq_ok.mp hextend
    apply Fin.ext
    simp [UpdatesManager.pendingExecutedTransactionsLen, Fin.val_add, ← Nat.add_assoc]
  | rejectedByVm reason => cases hrun
  | bootloaderOutOfGasForTx => cases hrun
  | bootloaderOutOfGasForBlockTip => cases hrun

/-- The stored miniblocks of a batch that was empty; the index counts its transactions. -/
theorem Kept.reexecuteMiniblocks (h : Kept env inv) {miniblocks : List MiniblockReexecuteData}
    {index : U32} (hs : inv s) (hempty : s.updates.pendingExecutedTransactionsLen = 0)
    (hrun : reexecuteMiniblocks env true miniblocks (s, 0) = .ok (s', index)) :
    inv s' ∧ index = Fin.ofNat _ s'.updates.pendingExecutedTransactionsLen :=
  reexecuteMiniblocks_invariant (P := fun loop => inv loop.1 ∧
      loop.2 = Fin.ofNat _ loop.1.updates.pendingExecutedTransactionsLen)
    (fun hloop timestamp => ⟨h hloop.1 (.pushMiniblock timestamp), by simpa using hloop.2⟩)
    (fun hloop hone => by
      obtain ⟨hstep, hindex⟩ := reexecute_cases hloop.2 hone
      exact ⟨h hloop.1 hstep, hindex⟩)
    ⟨hs, by rw [hempty]; rfl⟩ hrun

theorem Kept.start (h : Kept env inv) {input : BatchInput} {init : σ}
    (hs : inv { executor := init, updates := .new input.batchTimestamp input.protocolVersion })
    (hrun : start env input init = .ok s) : inv s := by
  unfold Sequencer.start restoreState at hrun
  split_ifs at hrun
  · cases hrun
    exact hs
  · obtain ⟨⟨s₁, txIndexInL1Batch⟩, hminiblocks, hrun⟩ := Seq.bind_eq_ok.mp hrun
    cases hrun
    exact h (h.reexecuteMiniblocks hs rfl hminiblocks).1 (.pushMiniblock input.newTimestamp)

theorem Kept.sealLastMiniblock (h : Kept env inv) (hs : inv s) (fictiveMiniblockTimestamp : U64) :
    inv (sealLastMiniblock fictiveMiniblockTimestamp s) := by
  unfold Sequencer.sealLastMiniblock
  split_ifs with hempty
  · exact hs
  · exact h hs (.sealMiniblock fictiveMiniblockTimestamp fun hnil => hempty (by rw [hnil]; rfl))

/-- What stays when the last miniblock is sealed; no transaction is left in the current one. -/
theorem sealLastMiniblock_spec (fictiveMiniblockTimestamp : U64) (s : BatchState σ) :
    (sealLastMiniblock fictiveMiniblockTimestamp s).updates.miniblock.executedTransactions = [] ∧
      (sealLastMiniblock fictiveMiniblockTimestamp s).updates.pendingExecutedTransactionsLen =
        s.updates.pendingExecutedTransactionsLen ∧
      (sealLastMiniblock fictiveMiniblockTimestamp s).executions = s.executions := by
  unfold sealLastMiniblock
  split_ifs with hempty
  · exact ⟨List.isEmpty_iff.mp hempty, rfl, rfl⟩
  · exact ⟨rfl, UpdatesManager.pendingExecutedTransactionsLen_pushMiniblock _, rfl⟩

end Sequencer

end OlaOs
