import OlaOs.Sequencer.Restart

/-! The transactions of a batch in progress against the rows that are stored of it, and the sizes of
their encodings. -/
namespace OlaOs

open TransactionsDal

/-- The updates in the queue, and those of the batch in progress. -/
def SequencerProcess.line {σ T : Type} (p : SequencerProcess σ T) : List UpdatesManager :=
  p.commands.map Submission.updates ++ p.phase.updates?.toList

namespace UpdatesManager

/-- The executed transactions so far, sealed miniblocks first. -/
def executed (updates : UpdatesManager) : List TransactionExecutionResult :=
  updates.l1Batch.executedTransactions ++ updates.miniblock.executedTransactions

variable {updates updates' : UpdatesManager}

theorem included_eq :
    updates.included = updates.executed.map TransactionExecutionResult.transaction :=
  rfl

theorem length_executed : updates.executed.length = updates.pendingExecutedTransactionsLen :=
  List.length_append

@[simp] theorem executed_pushMiniblock (newMiniblockTimestamp : U64) :
    (updates.pushMiniblock newMiniblockTimestamp).executed = updates.executed := by
  simp [executed, pushMiniblock, L1BatchUpdates.extendFromSealedMiniblock, MiniblockUpdates.new]

theorem executed_extend {T : Type} {tx : Transaction} {size : ℕ} {result : VmTxExeResult T}
    {metrics : ExecutionMetrics}
    (h : updates.extendFromExecutedTransaction tx size result metrics = .ok updates') :
    ∃ e, e.transaction = tx ∧ tx.hash = some e.hash ∧ updates'.executed = updates.executed ++ [e] ∧
      updates'.pendingTxsEncodingSize = updates.pendingTxsEncodingSize + size := by
  obtain ⟨hash, hhash, rfl⟩ := extendFromExecutedTransaction_eq_ok.mp h
  exact ⟨_, rfl, hhash, (List.append_assoc ..).symm, Nat.add_assoc .. |>.symm⟩

end UpdatesManager

namespace Sequencer

variable {σ T : Type} {env : SequencerEnv σ T} {updates updates' : UpdatesManager}

/-- The sum of the sizes of the included transactions. -/
def encodingSize (env : SequencerEnv σ T) (updates : UpdatesManager) : ℕ :=
  (updates.included.map env.encodedTransactionSize).sum

theorem encodingSize_append {e : TransactionExecutionResult}
    (h : updates'.executed = updates.executed ++ [e]) :
    encodingSize env updates' =
      encodingSize env updates + env.encodedTransactionSize e.transaction := by
  unfold encodingSize
  rw [UpdatesManager.included_eq, UpdatesManager.included_eq, h]
  simp

/-- The size that the updates count is that of their transactions, with the hashes of these. -/
structure Recorded (env : SequencerEnv σ T) (updates : UpdatesManager) : Prop where
  size : updates.pendingTxsEncodingSize = encodingSize env updates
  hash : ∀ e ∈ updates.executed, e.transaction.hash = some e.hash

theorem recorded_new (timestamp : U64) (version : ProtocolVersionId) :
    Recorded env (.new timestamp version) :=
  ⟨rfl, nofun⟩

theorem Recorded.push (h : Recorded env updates) (timestamp : U64) :
    Recorded env (updates.pushMiniblock timestamp) where
  size := by
    rw [encodingSize, UpdatesManager.included_pushMiniblock, ← encodingSize, ← h.size]
    rfl
  hash := by
    rw [UpdatesManager.executed_pushMiniblock]
    exact h.hash

theorem kept_recorded : Kept env fun batch => Recorded env batch.updates := by
  intro s s' hs hstep
  cases hstep with
  | included deduplicator _ hextend =>
    obtain ⟨e, rfl, hhash, hexecuted, hsize⟩ := UpdatesManager.executed_extend hextend
    refine ⟨?_, fun e' he' => ?_⟩
    · rw [hsize, encodingSize_append hexecuted]
      exact congrArg (· + env.encodedTransactionSize e.transaction) hs.size
    · rw [hexecuted] at he'
      rcases List.mem_append.mp he' with he' | he'
      · exact hs.hash e' he'
      · cases List.mem_singleton.mp he'
        exact hhash
  | excluded => exact ⟨hs.size, hs.hash⟩
  | sealMiniblock newTimestamp _ => exact hs.push newTimestamp
  | pushMiniblock newTimestamp => exact hs.push newTimestamp

/-- A transaction that is tried, against the limits: it is included within the space, and the batch
stays open with a free slot, or is sealed with at least one transaction. -/
theorem limits_of_processOneTx {config : SequencerConfig}
    (hsealer : env.sealer.conditionalSealer = some config)
    (hreject : config.rejectBound ≤ txEncodingSpace) {s s₁ s' : BatchState σ}
    (hrecorded : Recorded env s.updates) {tx : Transaction} {resolution : SealResolution}
    {execResult : TxExecutionResult T}
    (hone : processOneTx env s tx = .ok ((resolution, execResult), s₁))
    (happly : applyResolution env s₁ tx execResult resolution = .ok s') :
    (∃ e, s'.updates.executed = s.updates.executed ++ [e] ∧
      encodingSize env s'.updates ≤ txEncodingSpace ∧
      (resolution.shouldSeal = false →
        s.updates.executed.length + 1 < config.transactionSlots)) ∨
    (s'.updates.executed = s.updates.executed ∧
      (resolution.shouldSeal = true → s.updates.executed ≠ [])) := by
  have hresolve {txResult : VmTxExeResult T} {metrics : ExecutionMetrics}
      {dryRun : VmPartialExecutionResult} {deduplicator : StorageWritesDeduplicator}
      (h : resolve env s.updates tx (.success txResult metrics dryRun) =
        (resolution, deduplicator)) : ∃ blockData txData,
      ConditionalSealer.shouldSealL1Batch config (s.updates.pendingExecutedTransactionsLen + 1)
        blockData txData = resolution ∧
      blockData.cumulativeSize = env.encodedTransactionSize tx + s.updates.pendingTxsEncodingSize ∧
      txData.cumulativeSize = env.encodedTransactionSize tx := by
    unfold resolve SealManager.shouldSealL1Batch at h
    rw [hsealer] at h
    exact ⟨_, _, (Prod.mk.inj h).1, rfl, rfl⟩
  obtain ⟨deduplicator, hexec, hresolution, ⟨hincludes, txResult, metrics, dryRun, rfl, hextend⟩ |
    ⟨hincludes, hupdates⟩⟩ := processOneTx_includes_cases hone happly
  · left
    obtain ⟨e, rfl, -, hexecuted, -⟩ := UpdatesManager.executed_extend hextend
    obtain ⟨blockData, txData, rfl, hblock, -⟩ := hresolve hresolution
    have hexecuted : s'.updates.executed = s.updates.executed ++ [e] := hexecuted
    refine ⟨e, hexecuted, ?_, fun hopen => ?_⟩
    · have hfits := ((ConditionalSealer.includes_shouldSealL1Batch ..).mp hincludes).2
      have hsize := hrecorded.size
      rw [encodingSize_append hexecuted]
      omega
    · have hnoSeal : ConditionalSealer.shouldSealL1Batch config
          (s.updates.pendingExecutedTransactionsLen + 1) blockData txData = .noSeal := by
        revert hincludes hopen
        generalize ConditionalSealer.shouldSealL1Batch .. = resolution
        cases resolution <;> simp [SealResolution.includes, SealResolution.shouldSeal]
      have hslots := ConditionalSealer.slots_of_noSeal hnoSeal
      rwa [← UpdatesManager.length_executed] at hslots
  · right
    refine ⟨by rw [hupdates]; rfl, fun hseal hnil => ?_⟩
    obtain ⟨info, -, ⟨result, txResult, -, rfl⟩ | ⟨reason, -, rfl⟩⟩ := BatchExecutor.tx_cases hexec
    · obtain ⟨blockData, txData, heq, hblock, htx⟩ := hresolve hresolution
      cases resolution with
      | noSeal => cases hincludes
      | includeAndSeal => cases hincludes
      | unexecutable reason => cases hseal
      | excludeAndSeal =>
        -- alone in its batch the transaction would fit
        obtain ⟨hlarge, hspace⟩ := ConditionalSealer.space_of_excludeAndSeal heq
        have hsize := hrecorded.size
        have hempty : encodingSize env s.updates = 0 := by
          unfold encodingSize
          rw [UpdatesManager.included_eq, hnil]
          rfl
        omega
    · cases hresolution
      cases hseal

/-- The row holds the hash and, if it is read as an L2 transaction, the size of what was
executed. -/
def Stands (env : SequencerEnv σ T) (row : TransactionRow) (e : TransactionExecutionResult) :
    Prop :=
  row.hash = e.hash ∧ ∀ tx : L2Tx, rowToTransaction row = .ok tx.intoTransaction →
    env.encodedTransactionSize tx.intoTransaction = env.encodedTransactionSize e.transaction

/-- The updates fit, and every row without a batch is that of one of their transactions. -/
structure Covers (env : SequencerEnv σ T) (table : List TransactionRow) (updates : UpdatesManager) :
    Prop where
  fits : encodingSize env updates ≤ txEncodingSpace
  stands : ∀ row ∈ table, isPending row = true → ∃ e ∈ updates.executed, Stands env row e

variable {table table' : List TransactionRow}

theorem Covers.descends (h : Covers env table updates) (hdescends : Descends table table') :
    Covers env table' updates := by
  refine ⟨h.fits, fun row' hrow' hpending' => ?_⟩
  obtain ⟨row, hrow, hpending, hhash, -, hread⟩ := hdescends row' hrow' hpending'
  obtain ⟨e, he, heq, hsize⟩ := h.stands row hrow hpending
  exact ⟨e, he, hhash.trans heq, hread ▸ hsize⟩

/-- Later updates of the same batch. -/
theorem Covers.grow (h : Covers env table updates) (hgrow : updates.executed ⊆ updates'.executed)
    (hfits : encodingSize env updates' ≤ txEncodingSpace) : Covers env table updates' := by
  refine ⟨hfits, fun row hrow hpending => ?_⟩
  obtain ⟨e, he, hstands⟩ := h.stands row hrow hpending
  exact ⟨e, hgrow he, hstands⟩

theorem Covers.push (h : Covers env table updates) (timestamp : U64) :
    Covers env table (updates.pushMiniblock timestamp) := by
  refine h.grow (by simp) ?_
  rw [encodingSize, UpdatesManager.included_pushMiniblock]
  exact h.fits

/-- A miniblock of the updates is stored. -/
theorem Covers.mark (h : Covers env table updates) (hrecorded : Recorded env updates)
    {transactions : List TransactionExecutionResult} (hl2 : AllL2 transactions)
    (hsubset : transactions ⊆ updates.executed) {miniblockNumber : ℕ}
    (hmark : markTxsAsExecutedInMiniblock table miniblockNumber transactions = .ok table') :
    Covers env table' updates := by
  refine ⟨h.fits, fun row' hrow' hpending => ?_⟩
  rw [hl2.mark_eq] at hmark
  rw [foldlM_markL2_eq hmark] at hrow'
  obtain ⟨row, hrow, rfl⟩ := List.mem_map.mp hrow'
  rcases foldl_markIfKey_cases (asI32 miniblockNumber) row (executedRows transactions) with
    hsame | ⟨executedRow, hmem, hkey, heq⟩
  · rw [hsame] at hpending ⊢
    exact h.stands row hrow hpending
  · rw [heq]
    obtain ⟨i, e, he, hexecutedRow⟩ := mem_executedRows.mp hmem
    have he := List.mem_of_getElem? he
    obtain ⟨l2Tx, hl2Tx⟩ := hl2 e he
    obtain ⟨-, -, hhash, -⟩ := executedRow_l2 hl2Tx hexecutedRow
    refine ⟨e, hsubset he, hhash, fun tx hread => ?_⟩
    obtain ⟨hdata, hexecute, -⟩ := rowToTransaction_markRow hl2Tx
      (hrecorded.hash e (hsubset he)) hexecutedRow hkey hread
    unfold SequencerEnv.encodedTransactionSize
    rw [hl2Tx, L2Tx.intoTransaction_commonData, L2Tx.intoTransaction_commonData, hdata]
    exact congrArg _ hexecute

/-- The updates of a batch in the order in which they were taken. -/
def Line (env : SequencerEnv σ T) (table : List TransactionRow) (line : List UpdatesManager) :
    Prop :=
  (∀ updates ∈ line, Covers env table updates) ∧
    line.Pairwise fun updates updates' => updates.executed ⊆ updates'.executed

variable {line line' : List UpdatesManager}

theorem Line.nil : Line env table [] := ⟨nofun, .nil⟩

theorem Line.single (h : Covers env table updates) : Line env table [updates] :=
  ⟨by simpa using h, List.pairwise_singleton _ _⟩

theorem Line.sublist (h : Line env table line) (hsub : line'.Sublist line) : Line env table line' :=
  ⟨fun updates hupdates => h.1 updates (hsub.subset hupdates), h.2.sublist hsub⟩

theorem Line.descends (h : Line env table line) (hdescends : Descends table table') :
    Line env table' line :=
  ⟨fun updates hupdates => (h.1 updates hupdates).descends hdescends, h.2⟩

/-- The updates go on from the last ones. -/
theorem Line.concat (h : Line env table (line ++ [updates]))
    (hgrow : updates.executed ⊆ updates'.executed) (hcovers : Covers env table updates') :
    Line env table (line ++ [updates] ++ [updates']) := by
  refine ⟨fun u hu => ?_, List.pairwise_append.mpr ⟨h.2, List.pairwise_singleton _ _, ?_⟩⟩
  · rcases List.mem_append.mp hu with hu | hu
    · exact h.1 u hu
    · cases List.mem_singleton.mp hu
      exact hcovers
  · intro u hu u' hu'
    cases List.mem_singleton.mp hu'
    rcases List.mem_append.mp hu with hu | hu
    · have hlast := (List.pairwise_append.mp h.2).2.2 u hu updates (List.mem_singleton_self _)
      exact List.Subset.trans hlast hgrow
    · cases List.mem_singleton.mp hu
      exact hgrow

theorem Line.replace (h : Line env table (line ++ [updates]))
    (hgrow : updates.executed ⊆ updates'.executed) (hcovers : Covers env table updates') :
    Line env table (line ++ [updates']) := by
  refine (h.concat hgrow hcovers).sublist ?_
  rw [List.append_assoc]
  exact (List.Sublist.refl _).append (List.sublist_append_right _ _)

theorem included_foldlM_reexecute {s : BatchState σ} {txs : List Transaction} {index : U32}
    {loop : BatchState σ × U32} (h : txs.foldlM (reexecute env) (s, index) = .ok loop) :
    loop.1.updates.included = s.updates.included ++ txs := by
  induction txs generalizing s index with
  | nil =>
    cases h
    exact (List.append_nil _).symm
  | cons tx txs ih =>
    rw [List.foldlM_cons] at h
    obtain ⟨⟨s₁, index₁⟩, hone, hrest⟩ := Seq.bind_eq_ok.mp h
    rw [ih hrest]
    unfold reexecute at hone
    obtain ⟨⟨execResult, executor⟩, -, hone⟩ := Seq.bind_eq_ok.mp hone
    cases execResult with
    | success txResult metrics dryRun =>
      obtain ⟨updates, hextend, hone⟩ := Seq.bind_eq_ok.mp hone
      cases hone
      rw [UpdatesManager.included_extend hextend, List.append_assoc]
      rfl
    | rejectedByVm reason => cases hone
    | bootloaderOutOfGasForTx => cases hone
    | bootloaderOutOfGasForBlockTip => cases hone

/-- Restoring includes all transactions that are executed again. -/
theorem included_reexecuteMiniblocks {s : BatchState σ} {first : Bool}
    {miniblocks : List MiniblockReexecuteData} {index : U32} {loop : BatchState σ × U32}
    (h : reexecuteMiniblocks env first miniblocks (s, index) = .ok loop) :
    loop.1.updates.included =
      s.updates.included ++ miniblocks.flatMap MiniblockReexecuteData.txs := by
  induction miniblocks generalizing s index first with
  | nil =>
    cases h
    exact (List.append_nil _).symm
  | cons miniblock miniblocks ih =>
    unfold reexecuteMiniblocks at h
    obtain ⟨⟨s₁, index₁⟩, hone, hrest⟩ := Seq.bind_eq_ok.mp h
    rw [ih hrest, included_foldlM_reexecute hone, List.flatMap_cons, List.append_assoc]
    cases first with
    | true => rfl
    | false => exact congrArg (· ++ _) (UpdatesManager.included_pushMiniblock _)

end Sequencer

end OlaOs
