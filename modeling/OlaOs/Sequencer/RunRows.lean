import OlaOs.Sequencer.RunSteps

/-! The `transactions` table along a run. -/
namespace OlaOs

open TransactionsDal

/-- The number of a miniblock in a row is that of a mark that did not fail. -/
def TransactionRow.InRange (row : TransactionRow) : Prop :=
  ∀ number, row.miniblockNumber = some number → 0 ≤ number ∧ number < 2 ^ 31

variable {table table' : List TransactionRow}

theorem Edited.inRange (h : Edited table table') (hrange : ∀ row ∈ table, row.InRange) :
    ∀ row ∈ table', row.InRange := by
  intro row' hrow'
  cases h with
  | flagged inMempool error _ =>
    obtain ⟨row, hrow, rfl⟩ := List.mem_map.mp hrow'
    exact hrange row hrow
  | deleted stays _ => exact hrange row' (List.mem_of_mem_filter hrow')
  | replaced hash input tx _ _ =>
    obtain ⟨row, hrow, rfl⟩ := List.mem_map.mp hrow'
    split_ifs
    · exact hrange row hrow
    · exact hrange row hrow
  | added hash input tx _ _ =>
    rcases List.mem_append.mp hrow' with hrow | hnew
    · exact hrange row' hrow
    · cases List.mem_singleton.mp hnew
      exact nofun

theorem asI32_lt (n : ℕ) : asI32 n < 2 ^ 31 := by
  unfold asI32
  have h := Int.bmod_lt (x := n) (m := 2 ^ 32) (by decide)
  norm_num at h ⊢
  exact h

theorem inRange_markTxsAsExecutedInMiniblock {miniblockNumber : ℕ}
    {transactions : List TransactionExecutionResult} (hrange : ∀ row ∈ table, row.InRange)
    (hl2 : AllL2 transactions)
    (h : markTxsAsExecutedInMiniblock table miniblockNumber transactions = .ok table') :
    ∀ row ∈ table', row.InRange := by
  rw [hl2.mark_eq] at h
  generalize executedRows transactions = executed at h
  induction executed generalizing table with
  | nil =>
    cases h
    exact hrange
  | cons e executed ih =>
    rw [List.foldlM_cons] at h
    obtain ⟨table₁, hone, hrest⟩ := Seq.bind_eq_ok.mp h
    refine ih ?_ hrest
    unfold markL2 at hone
    dsimp only at hone
    split_ifs at hone with hany htaken hnumber
    · cases hone
      intro row' hrow'
      obtain ⟨row, hrow, rfl⟩ := List.mem_map.mp hrow'
      split_ifs
      · intro number heq
        obtain rfl : asI32 miniblockNumber = number := Option.some.inj heq
        have hlt := asI32_lt miniblockNumber
        omega
      · exact hrange row hrow
    · cases hone
      exact hrange

namespace Sequencer

variable {σ T : Type} {env : SequencerEnv σ T}

/-- Only L2 transactions are executed. -/
def OnlyL2 (updates : UpdatesManager) : Prop :=
  AllL2 updates.l1Batch.executedTransactions ∧ AllL2 updates.miniblock.executedTransactions

theorem intoTransaction_of_tx {s s' : σ} {transaction : Transaction} {index : U32}
    {result : TxExecutionResult T}
    (h : BatchExecutor.tx env.manager s transaction index = .ok (result, s')) :
    ∃ tx : L2Tx, transaction = tx.intoTransaction := by
  unfold BatchExecutor.tx BatchExecutor.tapeInitInfo at h
  obtain ⟨commonData, execute, receivedTimestampMs⟩ := transaction
  cases commonData with
  | l2 data => exact ⟨⟨execute, data, receivedTimestampMs⟩, rfl⟩
  | protocolUpgrade data =>
    obtain ⟨info, hinfo, -⟩ := Seq.bind_eq_ok.mp h
    cases hinfo

theorem onlyL2_new (timestamp : U64) (version : ProtocolVersionId) :
    OnlyL2 (.new timestamp version) :=
  ⟨nofun, nofun⟩

theorem kept_onlyL2 : Kept env fun batch => OnlyL2 batch.updates := by
  have hpush {updates : UpdatesManager} (h : OnlyL2 updates) (timestamp : U64) :
      OnlyL2 (updates.pushMiniblock timestamp) :=
    ⟨fun result hresult => (List.mem_append.mp hresult).elim (h.1 result) (h.2 result), nofun⟩
  intro s s' hs hstep
  cases hstep with
  | included deduplicator hexec hextend =>
    obtain ⟨hash, -, rfl⟩ := UpdatesManager.extendFromExecutedTransaction_eq_ok.mp hextend
    refine ⟨hs.1, fun result hresult => ?_⟩
    rcases List.mem_append.mp hresult with hresult | hresult
    · exact hs.2 result hresult
    · cases List.mem_singleton.mp hresult
      exact intoTransaction_of_tx hexec
  | excluded => exact hs
  | sealMiniblock newTimestamp _ => exact hpush hs newTimestamp
  | pushMiniblock newTimestamp => exact hpush hs newTimestamp

end Sequencer

namespace RunState

variable {σ T : Type} {env : SequencerEnv σ T} {s s' : RunState σ T}

theorem edited_execute (hapart : table.Pairwise Apart) {statement : TableStatement}
    (h : execute table statement = some table') : Edited table table' := by
  cases statement with
  | submitTx tx =>
    obtain ⟨⟨result, table₁⟩, hinsert, rfl⟩ := Option.map_eq_some_iff.mp h
    exact edited_insertTransactionL2 hapart (Seq.toOption_eq_some.mp hinsert)
  | removeStuckTxs since =>
    cases h
    exact edited_removeStuckTxs since
  | resetMempool =>
    cases h
    exact edited_resetMempool
  | releaseStashed stashedAccounts =>
    cases h
    exact edited_releaseStashed stashedAccounts
  | deletePurged purgedAccounts =>
    cases h
    exact edited_deletePurged purgedAccounts
  | selectRows scan limit =>
    unfold execute at h
    dsimp only at h
    split_ifs at h with hscan
    cases h
    exact edited_selectRows hapart (List.isPerm_iff.mp hscan) limit

theorem edited_markRejected (tx : Transaction) (resolution : SealResolution) :
    Edited table (markRejected table tx resolution) := by
  cases resolution with
  | unexecutable reason =>
    unfold markRejected
    dsimp only
    split
    · exact edited_markTxAsRejected _ _
    · exact .refl table
  | noSeal => exact .refl table
  | includeAndSeal => exact .refl table
  | excludeAndSeal => exact .refl table

/-- The keys of the table, and what the executor supports. -/
structure RowsInv (s : RunState σ T) : Prop where
  apart : s.tables.transactions.Pairwise Apart
  inRange : ∀ row ∈ s.tables.transactions, row.InRange
  onlyL2 : Managers Sequencer.OnlyL2 s

theorem rowsInv_initial (h : s.Initial) : RowsInv s where
  apart := h.apart
  inRange row hrow := by
    unfold TransactionRow.InRange
    rw [(h.transactions row hrow).1]
    exact nofun
  onlyL2 := by
    refine ⟨?_, ?_, ?_⟩
    · rw [h.stored]
      exact nofun
    · rw [h.process]
      exact nofun
    · rw [h.process]
      exact nofun

theorem insertMiniblock_transactions {t t' : SequencerTables} {row : MiniblockHeaderRow}
    (h : t.insertMiniblock row = .ok t') : t'.transactions = t.transactions := by
  unfold SequencerTables.insertMiniblock at h
  split_ifs at h
  cases h
  rfl

/-- The tables after a batch is sealed. -/
theorem insertBatch_eq_ok {p : SequencerProcess σ T} {params : L1BatchParams}
    {updates : UpdatesManager} {prevTimestamp : U64} {tables : SequencerTables}
    (h : s.insertBatch p params updates prevTimestamp = .ok tables) :
    prevTimestamp < params.blockTimestamp ∧
      (∀ row ∈ s.tables.miniblocks, row.number ≠ p.currentMiniblockNumber) ∧
      (∀ row ∈ s.tables.l1Batches, row.number ≠ p.currentL1BatchNumber) ∧
      tables = {
        miniblocks := (s.tables.miniblocks ++ [(updates.sealMiniblockCommand
            p.currentL1BatchNumber p.currentMiniblockNumber).header]).map
          (·.markBatch p.currentL1BatchNumber)
        l1Batches := s.tables.l1Batches ++ [⟨p.currentL1BatchNumber, params.blockTimestamp⟩]
        transactions := markTxsAsExecutedInL1Batch s.tables.transactions p.currentL1BatchNumber
          updates.l1Batch.executedTransactions } := by
  unfold insertBatch at h
  obtain ⟨tables₁, hminiblock, h⟩ := Seq.bind_eq_ok.mp h
  dsimp only at h
  split_ifs at h with hlt
  obtain ⟨tables₂, hbatch, h⟩ := Seq.bind_eq_ok.mp h
  have hminiblock := mapError_eq_ok.mp hminiblock
  have hbatch := mapError_eq_ok.mp hbatch
  unfold SequencerTables.insertMiniblock at hminiblock
  split_ifs at hminiblock with hmtaken
  cases hminiblock
  unfold SequencerTables.insertL1Batch at hbatch
  split_ifs at hbatch with hbtaken
  cases hbatch
  cases h
  refine ⟨hlt, fun row hrow heq => hmtaken ?_, fun row hrow heq => hbtaken ?_, rfl⟩
  · exact List.any_eq_true.mpr ⟨row, hrow, decide_eq_true heq⟩
  · exact List.any_eq_true.mpr ⟨row, hrow, decide_eq_true heq⟩

theorem RowsInv.step (h : RowsInv s) {action : RunAction σ}
    (hstep : s.step env action = some s') : RowsInv s' := by
  have honlyL2 := h.onlyL2.step Sequencer.onlyL2_new Sequencer.kept_onlyL2 hstep
  -- the marks of executed transactions apart, a step edits the table or leaves it
  have hedited {table' : List TransactionRow} (hedit : Edited s.tables.transactions table') :
      table'.Pairwise Apart ∧ ∀ row ∈ table', row.InRange :=
    ⟨hedit.apart h.apart, hedit.inRange h.inRange⟩
  have hrows : s'.tables.transactions.Pairwise Apart ∧
      ∀ row ∈ s'.tables.transactions, row.InRange := by
    refine step_invariant (fun s' => s'.tables.transactions.Pairwise Apart ∧
      ∀ row ∈ s'.tables.transactions, row.InRange) (fun hmoved => ?_)
      (fun _ _ => hedited (.refl _)) hstep
    cases hmoved with
    | tried hp hphase hone happly => exact hedited (edited_markRejected _ _)
    | statement hexecute => exact hedited (edited_execute h.apart hexecute)
    | sealedBatch hp hphase hcommands hprev htables =>
      obtain ⟨-, -, -, rfl⟩ := insertBatch_eq_ok htables
      refine ⟨pairwise_apart_markTxsAsExecutedInL1Batch h.apart _ _, fun row' hrow' => ?_⟩
      obtain ⟨row, hrow, rfl⟩ := List.mem_map.mp hrow'
      split_ifs
      · exact h.inRange row hrow
      · exact h.inRange row hrow
    | wroteMiniblock hp hcommands hinsert hmark =>
      have hl2 := (h.onlyL2.commands _ hp _ (by rw [hcommands]; exact List.mem_cons_self)).2
      rw [insertMiniblock_transactions hinsert] at hmark
      exact ⟨pairwise_apart_markTxsAsExecutedInMiniblock h.apart hl2 hmark,
        inRange_markTxsAsExecutedInMiniblock h.inRange hl2 hmark⟩
    | started => exact hedited (.refl _)
    | restored => exact hedited (.refl _)
    | newBatch => exact hedited (.refl _)
    | deadlinePassed => exact hedited (.refl _)
    | unchanged => exact hedited (.refl _)
    | sealedMiniblock => exact hedited (.refl _)
    | finished => exact hedited (.refl _)
    | finishedMiniblock => exact hedited (.refl _)
    | stoppedFinishing => exact hedited (.refl _)
    | stopped => exact hedited (.refl _)
    | crashed => exact hedited (.refl _)
  exact ⟨hrows.1, hrows.2, honlyL2⟩

end RunState

end OlaOs
