import OlaOs.Sequencer.Coverage

/-! The limits of batches along a run: their transactions against the slots, and the sizes of their
encodings against the encoding space. -/
namespace OlaOs

open TransactionsDal

/-- An open batch has a free slot, one that ends has a transaction, and no miniblock is open in
`seal_l1_batch`. -/
def Phase.Within {σ T : Type} (transactionSlots : ℕ) : Phase σ T → Prop
  | .waiting _ | .stopped => True
  | .processing _ batch => batch.updates.executed.length < transactionSlots
  | .finishing _ batch =>
    batch.updates.executed ≠ [] ∧ batch.updates.executed.length ≤ transactionSlots
  | .sealing _ finished =>
    (finished.updates.executed ≠ [] ∧ finished.updates.executed.length ≤ transactionSlots) ∧
      finished.updates.miniblock.executedTransactions = []

namespace RunState

open Sequencer

variable {σ T : Type} {env : SequencerEnv σ T} {s s' : RunState σ T} {p : SequencerProcess σ T}
  {slots : ℕ}

/-- The batch in progress, the stored rows and the limits. -/
structure LimitsInv (env : SequencerEnv σ T) (slots : ℕ) (s : RunState σ T) : Prop where
  recorded : Managers (Recorded env) s
  numbered : PendingStored s.tables.transactions s.tables.miniblocks
  stored : ∀ updates, s.stored = some updates → Covers env s.tables.transactions updates
  free : s.stored = none → ∀ row ∈ s.tables.transactions, isPending row = false
  line : ∀ p, s.process = some p → Line env s.tables.transactions p.line
  phase : ∀ p, s.process = some p → p.phase.Within slots

theorem limitsInv_initial (h : s.Initial) : LimitsInv env slots s where
  recorded := by
    refine ⟨?_, ?_, ?_⟩
    · rw [h.stored]
      exact nofun
    · rw [h.process]
      exact nofun
    · rw [h.process]
      exact nofun
  numbered row hrow hpending := by
    rw [isPending_eq_false (h.transactions row hrow).1] at hpending
    cases hpending
  stored := by
    rw [h.stored]
    exact nofun
  free _ row hrow := isPending_eq_false (h.transactions row hrow).1
  line := by
    rw [h.process]
    exact nofun
  phase := by
    rw [h.process]
    exact nofun

theorem LimitsInv.atPhase (h : LimitsInv env slots s) {phase : Phase σ T}
    (hrecorded : Managers (Recorded env) (s.atPhase p phase))
    (hline : Line env s.tables.transactions
      (p.commands.map Submission.updates ++ phase.updates?.toList))
    (hphase : phase.Within slots) : LimitsInv env slots (s.atPhase p phase) where
  recorded := hrecorded
  numbered := h.numbered
  stored := h.stored
  free := h.free
  line p' hp' := by
    cases hp'
    exact hline
  phase p' hp' := by
    cases hp'
    exact hphase

theorem LimitsInv.down (h : LimitsInv env slots s) (panic : Option RunPanic) :
    LimitsInv env slots (s.down panic) :=
  ⟨h.recorded.down panic, h.numbered, h.stored, h.free, nofun, nofun⟩

/-- The other components change the `transactions` table. -/
theorem LimitsInv.edit (h : LimitsInv env slots s) {table : List TransactionRow}
    (hdescends : Descends s.tables.transactions table) :
    LimitsInv env slots { s with tables := { s.tables with transactions := table } } where
  recorded := ⟨h.recorded.stored, h.recorded.commands, h.recorded.phase⟩
  numbered := h.numbered.descends hdescends le_rfl
  stored updates hupdates := (h.stored updates hupdates).descends hdescends
  free hnone row' hrow' := by
    refine Bool.eq_false_iff.mpr fun hpending' => ?_
    obtain ⟨row, hrow, hpending, -⟩ := hdescends row' hrow' hpending'
    rw [h.free hnone row hrow] at hpending
    cases hpending
  line p hp := (h.line p hp).descends hdescends
  phase := h.phase

/-- The updates of an open batch are the last ones of the line. -/
theorem LimitsInv.line_of_phase (h : LimitsInv env slots s) (hp : s.process = some p)
    {updates : UpdatesManager} (hphase : p.phase.updates? = some updates) :
    Line env s.tables.transactions (p.commands.map Submission.updates ++ [updates]) := by
  have hline := h.line p hp
  unfold SequencerProcess.line at hline
  rwa [hphase] at hline

/-- A miniblock goes into the queue, and the process into another phase. -/
theorem LimitsInv.sealMiniblock (h : LimitsInv env slots s) (hp : s.process = some p)
    {updates : UpdatesManager} (hphase : p.phase.updates? = some updates) {phase : Phase σ T}
    (hrecorded : Managers (Recorded env) (s.atPhase (p.sealMiniblock updates) phase))
    (hnext : ∀ updates', phase.updates? = some updates' →
      ∃ timestamp, updates' = updates.pushMiniblock timestamp)
    (hwithin : phase.Within slots) :
    LimitsInv env slots (s.atPhase (p.sealMiniblock updates) phase) := by
  refine h.atPhase hrecorded ?_ hwithin
  have hline := h.line_of_phase hp hphase
  have hcommands : (p.sealMiniblock updates).commands.map Submission.updates =
      p.commands.map Submission.updates ++ [updates] := List.map_append
  rw [hcommands]
  cases hupdates : phase.updates? with
  | none => simpa using hline
  | some updates' =>
    obtain ⟨timestamp, rfl⟩ := hnext updates' hupdates
    exact hline.concat (by simp) ((hline.1 updates (by simp)).push timestamp)

theorem getMiniblocksToReexecute_nil {scan : List TransactionRow} {rows : List MiniblockHeaderRow}
    (h : ∀ row ∈ scan, isPending row = false) : getMiniblocksToReexecute scan rows = .ok [] := by
  have hgroups : pendingGroups scan = [] := by
    unfold pendingGroups
    rw [List.filter_eq_nil_iff.mpr fun row hrow => Bool.eq_false_iff.mp (h row hrow)]
    rfl
  unfold getMiniblocksToReexecute
  rw [hgroups]
  rfl

/-- A restored batch has the transactions of all pending rows, and fits because they were part of
the batch that was stored. -/
theorem LimitsInv.restored (h : LimitsInv env slots s) (hrows : RowsInv s) (hblocks : BlocksInv s)
    {scan : List TransactionRow} (hscan : scan.Perm s.tables.transactions)
    {miniblocks : List MiniblockReexecuteData}
    (hminiblocks : getMiniblocksToReexecute scan s.tables.miniblocks = .ok miniblocks)
    (hne : miniblocks ≠ []) {params : L1BatchParams} {executor : σ} {batch : BatchState σ}
    {index : U32} (hbatch : reexecuteMiniblocks env true miniblocks
      (newBatchState params executor, 0) = .ok (batch, index)) :
    Covers env s.tables.transactions batch.updates ∧
      batch.updates.executed.length = s.tables.transactions.countP isPending := by
  have hincluded : batch.updates.included = miniblocks.flatMap MiniblockReexecuteData.txs :=
    included_reexecuteMiniblocks hbatch
  have htxs : (pendingRows scan).mapM rowToTransaction = .ok batch.updates.included := by
    rw [hincluded]
    refine getMiniblocksToReexecute_txs hblocks.chain.numbers (fun row hrow => ?_)
      hblocks.chain.length_le hminiblocks
    exact h.numbered row (hscan.mem_iff.mp hrow)
  have hrecorded : Recorded env batch.updates :=
    (kept_recorded.reexecuteMiniblocks (recorded_new _ _) rfl hbatch).1
  have honlyL2 : OnlyL2 batch.updates :=
    (kept_onlyL2.reexecuteMiniblocks (onlyL2_new _ _) rfl hbatch).1
  have hread := Seq.mem_mapM htxs
  obtain ⟨stored, hstored⟩ : ∃ stored, s.stored = some stored := by
    refine Option.ne_none_iff_exists'.mp fun hnone => hne ?_
    rw [getMiniblocksToReexecute_nil fun row hrow =>
      h.free hnone row (hscan.mem_iff.mp hrow)] at hminiblocks
    exact (Except.ok.inj hminiblocks).symm
  have hcovers := h.stored stored hstored
  -- each transaction is one of the stored batch, found by the hash of its row
  have hfound : ∀ tx ∈ batch.updates.included, ∃ e ∈ stored.executed, some e.hash = tx.hash ∧
      env.encodedTransactionSize tx = env.encodedTransactionSize e.transaction := by
    intro tx htx
    obtain ⟨row, hrow, hrowTx⟩ := hread.2 tx htx
    obtain ⟨hrow, hpending⟩ := mem_pendingRows.mp hrow
    obtain ⟨e, he, hhash, hsize⟩ := hcovers.stands row (hscan.mem_iff.mp hrow) hpending
    obtain ⟨result, hresult, rfl⟩ := List.mem_map.mp htx
    obtain ⟨l2Tx, hl2Tx⟩ := (List.mem_append.mp hresult).elim (honlyL2.1 result) (honlyL2.2 result)
    refine ⟨e, he, ?_, ?_⟩
    · rw [hash_of_rowToTransaction hrowTx, hhash]
    · rw [hl2Tx] at hrowTx ⊢
      exact hsize l2Tx hrowTx
  refine ⟨⟨?_, fun row hrow hpending => ?_⟩, ?_⟩
  · have hhashes : batch.updates.included.map Transaction.hash =
        (pendingRows scan).map fun row => some row.hash :=
      Seq.map_of_mapM (fun row tx hrow => hash_of_rowToTransaction hrow) htxs
    have hnodup : (batch.updates.included.map Transaction.hash).Nodup := by
      have htable : s.tables.transactions.Pairwise fun a b => some a.hash ≠ some b.hash :=
        hrows.apart.imp fun hab heq => hab.1 (Option.some.inj heq)
      rw [hhashes]
      refine List.pairwise_map.mpr (List.Pairwise.perm ?_ pendingRows_perm.symm Ne.symm)
      exact (htable.perm hscan.symm Ne.symm).filter _
    refine le_trans ?_ hcovers.fits
    unfold encodingSize
    rw [show stored.included = stored.executed.map TransactionExecutionResult.transaction from rfl,
      List.map_map]
    exact Seq.sum_map_le_of_keys hnodup hfound
  · obtain ⟨tx, htx, hrowTx⟩ := hread.1 row
      (mem_pendingRows.mpr ⟨hscan.mem_iff.mpr hrow, hpending⟩)
    obtain ⟨e, he, rfl⟩ := List.mem_map.mp htx
    refine ⟨e, he, ?_, fun tx hread' => ?_⟩
    · have hhash := hash_of_rowToTransaction hrowTx
      rw [hrecorded.hash e he] at hhash
      exact (Option.some.inj hhash).symm
    · rw [hrowTx] at hread'
      rw [Except.ok.inj hread']
  · have hlength := (Seq.forall₂_of_mapM htxs).length_eq
    rw [pendingRows_perm.length_eq, ← List.countP_eq_length_filter, hscan.countP_eq] at hlength
    rw [hlength]
    exact (List.length_map _).symm

/-- A transaction is tried in an open batch. -/
theorem LimitsInv.tried {config : SequencerConfig}
    (hsealer : env.sealer.conditionalSealer = some config)
    (hreject : config.rejectBound ≤ txEncodingSpace)
    (h : LimitsInv env config.transactionSlots s) (hp : s.process = some p)
    {params : L1BatchParams} {batch batch₁ batch₂ : BatchState σ}
    (hphase : p.phase = .processing params batch) {tx : Transaction}
    {resolution : SealResolution} {execResult : TxExecutionResult T}
    (hone : processOneTx env batch tx = .ok ((resolution, execResult), batch₁))
    (happly : applyResolution env batch₁ tx execResult resolution = .ok batch₂) :
    Line env s.tables.transactions (p.commands.map Submission.updates ++ [batch₂.updates]) ∧
      (if resolution.shouldSeal then Phase.finishing params batch₂
        else Phase.processing params batch₂ : Phase σ T).Within config.transactionSlots := by
  have hupdates : p.phase.updates? = some batch.updates := by
    rw [hphase]
    rfl
  have hline := h.line_of_phase hp hupdates
  have hfree : batch.updates.executed.length < config.transactionSlots := by
    have hwithin := h.phase p hp
    rw [hphase] at hwithin
    exact hwithin
  have hcovers : Covers env s.tables.transactions batch.updates := hline.1 _ (by simp)
  obtain ⟨e, hexecuted, hfits, hopen⟩ | ⟨hexecuted, hseal⟩ :=
    limits_of_processOneTx hsealer hreject (h.recorded.phase p _ hp hupdates) hone happly
  · have hgrow : batch.updates.executed ⊆ batch₂.updates.executed := by
      rw [hexecuted]
      exact List.subset_append_left _ _
    have hlength : batch₂.updates.executed.length = batch.updates.executed.length + 1 := by
      rw [hexecuted, List.length_append, List.length_singleton]
    refine ⟨hline.replace hgrow (hcovers.grow hgrow hfits), ?_⟩
    split_ifs with hshouldSeal
    · exact ⟨List.ne_nil_of_length_pos (by omega), by omega⟩
    · show batch₂.updates.executed.length < config.transactionSlots
      rw [hlength]
      exact hopen (Bool.eq_false_iff.mpr hshouldSeal)
  · have hsize : encodingSize env batch₂.updates = encodingSize env batch.updates := by
      unfold encodingSize
      rw [UpdatesManager.included_eq, UpdatesManager.included_eq, hexecuted]
    refine ⟨hline.replace (by rw [hexecuted]; exact List.Subset.refl _)
      (hcovers.grow (by rw [hexecuted]; exact List.Subset.refl _) (hsize ▸ hcovers.fits)), ?_⟩
    split_ifs with hshouldSeal
    · refine ⟨?_, ?_⟩
      · rw [hexecuted]
        exact hseal hshouldSeal
      · rw [hexecuted]
        exact hfree.le
    · show batch₂.updates.executed.length < config.transactionSlots
      rw [hexecuted]
      exact hfree

/-- The miniblock sealer stores the first miniblock of the queue. -/
theorem LimitsInv.writeMiniblock (h : LimitsInv env slots s) (hrows : RowsInv s)
    (hblocks : BlocksInv s) (hp : s.process = some p) {submission : Submission}
    {commands : List Submission} (hcommands : p.commands = submission :: commands)
    {tables : SequencerTables} {transactions : List TransactionRow}
    (hinsert : s.tables.insertMiniblock submission.command.header = .ok tables)
    (hmark : markTxsAsExecutedInMiniblock tables.transactions submission.command.miniblockNumber
      submission.command.miniblock.executedTransactions = .ok transactions)
    (hrange : ∀ row ∈ transactions, row.InRange) {s' : RunState σ T}
    (hs' : s' = {
      tables := { tables with transactions := transactions }
      process := some { p with commands := commands }
      panic := s.panic
      stored := some submission.updates })
    (hrecorded : Managers (Recorded env) s') : LimitsInv env slots s' := by
  obtain ⟨-, hminiblocks, -⟩ := hblocks.insertMiniblock hp hcommands hinsert
  rw [insertMiniblock_transactions hinsert] at hmark
  have hl2 : AllL2 submission.command.miniblock.executedTransactions :=
    (hrows.onlyL2.commands p hp submission (by rw [hcommands]; exact List.mem_cons_self)).2
  have hline := h.line p hp
  have hp' : p.line = submission.updates ::
      ({ p with commands := commands } : SequencerProcess σ T).line := by
    unfold SequencerProcess.line
    rw [hcommands]
    rfl
  rw [hp'] at hline
  have hgrow := (List.pairwise_cons.mp hline.2).1
  have hminiblock : submission.command.miniblock.executedTransactions ⊆
      submission.updates.executed := List.subset_append_right _ _
  have hrecordedLine : ∀ updates ∈ p.line, Recorded env updates := by
    intro updates hupdates
    rcases List.mem_append.mp hupdates with hupdates | hupdates
    · obtain ⟨c, hc, rfl⟩ := List.mem_map.mp hupdates
      exact h.recorded.commands p hp c hc
    · exact h.recorded.phase p updates hp (Option.mem_toList.mp hupdates)
  rw [hp'] at hrecordedLine
  have hnumber : submission.command.miniblockNumber < tables.miniblocks.length := by
    have hlast : submission.command.header ∈ tables.miniblocks := by
      rw [hminiblocks]
      exact List.mem_append_right _ (List.mem_singleton_self _)
    have hchain := (hblocks.insertMiniblock hp hcommands hinsert).1
    exact hchain.numbers.number_lt hlast
  have hle := (hblocks.insertMiniblock hp hcommands hinsert).1.length_le
  subst hs'
  refine ⟨hrecorded, fun row' hrow' hpending => ?_, ?_, nofun, ?_, ?_⟩
  · rw [hl2.mark_eq] at hmark
    have hrange' := hrange row' hrow'
    have hrow' : row' ∈ transactions := hrow'
    rw [foldlM_markL2_eq hmark] at hrow'
    obtain ⟨row, hrow, rfl⟩ := List.mem_map.mp hrow'
    rcases foldl_markIfKey_cases (asI32 submission.command.miniblockNumber) row
      (executedRows submission.command.miniblock.executedTransactions) with
      hsame | ⟨executedRow, -, -, heq⟩
    · rw [hsame] at hpending ⊢
      obtain ⟨number, hrowNumber, hlt⟩ := h.numbered row hrow hpending
      refine ⟨number, hrowNumber, ?_⟩
      show number < tables.miniblocks.length
      rw [hminiblocks, List.length_append]
      exact Nat.lt_add_right _ hlt
    · rw [heq] at hrange' ⊢
      obtain ⟨hnonneg, hlt⟩ := hrange' _ rfl
      have hcast : submission.command.miniblockNumber =
          (asI32 submission.command.miniblockNumber).toNat :=
        asI32_eq_natCast (by omega) (by omega) (Int.toNat_of_nonneg hnonneg).symm
      refine ⟨submission.command.miniblockNumber, ?_, hnumber⟩
      show some (asI32 submission.command.miniblockNumber) = _
      rw [hcast, Int.toNat_of_nonneg hnonneg, ← hcast]
  · rintro updates ⟨⟩
    exact (hline.1 _ List.mem_cons_self).mark (hrecordedLine _ List.mem_cons_self) hl2 hminiblock
      hmark
  · rintro p' ⟨⟩
    refine ⟨fun updates hupdates => ?_, (List.pairwise_cons.mp hline.2).2⟩
    exact (hline.1 _ (List.mem_cons_of_mem _ hupdates)).mark
      (hrecordedLine _ (List.mem_cons_of_mem _ hupdates)) hl2
      (List.Subset.trans hminiblock (hgrow updates hupdates)) hmark
  · rintro p' ⟨⟩
    exact h.phase p hp

/-- A batch is sealed, and with it all pending rows. -/
theorem LimitsInv.sealL1Batch (h : LimitsInv env slots s) (hp : s.process = some p)
    {params : L1BatchParams} {finished : FinishedBatch T}
    (hphase : p.phase = .sealing params finished) {prevTimestamp : U64} {tables : SequencerTables}
    (htables : s.insertBatch p params finished.updates prevTimestamp = .ok tables)
    {s' : RunState σ T} {version : Option ProtocolVersionId}
    (hs' : s' = {
      tables := tables
      process := some {
        currentL1BatchNumber := succU32 p.currentL1BatchNumber
        currentMiniblockNumber := succU32 p.currentMiniblockNumber
        commands := []
        phase := .waiting version }
      panic := s.panic
      stored := none })
    (hrecorded : Managers (Recorded env) s') : LimitsInv env slots s' := by
  obtain ⟨-, -, -, rfl⟩ := insertBatch_eq_ok htables
  have hupdates : p.phase.updates? = some finished.updates := by
    rw [hphase]
    rfl
  have hcovers : Covers env s.tables.transactions finished.updates :=
    (h.line_of_phase hp hupdates).1 _ (by simp)
  have hempty : finished.updates.miniblock.executedTransactions = [] := by
    have hwithin := h.phase p hp
    rw [hphase] at hwithin
    exact hwithin.2
  have hfree : ∀ row ∈ markTxsAsExecutedInL1Batch s.tables.transactions p.currentL1BatchNumber
      finished.updates.l1Batch.executedTransactions, isPending row = false := by
    intro row hrow
    refine Bool.eq_false_iff.mpr fun hpending => ?_
    obtain ⟨hold, hother⟩ := pending_of_markTxsAsExecutedInL1Batch _ _ _ row hrow hpending
    obtain ⟨e, he, hhash, -⟩ := hcovers.stands row hold hpending
    unfold UpdatesManager.executed at he
    rw [hempty, List.append_nil] at he
    exact hother e he hhash.symm
  subst hs'
  refine ⟨hrecorded, fun row hrow hpending => ?_, nofun, fun _ => hfree, ?_, ?_⟩
  · rw [hfree row hrow] at hpending
    cases hpending
  · rintro p' ⟨⟩
    exact .nil
  · rintro p' ⟨⟩
    trivial

/-- A restart finds fewer transactions without a batch than there are slots. -/
def restoresFewer (slots : ℕ) (s : RunState σ T) : RunAction σ → Bool
  | .start _ _ _ _ => s.tables.transactions.countP isPending < slots
  | _ => true

/-- A step that does not panic keeps the limits. -/
theorem LimitsInv.moved {config : SequencerConfig}
    (hsealer : env.sealer.conditionalSealer = some config)
    (hslots : 1 ≤ config.transactionSlots) (hreject : config.rejectBound ≤ txEncodingSpace)
    (h : LimitsInv env config.transactionSlots s) (hrows : RowsInv s) (hblocks : BlocksInv s)
    {action : RunAction σ} (hfewer : restoresFewer config.transactionSlots s action = true)
    (hrows' : RowsInv s') (hmoved : Moved env s action s') :
    LimitsInv env config.transactionSlots s' := by
  have hrecorded := h.recorded.moved recorded_new kept_recorded hmoved
  cases hmoved with
  | started hp _ =>
    obtain rfl := newProcess_eq hblocks.chain hp
    exact h.atPhase hrecorded .nil trivial
  | @restored _ _ _ _ _ _ _ _ batch _ newTimestamp hscan hp _ _ _ hminiblocks hne hbatch _ =>
    obtain rfl := newProcess_eq hblocks.chain hp
    obtain ⟨hcovers, hlength⟩ := h.restored hrows hblocks hscan hminiblocks hne hbatch
    cases newTimestamp with
    | none => exact h.atPhase hrecorded .nil trivial
    | some newTimestamp =>
      refine h.atPhase hrecorded (.single (hcovers.push newTimestamp)) ?_
      show (batch.updates.pushMiniblock newTimestamp).executed.length < _
      rw [UpdatesManager.executed_pushMiniblock, hlength]
      exact of_decide_eq_true hfewer
  | @newBatch _ _ _ _ _ p _ _ _ params hp hphase _ _ _ =>
    obtain ⟨hpending, hcommands⟩ := (hblocks.process p hp).waiting _ hphase
    refine h.atPhase hrecorded ?_ hslots
    rw [hcommands]
    refine .single ⟨Nat.zero_le _, fun row hrow hpendingRow => ?_⟩
    rw [h.free (hblocks.stored.mpr hpending) row hrow] at hpendingRow
    cases hpendingRow
  | @deadlinePassed _ _ _ p params batch hp hphase hnonempty =>
    refine h.atPhase hrecorded (h.line_of_phase hp (by rw [hphase]; rfl)) ?_
    have hwithin := h.phase p hp
    rw [hphase] at hwithin
    refine ⟨List.ne_nil_of_length_pos ?_, hwithin.le⟩
    rw [UpdatesManager.length_executed]
    exact Nat.pos_of_ne_zero hnonempty
  | unchanged => exact h
  | @sealedMiniblock _ _ _ p params batch newTimestamp hp hphase _ _ =>
    have hwithin := h.phase p hp
    rw [hphase] at hwithin
    refine h.sealMiniblock hp (by rw [hphase]; rfl) hrecorded ?_ ?_
    · intro updates' hupdates'
      cases newTimestamp with
      | none => cases hupdates'
      | some newTimestamp => exact ⟨newTimestamp, (Option.some.inj hupdates').symm⟩
    · cases newTimestamp with
      | none => trivial
      | some newTimestamp =>
        show (batch.updates.pushMiniblock newTimestamp).executed.length < _
        rw [UpdatesManager.executed_pushMiniblock]
        exact hwithin
  | @tried tx p _ _ _ _ resolution _ hp hphase hone happly =>
    obtain ⟨hline, hwithin⟩ := h.tried hsealer hreject hp hphase hone happly
    have hedited := h.edit (edited_markRejected tx resolution).descends
    refine hedited.atPhase hrecorded (Line.descends ?_ (edited_markRejected tx resolution).descends)
      hwithin
    split_ifs
    · exact hline
    · exact hline
  | @finished _ p params batch finished hp hphase hempty hfinished =>
    have hwithin := h.phase p hp
    rw [hphase] at hwithin
    have hupdates : p.phase.updates? = some finished.updates := by
      rw [hphase, hfinished]
      rfl
    exact h.atPhase hrecorded (h.line_of_phase hp hupdates)
      ⟨hfinished ▸ hwithin, hfinished ▸ hempty⟩
  | @finishedMiniblock _ p params batch timestamp finished hp hphase _ _ hfinished =>
    have hwithin := h.phase p hp
    rw [hphase] at hwithin
    refine h.sealMiniblock hp (by rw [hphase]; rfl) hrecorded ?_ ?_
    · intro updates' hupdates'
      exact ⟨timestamp, (Option.some.inj hupdates').symm.trans hfinished⟩
    · refine ⟨?_, by rw [hfinished]; rfl⟩
      rw [hfinished, UpdatesManager.executed_pushMiniblock]
      exact hwithin
  | @stoppedFinishing _ p params batch hp hphase _ =>
    exact h.sealMiniblock hp (by rw [hphase]; rfl) hrecorded nofun trivial
  | sealedBatch hp hphase _ _ htables => exact h.sealL1Batch hp hphase htables rfl hrecorded
  | wroteMiniblock hp hcommands hinsert hmark =>
    exact h.writeMiniblock hrows hblocks hp hcommands hinsert hmark hrows'.inRange rfl hrecorded
  | @stopped _ p hp =>
    refine h.atPhase hrecorded ((h.line p hp).sublist ?_) trivial
    exact (List.Sublist.refl _).append (List.nil_sublist _)
  | crashed => exact h.down s.panic
  | statement hexecute => exact h.edit (edited_execute hrows.apart hexecute).descends

/-- What a batch in `seal_l1_batch` is limited to. -/
structure WithinLimits (env : SequencerEnv σ T) (config : SequencerConfig)
    (l1Batch : L1BatchUpdates) :
    Prop where
  nonempty : 1 ≤ l1Batch.executedTransactions.length
  slots : l1Batch.executedTransactions.length ≤ config.transactionSlots
  encoding : (l1Batch.executedTransactions.map fun e =>
    env.encodedTransactionSize e.transaction).sum ≤ txEncodingSpace

/-- In every run whose restarts find fewer transactions without a batch than there are slots, every
batch that is sealed is within its limits. -/
theorem reaches_withinLimits {env : SequencerEnv σ T} {config : SequencerConfig}
    (hsealer : env.sealer.conditionalSealer = some config)
    (hslots : 1 ≤ config.transactionSlots) (hreject : config.rejectBound ≤ txEncodingSpace)
    {s : RunState σ T} (h : Transition.Reaches (fun s action => s.step env action)
      (fun s action => restoresFewer config.transactionSlots s action = true) Initial s)
    {p : SequencerProcess σ T} (hp : s.process = some p) {params : L1BatchParams}
    {finished : FinishedBatch T} (hphase : p.phase = .sealing params finished) :
    WithinLimits env config finished.updates.l1Batch := by
  obtain ⟨-, -, hlimits⟩ : RowsInv s ∧ BlocksInv s ∧ LimitsInv env config.transactionSlots s := by
    refine h.invariant (fun s => RowsInv s ∧ BlocksInv s ∧ LimitsInv env config.transactionSlots s)
      (fun s hs => ⟨rowsInv_initial hs, blocksInv_initial hs, limitsInv_initial hs⟩) ?_
    rintro s action s' ⟨hrows, hblocks, hlimits⟩ hfewer hstep
    have hrows' := hrows.step hstep
    refine ⟨hrows', hblocks.step hstep, ?_⟩
    refine step_invariant (fun s' => RowsInv s' → LimitsInv env config.transactionSlots s')
      (fun hmoved hrows' => ?_) (fun panic _ _ => hlimits.down (some panic)) hstep hrows'
    exact hlimits.moved hsealer hslots hreject hrows hblocks hfewer hrows' hmoved
  have hwithin := hlimits.phase p hp
  rw [hphase] at hwithin
  obtain ⟨⟨hnonempty, hle⟩, hempty⟩ := hwithin
  have hexecuted : finished.updates.executed = finished.updates.l1Batch.executedTransactions := by
    unfold UpdatesManager.executed
    rw [hempty, List.append_nil]
  have hupdates : p.phase.updates? = some finished.updates := by
    rw [hphase]
    rfl
  have hfits := ((hlimits.line_of_phase hp hupdates).1 finished.updates (by simp)).fits
  rw [encodingSize, UpdatesManager.included_eq, List.map_map, hexecuted] at hfits
  rw [hexecuted] at hnonempty hle
  exact ⟨List.length_pos_of_ne_nil hnonempty, hle, hfits⟩

/-- The environment of the samples with a number of slots. -/
def slotsEnv (transactionSlots : ℕ) : SequencerEnv (List (TxExeResult U64)) U64 :=
  { Sequencer.sampleEnv with sealer := ⟨some ⟨transactionSlots, 10, 1000⟩⟩ }

/-- A batch of one transaction ends, and the process stops before it is sealed. -/
def sampleEnded (transactionSlots : ℕ) (deadline : List (RunAction (List (TxExeResult U64)))) :
    List (RunAction (List (TxExeResult U64))) :=
  let fetched := sampleFetched (slotsEnv transactionSlots)
  fetched ++ [.start (tableAfter (slotsEnv transactionSlots) fetched) 0 [] [],
    .newBatch 0 0 none [] [[10000]], .nextTx (sampleTx 1).intoTransaction] ++ deadline ++
    [.finish [[11000]], .writeMiniblock, .crash]

/-- A new process restores the batch, and includes a second transaction. -/
def sampleReopened (transactionSlots : ℕ) (deadline : List (RunAction (List (TxExeResult U64)))) :
    List (RunAction (List (TxExeResult U64))) :=
  let ended := sampleEnded transactionSlots deadline
  ended ++ [.start (tableAfter (slotsEnv transactionSlots) ended) 0 [] [[12000]],
    .nextTx (sampleTx 2).intoTransaction, .finish [[13000]]]

/-- The batch in `seal_l1_batch`. -/
def sealedUpdates? (s : RunState σ T) : Option L1BatchUpdates :=
  s.process.bind fun p =>
    match p.phase with
    | .sealing _ finished => some finished.updates.l1Batch
    | _ => none

theorem sealedUpdates?_eq_some {l1Batch : L1BatchUpdates} (h : s.sealedUpdates? = some l1Batch) :
    ∃ p params finished, s.process = some p ∧ p.phase = .sealing params finished ∧
      finished.updates.l1Batch = l1Batch := by
  obtain ⟨p, hp, hphase⟩ := Option.bind_eq_some_iff.mp h
  split at hphase
  · rename_i params finished hsealing
    exact ⟨p, params, finished, hp, hsealing, Option.some.inj hphase⟩
  · cases hphase

/-- A batch with two slots that its deadline closed is restored, and takes a second transaction. -/
theorem reaches_withinLimits_sample :
    ∃ s : RunState (List (TxExeResult U64)) U64, ∃ p params finished,
    Transition.Reaches (fun s action => s.step (slotsEnv 2) action)
      (fun s action => restoresFewer 2 s action = true) Initial s ∧
    s.process = some p ∧ p.phase = .sealing params finished ∧
    finished.updates.l1Batch.executedTransactions.length = 2 ∧
    WithinLimits (slotsEnv 2) ⟨2, 10, 1000⟩ finished.updates.l1Batch := by
  have hrun : ((Transition.runGuarded (fun s action => s.step (slotsEnv 2) action)
      (fun s action => restoresFewer 2 s action = true) newNode
      (sampleReopened 2 [.checkDeadlines true false []])).bind sealedUpdates?).map
        (fun l1Batch => l1Batch.executedTransactions.length) = some 2 := by
    decide +kernel
  obtain ⟨l1Batch, hsealed, hlength⟩ := Option.map_eq_some_iff.mp hrun
  obtain ⟨s, hs, hsealed⟩ := Option.bind_eq_some_iff.mp hsealed
  obtain ⟨p, params, finished, hp, hphase, rfl⟩ := sealedUpdates?_eq_some hsealed
  have hreaches := Transition.reaches_runGuarded _ (.start newNode_initial) hs
  exact ⟨s, p, params, finished, hreaches, hp, hphase, hlength,
    reaches_withinLimits rfl (by decide) (by decide) hreaches hp hphase⟩

/-- With one slot the restored batch is full, and still takes a second transaction. -/
theorem withinLimits_counterexample : ∃ s : RunState (List (TxExeResult U64)) U64,
    ∃ p params finished, Transition.Reaches (fun s action => s.step (slotsEnv 1) action)
      (fun _ _ => True) Initial s ∧ s.process = some p ∧ p.phase = .sealing params finished ∧
    finished.updates.l1Batch.executedTransactions.length = 2 ∧
    ¬ WithinLimits (slotsEnv 1) ⟨1, 10, 1000⟩ finished.updates.l1Batch := by
  have hrun : ((Transition.runGuarded (fun s action => s.step (slotsEnv 1) action)
      (fun _ _ => True) newNode (sampleReopened 1 [])).bind sealedUpdates?).map
        (fun l1Batch => l1Batch.executedTransactions.length) = some 2 := by
    decide +kernel
  obtain ⟨l1Batch, hsealed, hlength⟩ := Option.map_eq_some_iff.mp hrun
  obtain ⟨s, hs, hsealed⟩ := Option.bind_eq_some_iff.mp hsealed
  obtain ⟨p, params, finished, hp, hphase, rfl⟩ := sealedUpdates?_eq_some hsealed
  have hreaches := Transition.reaches_runGuarded _ (.start newNode_initial) hs
  refine ⟨s, p, params, finished, hreaches, hp, hphase, hlength, fun hwithin => ?_⟩
  have hle := hwithin.slots
  rw [hlength] at hle
  exact absurd hle (by decide)

end RunState

end OlaOs
