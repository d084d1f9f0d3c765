import OlaOs.Sequencer.BatchSteps
import OlaOs.Sequencer.Runs

/-! What a step of a run can do, for the invariants of whole runs. -/
namespace OlaOs

namespace Sequencer

variable {σ T : Type} {env : SequencerEnv σ T} {s s' : BatchState σ}

/-- The executor does not support upgrade transactions. -/
theorem processUpgradeTx_ne_ok (tx : ProtocolUpgradeTx) :
    processUpgradeTx env s tx.intoTransaction ≠ .ok s' := by
  unfold processUpgradeTx processOneTx BatchExecutor.tx BatchExecutor.tapeInitInfo
  split_ifs
  · exact nofun
  · exact nofun

end Sequencer

/-- The updates of the batch in progress. -/
def Phase.updates? {σ T : Type} : Phase σ T → Option UpdatesManager
  | .waiting _ | .stopped => none
  | .processing _ batch | .finishing _ batch => some batch.updates
  | .sealing _ finished => some finished.updates

namespace RunState

open TransactionsDal

variable {σ T : Type}

theorem mapError_eq_ok {ε ε' α : Type} {f : ε → ε'} {x : Except ε α} {a : α} :
    x.mapError f = .ok a ↔ x = .ok a := by
  cases x with
  | error e => exact ⟨nofun, nofun⟩
  | ok b => exact ⟨fun h => by cases h; rfl, fun h => by cases h; rfl⟩

/-- What a step that does not panic leads to. -/
inductive Moved (env : SequencerEnv σ T) (s : RunState σ T) :
    RunAction σ → RunState σ T → Prop where
  | started {scan : List TransactionRow} {previousBlockHash : U256} {executor : σ}
      {attempts : List (List ℕ)} {p : SequencerProcess σ T} :
      s.newProcess = .ok p → s.pendingMiniblockHeader p.currentL1BatchNumber = .ok none →
      Moved env s (.start scan previousBlockHash executor attempts) (s.atPhase p (.waiting none))
  | restored {scan : List TransactionRow} {previousBlockHash : U256} {executor : σ}
      {attempts : List (List ℕ)} {p : SequencerProcess σ T} {header : MiniblockHeaderRow}
      {params : L1BatchParams} {pendingMiniblocks : List MiniblockReexecuteData}
      {batch : BatchState σ} {index : U32} {newTimestamp : Option U64} :
      scan.Perm s.tables.transactions → s.newProcess = .ok p →
      s.pendingMiniblockHeader p.currentL1BatchNumber = .ok (some header) →
      params.blockTimestamp = header.timestamp →
      header.protocolVersion = some params.protocolVersion →
      getMiniblocksToReexecute scan s.tables.miniblocks = .ok pendingMiniblocks →
      pendingMiniblocks ≠ [] →
      Sequencer.reexecuteMiniblocks env true pendingMiniblocks
        (newBatchState params executor, 0) = .ok (batch, index) →
      Clock.retry batch.updates.miniblock.timestamp attempts = .ok newTimestamp →
      Moved env s (.start scan previousBlockHash executor attempts)
        (s.atPhase p (match newTimestamp with
          | none => .stopped
          | some newTimestamp => .processing params
              { batch with updates := batch.updates.pushMiniblock newTimestamp }))
  | newBatch {previousBlockHash : U256} {protocolVersion : ProtocolVersionId}
      {upgradeTx : Option ProtocolUpgradeTx} {executor : σ} {attempts : List (List ℕ)}
      {p : SequencerProcess σ T} {sealedVersion : Option ProtocolVersionId}
      {prevMiniblockTimestamp timestamp : U64} {params : L1BatchParams} :
      s.process = some p → p.phase = .waiting sealedVersion →
      s.tables.getMiniblockTimestamp (predU32 p.currentMiniblockNumber) =
        some prevMiniblockTimestamp →
      Clock.retry prevMiniblockTimestamp attempts = .ok (some timestamp) →
      params.blockTimestamp = timestamp →
      Moved env s (.newBatch previousBlockHash protocolVersion upgradeTx executor attempts)
        (s.atPhase p (.processing params (newBatchState params executor)))
  | deadlinePassed {batchDeadlinePassed miniblockDeadlinePassed : Bool} {attempts : List (List ℕ)}
      {p : SequencerProcess σ T} {params : L1BatchParams} {batch : BatchState σ} :
      s.process = some p → p.phase = .processing params batch →
      batch.updates.pendingExecutedTransactionsLen ≠ 0 →
      Moved env s (.checkDeadlines batchDeadlinePassed miniblockDeadlinePassed attempts)
        (s.atPhase p (.finishing params batch))
  | unchanged {batchDeadlinePassed miniblockDeadlinePassed : Bool} {attempts : List (List ℕ)} :
      Moved env s (.checkDeadlines batchDeadlinePassed miniblockDeadlinePassed attempts) s
  | sealedMiniblock {batchDeadlinePassed miniblockDeadlinePassed : Bool}
      {attempts : List (List ℕ)} {p : SequencerProcess σ T} {params : L1BatchParams}
      {batch : BatchState σ} {newTimestamp : Option U64} :
      s.process = some p → p.phase = .processing params batch →
      batch.updates.miniblock.executedTransactions ≠ [] →
      Clock.retry batch.updates.miniblock.timestamp attempts = .ok newTimestamp →
      Moved env s (.checkDeadlines batchDeadlinePassed miniblockDeadlinePassed attempts)
        (s.atPhase (p.sealMiniblock batch.updates) (match newTimestamp with
          | none => .stopped
          | some newTimestamp => .processing params (Sequencer.sealMiniblock newTimestamp batch)))
  | tried {tx : Transaction} {p : SequencerProcess σ T} {params : L1BatchParams}
      {batch batch₁ batch₂ : BatchState σ} {resolution : SealResolution}
      {execResult : TxExecutionResult T} :
      s.process = some p → p.phase = .processing params batch →
      Sequencer.processOneTx env batch tx = .ok ((resolution, execResult), batch₁) →
      Sequencer.applyResolution env batch₁ tx execResult resolution = .ok batch₂ →
      Moved env s (.nextTx tx) { s with
        tables := { s.tables with
          transactions := markRejected s.tables.transactions tx resolution }
        process := some { p with
          phase := if resolution.shouldSeal then .finishing params batch₂
            else .processing params batch₂ } }
  | finished {attempts : List (List ℕ)} {p : SequencerProcess σ T} {params : L1BatchParams}
      {batch : BatchState σ} {finished : FinishedBatch T} :
      s.process = some p → p.phase = .finishing params batch →
      batch.updates.miniblock.executedTransactions = [] → finished.updates = batch.updates →
      Moved env s (.finish attempts) (s.atPhase p (.sealing params finished))
  | finishedMiniblock {attempts : List (List ℕ)} {p : SequencerProcess σ T}
      {params : L1BatchParams} {batch : BatchState σ} {fictiveMiniblockTimestamp : U64}
      {finished : FinishedBatch T} :
      s.process = some p → p.phase = .finishing params batch →
      batch.updates.miniblock.executedTransactions ≠ [] →
      Clock.retry batch.updates.miniblock.timestamp attempts =
        .ok (some fictiveMiniblockTimestamp) →
      finished.updates = batch.updates.pushMiniblock fictiveMiniblockTimestamp →
      Moved env s (.finish attempts)
        (s.atPhase (p.sealMiniblock batch.updates) (.sealing params finished))
  | stoppedFinishing {attempts : List (List ℕ)} {p : SequencerProcess σ T}
      {params : L1BatchParams} {batch : BatchState σ} :
      s.process = some p → p.phase = .finishing params batch →
      batch.updates.miniblock.executedTransactions ≠ [] →
      Moved env s (.finish attempts) (s.atPhase (p.sealMiniblock batch.updates) .stopped)
  | sealedBatch {p : SequencerProcess σ T} {params : L1BatchParams} {finished : FinishedBatch T}
      {prevTimestamp : U64} {tables : SequencerTables} :
      s.process = some p → p.phase = .sealing params finished → p.commands = [] →
      s.tables.prevL1BatchTimestamp p.currentL1BatchNumber = some prevTimestamp →
      s.insertBatch p params finished.updates prevTimestamp = .ok tables →
      Moved env s .sealL1Batch {
        tables := tables
        process := some {
          currentL1BatchNumber := succU32 p.currentL1BatchNumber
          currentMiniblockNumber := succU32 p.currentMiniblockNumber
          commands := []
          phase := .waiting (some finished.updates.protocolVersion) }
        panic := s.panic
        stored := none }
  | wroteMiniblock {p : SequencerProcess σ T} {submission : Submission}
      {commands : List Submission} {tables : SequencerTables}
      {transactions : List TransactionRow} :
      s.process = some p → p.commands = submission :: commands →
      s.tables.insertMiniblock submission.command.header = .ok tables →
      markTxsAsExecutedInMiniblock tables.transactions submission.command.miniblockNumber
        submission.command.miniblock.executedTransactions = .ok transactions →
      Moved env s .writeMiniblock {
        tables := { tables with transactions := transactions }
        process := some { p with commands := commands }
        panic := s.panic
        stored := some submission.updates }
  | stopped (action : RunAction σ) {p : SequencerProcess σ T} : s.process = some p →
      Moved env s action (s.atPhase p .stopped)
  | crashed : Moved env s .crash (s.down s.panic)
  | statement {statement : TableStatement} {transactions : List TransactionRow} :
      execute s.tables.transactions statement = some transactions →
      Moved env s (.statement statement)
        { s with tables := { s.tables with transactions := transactions } }

variable {env : SequencerEnv σ T} {s s' : RunState σ T}

/-- A new process has nothing to store. -/
theorem commands_newProcess {p : SequencerProcess σ T} (h : s.newProcess = .ok p) :
    p.commands = [] := by
  unfold newProcess at h
  split at h
  · cases h
  · cases h
    rfl

/-- What `load_pending_batch` returns: the batch of the first miniblock after the last sealed batch,
if there is one. -/
theorem loadPendingBatch_cases {currentL1BatchNumber : ℕ} {scan : List TransactionRow}
    {previousBlockHash : U256} {loaded : Option (L1BatchParams × List MiniblockReexecuteData)}
    (h : s.loadPendingBatch currentL1BatchNumber scan previousBlockHash = .ok loaded) :
    (s.pendingMiniblockHeader currentL1BatchNumber = .ok none ∧ loaded = none) ∨
      ∃ header protocolVersion pendingMiniblocks,
        s.pendingMiniblockHeader currentL1BatchNumber = .ok (some header) ∧
        header.protocolVersion = some protocolVersion ∧
        getMiniblocksToReexecute scan s.tables.miniblocks = .ok pendingMiniblocks ∧
        loaded = some
          (⟨currentL1BatchNumber, header.timestamp, previousBlockHash, protocolVersion⟩,
            pendingMiniblocks) := by
  unfold loadPendingBatch at h
  obtain ⟨header, hheader, h⟩ := Seq.bind_eq_ok.mp h
  cases header with
  | none =>
    cases h
    exact .inl ⟨hheader, rfl⟩
  | some header =>
    dsimp only at h
    split at h
    · cases h
    · rename_i protocolVersion hversion
      obtain ⟨pendingMiniblocks, hpending, h⟩ := Seq.bind_eq_ok.mp h
      cases h
      exact .inr ⟨header, protocolVersion, pendingMiniblocks, hheader, hversion,
        mapError_eq_ok.mp hpending, rfl⟩

theorem start_cases {scan : List TransactionRow} {previousBlockHash : U256} {executor : σ}
    {attempts : List (List ℕ)} (hscan : scan.Perm s.tables.transactions)
    (h : s.start env scan previousBlockHash executor attempts = .ok s') :
    Moved env s (.start scan previousBlockHash executor attempts) s' := by
  unfold start at h
  obtain ⟨p, hprocess, h⟩ := Seq.bind_eq_ok.mp h
  obtain ⟨loaded, hload, h⟩ := Seq.bind_eq_ok.mp h
  obtain ⟨hheader, rfl⟩ | ⟨header, protocolVersion, pendingMiniblocks, hheader, hversion, hpending,
    rfl⟩ := loadPendingBatch_cases hload
  · cases h
    exact .started hprocess hheader
  · dsimp only at h
    split_ifs at h with hempty
    obtain ⟨⟨batch, index⟩, hbatch, h⟩ := Seq.bind_eq_ok.mp h
    obtain ⟨newTimestamp, hretry, h⟩ := Seq.bind_eq_ok.mp h
    have hnonempty : pendingMiniblocks ≠ [] := fun hnil => hempty (by rw [hnil]; rfl)
    have hrestored : Moved env s (.start scan previousBlockHash executor attempts) _ :=
      .restored hscan hprocess hheader rfl hversion hpending hnonempty (mapError_eq_ok.mp hbatch)
        (mapError_eq_ok.mp hretry)
    cases newTimestamp with
    | none =>
      cases h
      exact hrestored
    | some newTimestamp =>
      cases h
      exact hrestored

/-- No batch starts with an upgrade transaction. -/
theorem processUpgrade_eq_ok {sealedVersion : Option ProtocolVersionId} {params : L1BatchParams}
    {upgradeTx : Option ProtocolUpgradeTx} {batch batch' : BatchState σ}
    (h : processUpgrade env sealedVersion params upgradeTx batch = .ok batch') :
    batch' = batch := by
  unfold processUpgrade at h
  split at h
  · split_ifs at h
    · cases h
      rfl
    · exact absurd h (Sequencer.processUpgradeTx_ne_ok _)
  · cases h
    rfl

theorem newBatch_cases {p : SequencerProcess σ T} {sealedVersion : Option ProtocolVersionId}
    {previousBlockHash : U256} {protocolVersion : ProtocolVersionId}
    {upgradeTx : Option ProtocolUpgradeTx} {executor : σ} {attempts : List (List ℕ)}
    (hp : s.process = some p) (hphase : p.phase = .waiting sealedVersion)
    (h : s.newBatch env p sealedVersion previousBlockHash protocolVersion upgradeTx executor
      attempts = .ok s') :
    Moved env s (.newBatch previousBlockHash protocolVersion upgradeTx executor attempts) s' := by
  unfold newBatch at h
  split at h
  · cases h
  · rename_i prevMiniblockTimestamp hprev
    obtain ⟨timestamp, hretry, h⟩ := Seq.bind_eq_ok.mp h
    cases timestamp with
    | none =>
      cases h
      exact .stopped _ hp
    | some timestamp =>
      obtain ⟨batch, hupgrade, h⟩ := Seq.bind_eq_ok.mp h
      cases h
      obtain rfl := processUpgrade_eq_ok (mapError_eq_ok.mp hupgrade)
      exact .newBatch hp hphase hprev (mapError_eq_ok.mp hretry) rfl

theorem checkDeadlines_cases {p : SequencerProcess σ T} {params : L1BatchParams}
    {batch : BatchState σ} {batchDeadlinePassed miniblockDeadlinePassed : Bool}
    {attempts : List (List ℕ)} (hp : s.process = some p)
    (hphase : p.phase = .processing params batch)
    (h : s.checkDeadlines p params batch batchDeadlinePassed miniblockDeadlinePassed attempts =
      .ok s') :
    Moved env s (.checkDeadlines batchDeadlinePassed miniblockDeadlinePassed attempts) s' := by
  unfold checkDeadlines at h
  dsimp only at h
  split_ifs at h with hbatch hminiblock
  · cases h
    refine .deadlinePassed hp hphase ?_
    unfold Sequencer.shouldSealL1BatchUnconditionally at hbatch
    rw [Bool.and_eq_true, decide_eq_true_eq] at hbatch
    exact hbatch.1
  · obtain ⟨newTimestamp, hretry, h⟩ := Seq.bind_eq_ok.mp h
    unfold Sequencer.shouldSealMiniblock at hminiblock
    rw [Bool.and_eq_true, Bool.not_eq_true', List.isEmpty_eq_false_iff] at hminiblock
    cases newTimestamp with
    | none =>
      cases h
      exact .sealedMiniblock hp hphase hminiblock.1 (mapError_eq_ok.mp hretry)
    | some newTimestamp =>
      cases h
      exact .sealedMiniblock hp hphase hminiblock.1 (mapError_eq_ok.mp hretry)
  · cases h
    exact .unchanged

theorem nextTx_cases {p : SequencerProcess σ T} {params : L1BatchParams} {batch : BatchState σ}
    {tx : Transaction} (hp : s.process = some p) (hphase : p.phase = .processing params batch)
    (h : s.nextTx env p params batch tx = .ok s') : Moved env s (.nextTx tx) s' := by
  unfold nextTx at h
  obtain ⟨⟨⟨resolution, execResult⟩, batch₁⟩, hone, h⟩ := Seq.bind_eq_ok.mp h
  obtain ⟨batch₂, happly, h⟩ := Seq.bind_eq_ok.mp h
  cases h
  exact .tried hp hphase (mapError_eq_ok.mp hone) (mapError_eq_ok.mp happly)

theorem finish_cases {p : SequencerProcess σ T} {params : L1BatchParams} {batch : BatchState σ}
    {attempts : List (List ℕ)} (hp : s.process = some p)
    (hphase : p.phase = .finishing params batch)
    (h : s.finish env p params batch attempts = .ok s') : Moved env s (.finish attempts) s' := by
  have hupdates {timestamp : U64} {finished : FinishedBatch T}
      (hfinish : Sequencer.finish env timestamp batch = .ok finished) :
      finished.updates = (Sequencer.sealLastMiniblock timestamp batch).updates := by
    unfold Sequencer.finish at hfinish
    obtain ⟨⟨blockResult, txTraces⟩, -, hfinish⟩ := Seq.bind_eq_ok.mp hfinish
    cases hfinish
    rfl
  unfold finish at h
  split_ifs at h with hempty
  · obtain ⟨finished, hfinish, h⟩ := Seq.bind_eq_ok.mp h
    cases h
    refine .finished hp hphase (List.isEmpty_iff.mp hempty) ?_
    rw [hupdates (mapError_eq_ok.mp hfinish), Sequencer.sealLastMiniblock, if_pos hempty]
  · have hnonempty : batch.updates.miniblock.executedTransactions ≠ [] := fun hnil =>
      hempty (by rw [hnil]; rfl)
    obtain ⟨fictiveMiniblockTimestamp, hretry, h⟩ := Seq.bind_eq_ok.mp h
    cases fictiveMiniblockTimestamp with
    | none =>
      cases h
      exact .stoppedFinishing hp hphase hnonempty
    | some fictiveMiniblockTimestamp =>
      obtain ⟨finished, hfinish, h⟩ := Seq.bind_eq_ok.mp h
      cases h
      refine .finishedMiniblock hp hphase hnonempty (mapError_eq_ok.mp hretry) ?_
      rw [hupdates (mapError_eq_ok.mp hfinish), Sequencer.sealLastMiniblock, if_neg hempty]
      rfl

theorem sealL1Batch_cases {p : SequencerProcess σ T} {params : L1BatchParams}
    {finished : FinishedBatch T} (hp : s.process = some p)
    (hphase : p.phase = .sealing params finished)
    (h : s.sealL1Batch p params finished.updates = some (.ok s')) :
    Moved env s .sealL1Batch s' := by
  unfold sealL1Batch at h
  split_ifs at h
  · cases h
  · split at h
    · rename_i prevTimestamp hcommands hprev
      obtain ⟨tables, htables, h⟩ := Seq.bind_eq_ok.mp (Option.some.inj h)
      cases h
      exact .sealedBatch hp hphase hcommands hprev htables
    · cases h

theorem writeMiniblock_cases {p : SequencerProcess σ T} {submission : Submission}
    {commands : List Submission} (hp : s.process = some p)
    (hcommands : p.commands = submission :: commands)
    (h : s.writeMiniblock p submission commands = .ok s') : Moved env s .writeMiniblock s' := by
  unfold writeMiniblock at h
  obtain ⟨tables, hinsert, h⟩ := Seq.bind_eq_ok.mp h
  obtain ⟨transactions, hmark, h⟩ := Seq.bind_eq_ok.mp h
  cases h
  exact .wroteMiniblock hp hcommands (mapError_eq_ok.mp hinsert) (mapError_eq_ok.mp hmark)

/-- A step moves on, or it panics. -/
theorem advance_cases {action : RunAction σ} (h : s.advance env action = some (.ok s')) :
    Moved env s action s' := by
  cases action with
  | start scan previousBlockHash executor attempts =>
    unfold advance at h
    dsimp only at h
    split_ifs at h with hdue
    rw [Bool.and_eq_true, List.isPerm_iff] at hdue
    exact start_cases hdue.2 (Option.some.inj h)
  | newBatch previousBlockHash protocolVersion upgradeTx executor attempts =>
    obtain ⟨p, hp, h⟩ := Option.bind_eq_some_iff.mp h
    split at h
    · rename_i hphase
      exact newBatch_cases hp hphase (Option.some.inj h)
    · cases h
  | checkDeadlines batchDeadlinePassed miniblockDeadlinePassed attempts =>
    obtain ⟨p, hp, h⟩ := Option.bind_eq_some_iff.mp h
    split at h
    · rename_i hphase
      exact checkDeadlines_cases hp hphase (Option.some.inj h)
    · cases h
  | nextTx tx =>
    obtain ⟨p, hp, h⟩ := Option.bind_eq_some_iff.mp h
    split at h
    · rename_i hphase
      exact nextTx_cases hp hphase (Option.some.inj h)
    · cases h
  | finish attempts =>
    obtain ⟨p, hp, h⟩ := Option.bind_eq_some_iff.mp h
    split at h
    · rename_i hphase
      exact finish_cases hp hphase (Option.some.inj h)
    · cases h
  | sealL1Batch =>
    obtain ⟨p, hp, h⟩ := Option.bind_eq_some_iff.mp h
    split at h
    · rename_i hphase
      exact sealL1Batch_cases hp hphase h
    · cases h
  | writeMiniblock =>
    obtain ⟨p, hp, h⟩ := Option.bind_eq_some_iff.mp h
    split at h
    · rename_i hcommands
      exact writeMiniblock_cases hp hcommands (Option.some.inj h)
    · cases h
  | cancel =>
    obtain ⟨p, hp, h⟩ := Option.map_eq_some_iff.mp h
    cases h
    exact .stopped _ hp
  | crash =>
    cases h
    exact .crashed
  | statement statement =>
    obtain ⟨transactions, hexecute, h⟩ := Option.map_eq_some_iff.mp h
    cases h
    exact .statement hexecute

/-- An invariant of runs: it holds after what a step can do, and without a process. -/
theorem step_invariant (inv : RunState σ T → Prop) {action : RunAction σ}
    (hmoved : Moved env s action s' → inv s')
    (hpanic : ∀ panic, s.advance env action = some (.error panic) →
      inv (s.down (some panic)))
    (h : s.step env action = some s') : inv s' := by
  obtain ⟨result, hadvance, h⟩ := Option.map_eq_some_iff.mp h
  cases result with
  | ok s₁ =>
    subst h
    exact hmoved (advance_cases hadvance)
  | error panic =>
    subst h
    exact hpanic panic hadvance

/-- All updates of a state: those of the batch in progress, and those that the queue and the stored
miniblocks were made from. -/
structure Managers (P : UpdatesManager → Prop) (s : RunState σ T) : Prop where
  stored : ∀ updates, s.stored = some updates → P updates
  commands : ∀ p, s.process = some p → ∀ c ∈ p.commands, P c.updates
  phase : ∀ p updates, s.process = some p → p.phase.updates? = some updates → P updates

variable {P : UpdatesManager → Prop}

theorem Managers.atPhase (h : Managers P s) {p : SequencerProcess σ T} {phase : Phase σ T}
    (hcommands : ∀ c ∈ p.commands, P c.updates)
    (hphase : ∀ updates, phase.updates? = some updates → P updates) :
    Managers P (s.atPhase p phase) where
  stored := h.stored
  commands p' hp' := by
    cases hp'
    exact hcommands
  phase p' updates hp' hupdates := by
    cases hp'
    exact hphase updates hupdates

theorem Managers.down (h : Managers P s) (panic : Option RunPanic) : Managers P (s.down panic) where
  stored := h.stored
  commands _ hp := nomatch hp
  phase _ _ hp := nomatch hp

theorem Managers.sealMiniblock (h : Managers P s) {p : SequencerProcess σ T}
    (hp : s.process = some p) {updates : UpdatesManager} (hupdates : P updates) :
    ∀ c ∈ (p.sealMiniblock updates).commands, P c.updates := by
  intro c hc
  rcases List.mem_append.mp hc with hc | hc
  · exact h.commands p hp c hc
  · cases List.mem_singleton.mp hc
    exact hupdates

/-- A property of updates that holds of new ones and that the steps of a batch keep. -/
theorem Managers.moved (hnew : ∀ timestamp version, P (.new timestamp version))
    (hkept : Sequencer.Kept env fun batch => P batch.updates) (h : Managers P s)
    {action : RunAction σ} (hmoved : Moved env s action s') : Managers P s' := by
  cases hmoved with
  | started hprocess hheader =>
    have hcommands := commands_newProcess hprocess
    exact h.atPhase (by rw [hcommands]; exact nofun) nofun
  | @restored _ _ _ _ p _ params _ _ _ newTimestamp _ hprocess _ _ _ _ _ hbatch _ =>
    have hnone : ∀ c ∈ p.commands, P c.updates := by
      rw [commands_newProcess hprocess]
      exact nofun
    have hrestored := (hkept.reexecuteMiniblocks (hnew _ _) rfl hbatch).1
    cases newTimestamp with
    | none => exact h.atPhase hnone nofun
    | some newTimestamp =>
      refine h.atPhase hnone fun updates hupdates => ?_
      cases hupdates
      exact hkept hrestored (.pushMiniblock newTimestamp)
  | newBatch hp _ _ _ _ =>
    refine h.atPhase (h.commands _ hp) fun updates hupdates => ?_
    cases hupdates
    exact hnew _ _
  | deadlinePassed hp hphase _ =>
    refine h.atPhase (h.commands _ hp) fun updates hupdates => ?_
    exact h.phase _ updates hp (by rw [hphase]; exact hupdates)
  | unchanged => exact h
  | @sealedMiniblock _ _ _ _ _ _ newTimestamp hp hphase hnonempty _ =>
    have hbatch := h.phase _ _ hp (by rw [hphase]; rfl)
    cases newTimestamp with
    | none => exact h.atPhase (h.sealMiniblock hp hbatch) nofun
    | some newTimestamp =>
      refine h.atPhase (h.sealMiniblock hp hbatch) fun updates hupdates => ?_
      cases hupdates
      exact hkept hbatch (.sealMiniblock newTimestamp hnonempty)
  | @tried _ p _ batch _ batch₂ resolution _ hp hphase hone happly =>
    have hbatch : P batch.updates := h.phase _ _ hp (by rw [hphase]; rfl)
    have hbatch₂ : P batch₂.updates := hkept hbatch (Sequencer.stepped_processOneTx hone happly)
    refine ⟨h.stored, fun p' hp' => ?_, fun p' updates hp' hupdates => ?_⟩
    · cases hp'
      exact h.commands p hp
    · cases hp'
      cases hseal : resolution.shouldSeal with
      | true =>
        rw [hseal] at hupdates
        cases hupdates
        exact hbatch₂
      | false =>
        rw [hseal] at hupdates
        cases hupdates
        exact hbatch₂
  | finished hp hphase _ hfinished =>
    have hbatch := h.phase _ _ hp (by rw [hphase]; rfl)
    refine h.atPhase (h.commands _ hp) fun updates hupdates => ?_
    cases hupdates
    rw [hfinished]
    exact hbatch
  | @finishedMiniblock _ _ _ _ fictiveMiniblockTimestamp _ hp hphase hnonempty _ hfinished =>
    have hbatch := h.phase _ _ hp (by rw [hphase]; rfl)
    refine h.atPhase (h.sealMiniblock hp hbatch) fun updates hupdates => ?_
    cases hupdates
    rw [hfinished]
    exact hkept hbatch (.sealMiniblock fictiveMiniblockTimestamp hnonempty)
  | stoppedFinishing hp hphase _ =>
    have hbatch := h.phase _ _ hp (by rw [hphase]; rfl)
    exact h.atPhase (h.sealMiniblock hp hbatch) nofun
  | sealedBatch _ _ _ _ _ => exact ⟨nofun, by rintro _ ⟨⟩; exact nofun, by rintro _ _ ⟨⟩ ⟨⟩⟩
  | @wroteMiniblock p submission commands _ _ hp hcommands _ _ =>
    have hall := h.commands p hp
    rw [hcommands] at hall
    obtain ⟨hfirst, hrest⟩ := List.forall_mem_cons.mp hall
    refine ⟨fun updates hupdates => ?_, fun p' hp' => ?_, fun p' updates hp' hupdates => ?_⟩
    · cases hupdates
      exact hfirst
    · cases hp'
      exact hrest
    · cases hp'
      exact h.phase p updates hp hupdates
  | stopped _ hp => exact h.atPhase (h.commands _ hp) nofun
  | crashed => exact h.down s.panic
  | statement _ => exact ⟨h.stored, h.commands, h.phase⟩

theorem Managers.step (hnew : ∀ timestamp version, P (.new timestamp version))
    (hkept : Sequencer.Kept env fun batch => P batch.updates) (h : Managers P s)
    {action : RunAction σ} (hstep : s.step env action = some s') : Managers P s' :=
  step_invariant (Managers P) (fun hmoved => h.moved hnew hkept hmoved)
    (fun panic _ => h.down (some panic)) hstep

end RunState

end OlaOs
