import OlaOs.Sequencer.Restart

/-! The timestamps of miniblocks and batches along a run. -/
namespace OlaOs

open TransactionsDal

/-- The parameters and the updates of the batch in progress. -/
def Phase.opened? {σ T : Type} : Phase σ T → Option (L1BatchParams × UpdatesManager)
  | .waiting _ | .stopped => none
  | .processing params batch | .finishing params batch => some (params, batch.updates)
  | .sealing params finished => some (params, finished.updates)

namespace RunState

variable {σ T : Type} {env : SequencerEnv σ T} {s s' : RunState σ T} {p : SequencerProcess σ T}

/-- The readings of the clock in a step. -/
def attempts : RunAction σ → List (List ℕ)
  | .start _ _ _ attempts | .newBatch _ _ _ _ attempts | .checkDeadlines _ _ attempts
  | .finish attempts => attempts
  | _ => []

/-- The miniblocks of a queue. -/
def queued (commands : List Submission) : List MiniblockHeaderRow :=
  commands.map fun submission => submission.command.header

/-- The miniblocks of a run in their order: those in the database, then those in the queue. -/
def headers (s : RunState σ T) : List MiniblockHeaderRow :=
  s.tables.miniblocks ++ queued ((s.process.map SequencerProcess.commands).getD [])

/-- The panics that have nothing to do with timestamps. -/
def Unrelated (panic : RunPanic) : Prop :=
  panic ≠ .batchTimestampsDontMatch ∧ panic ≠ .timestampNotLarger ∧ ∀ e, panic ≠ .clock e

/-- The open batch after the miniblocks `headers`, of which `unsealed` are its own. -/
structure Opened (headers unsealed : List MiniblockHeaderRow) (params : L1BatchParams)
    (updates : UpdatesManager) : Prop where
  batchTimestamp : updates.batchTimestamp = params.blockTimestamp
  later : ∀ row ∈ headers, row.timestamp < updates.miniblock.timestamp
  small : updates.miniblock.timestamp.val < 2 ^ 50
  first : (unsealed.head?.map MiniblockHeaderRow.timestamp).getD updates.miniblock.timestamp =
    params.blockTimestamp

/-- A miniblock of the open batch is sealed, and the next one has a later timestamp. -/
theorem Opened.push {headers unsealed : List MiniblockHeaderRow} {params : L1BatchParams}
    {updates : UpdatesManager} (h : Opened headers unsealed params updates)
    (header : MiniblockHeaderRow) (hheader : header.timestamp = updates.miniblock.timestamp)
    {newTimestamp : U64} (hlater : updates.miniblock.timestamp < newTimestamp)
    (hsmall : newTimestamp.val < 2 ^ 50) :
    Opened (headers ++ [header]) (unsealed ++ [header]) params
      (updates.pushMiniblock newTimestamp) where
  batchTimestamp := h.batchTimestamp
  later row hrow := by
    rcases List.mem_append.mp hrow with hrow | hrow
    · exact (h.later row hrow).trans hlater
    · cases List.mem_singleton.mp hrow
      rw [hheader]
      exact hlater
  small := hsmall
  first := by
    have hfirst := h.first
    cases unsealed with
    | nil =>
      rw [List.nil_append, List.head?_cons, Option.map_some, Option.getD_some, hheader]
      exact hfirst
    | cons first unsealed => exact hfirst

/-- The same open batch with the same timestamps. -/
theorem Opened.congr {headers unsealed : List MiniblockHeaderRow} {params : L1BatchParams}
    {updates updates' : UpdatesManager} (h : Opened headers unsealed params updates)
    (hbatch : updates'.batchTimestamp = updates.batchTimestamp)
    (hminiblock : updates'.miniblock.timestamp = updates.miniblock.timestamp) :
    Opened headers unsealed params updates' := by
  obtain ⟨hb, hl, hs, hf⟩ := h
  exact ⟨hbatch.trans hb, hminiblock.symm ▸ hl, hminiblock.symm ▸ hs, hminiblock.symm ▸ hf⟩

/-- The timestamps of a state of a run. -/
structure TimeInv (s : RunState σ T) : Prop where
  increasing : s.headers.Pairwise fun a b => a.timestamp < b.timestamp
  small : ∀ row ∈ s.headers, row.timestamp.val < 2 ^ 50
  batches : s.tables.l1Batches.Pairwise fun a b => a.timestamp < b.timestamp
  first : ∀ batch ∈ s.tables.l1Batches,
    (s.tables.miniblocks.find? fun row => row.l1BatchNumber = some (asI32 batch.number)).map
      MiniblockHeaderRow.timestamp = some batch.timestamp
  opened : ∀ p params updates, s.process = some p → p.phase.opened? = some (params, updates) →
    Opened s.headers (s.tables.pendingMiniblocks ++ queued p.commands) params updates
  panic : ∀ panic, s.panic = some panic → Unrelated panic

theorem headers_of_process (hp : s.process = some p) :
    s.headers = s.tables.miniblocks ++ queued p.commands := by
  unfold headers
  rw [hp]
  rfl

theorem headers_down (panic : Option RunPanic) : (s.down panic).headers = s.tables.miniblocks :=
  List.append_nil _

theorem TimeInv.down (h : TimeInv s) {panic : Option RunPanic}
    (hpanic : ∀ e, panic = some e → Unrelated e) : TimeInv (s.down panic) where
  increasing := by
    rw [headers_down]
    exact (List.pairwise_append.mp h.increasing).1
  small := by
    rw [headers_down]
    exact fun row hrow => h.small row (List.mem_append_left _ hrow)
  batches := h.batches
  first := h.first
  opened _ _ _ hp := nomatch hp
  panic := hpanic

/-- Another component changes the `transactions` table. -/
theorem TimeInv.transactions (h : TimeInv s) (transactions : List TransactionRow) :
    TimeInv { s with tables := { s.tables with transactions := transactions } } :=
  ⟨h.increasing, h.small, h.batches, h.first, h.opened, h.panic⟩

/-- A process with the same queue in another phase. -/
theorem TimeInv.atPhase (h : TimeInv s) (hp : s.process = some p) {phase : Phase σ T}
    (hopened : ∀ params updates, phase.opened? = some (params, updates) →
      Opened s.headers (s.tables.pendingMiniblocks ++ queued p.commands) params updates) :
    TimeInv (s.atPhase p phase) := by
  have hheaders : (s.atPhase p phase).headers = s.headers := by
    rw [headers_of_process hp]
    rfl
  refine ⟨hheaders ▸ h.increasing, hheaders ▸ h.small, h.batches, h.first, ?_, h.panic⟩
  intro p' params updates hp' hphase
  cases hp'
  rw [hheaders]
  exact hopened params updates hphase

/-- A miniblock goes into the queue, and the process into another phase. -/
theorem TimeInv.sealMiniblock (h : TimeInv s) (hp : s.process = some p) {params : L1BatchParams}
    {updates : UpdatesManager} (hphase : p.phase.opened? = some (params, updates))
    {phase : Phase σ T}
    (hopened : ∀ params' updates', phase.opened? = some (params', updates') →
      params' = params ∧ ∃ newTimestamp, updates' = updates.pushMiniblock newTimestamp ∧
        updates.miniblock.timestamp < newTimestamp ∧ newTimestamp.val < 2 ^ 50) :
    TimeInv (s.atPhase (p.sealMiniblock updates) phase) := by
  have hopen := h.opened p params updates hp hphase
  have hqueued : queued (p.sealMiniblock updates).commands = queued p.commands ++
      [(updates.sealMiniblockCommand p.currentL1BatchNumber p.currentMiniblockNumber).header] :=
    List.map_append
  have hheaders : (s.atPhase (p.sealMiniblock updates) phase).headers = s.headers ++
      [(updates.sealMiniblockCommand p.currentL1BatchNumber p.currentMiniblockNumber).header] := by
    rw [headers_of_process hp, List.append_assoc, ← hqueued]
    rfl
  refine ⟨?_, ?_, h.batches, h.first, fun p' params' updates' hp' hphase' => ?_, h.panic⟩
  · rw [hheaders]
    refine List.pairwise_append.mpr ⟨h.increasing, List.pairwise_singleton _ _, ?_⟩
    intro row hrow other hother
    cases List.mem_singleton.mp hother
    exact hopen.later row hrow
  · rw [hheaders]
    intro row hrow
    rcases List.mem_append.mp hrow with hrow | hrow
    · exact h.small row hrow
    · cases List.mem_singleton.mp hrow
      exact hopen.small
  · cases hp'
    obtain ⟨rfl, newTimestamp, rfl, hlater, hsmall⟩ := hopened params' updates' hphase'
    rw [hheaders]
    show Opened _ (s.tables.pendingMiniblocks ++ queued (p.sealMiniblock updates).commands) _ _
    rw [hqueued, ← List.append_assoc]
    exact hopen.push _ rfl hlater hsmall

/-- The first miniblock of the open batch is later than every sealed batch. -/
theorem TimeInv.batch_lt (h : TimeInv s) (hblocks : BlocksInv s) (hp : s.process = some p)
    {params : L1BatchParams} {updates : UpdatesManager}
    (hphase : p.phase.opened? = some (params, updates)) :
    ∀ batch ∈ s.tables.l1Batches, batch.timestamp < params.blockTimestamp := by
  intro batch hbatch
  have hopen := h.opened p params updates hp hphase
  have hheaders : s.headers = s.tables.sealedMiniblocks ++
      (s.tables.pendingMiniblocks ++ queued p.commands) := by
    rw [headers_of_process hp, ← List.append_assoc, ← hblocks.chain.split]
  obtain ⟨row, hrow, htimestamp⟩ := Option.map_eq_some_iff.mp (h.first batch hbatch)
  have hsealed : row ∈ s.tables.sealedMiniblocks := by
    refine List.mem_filter.mpr ⟨List.mem_of_find?_eq_some hrow, ?_⟩
    have hsome := List.find?_some hrow
    rw [decide_eq_true_eq] at hsome
    rw [hsome]
    rfl
  rw [← htimestamp, ← hopen.first]
  cases hunsealed : s.tables.pendingMiniblocks ++ queued p.commands with
  | nil => exact hopen.later row (hheaders ▸ List.mem_append_left _ hsealed)
  | cons first unsealed =>
    have hincreasing := h.increasing
    rw [hheaders, hunsealed] at hincreasing
    exact (List.pairwise_append.mp hincreasing).2.2 row hsealed first List.mem_cons_self

/-- The miniblock sealer stores the first miniblock of the queue. -/
theorem TimeInv.writeMiniblock (h : TimeInv s) (hblocks : BlocksInv s) (hp : s.process = some p)
    {submission : Submission} {commands : List Submission}
    (hcommands : p.commands = submission :: commands) {tables : SequencerTables}
    {transactions : List TransactionRow}
    (hinsert : s.tables.insertMiniblock submission.command.header = .ok tables) :
    TimeInv {
      tables := { tables with transactions := transactions }
      process := some { p with commands := commands }
      panic := s.panic
      stored := some submission.updates } := by
  obtain ⟨-, hrows, hbatches⟩ := hblocks.insertMiniblock hp hcommands hinsert
  have hheaders : tables.miniblocks ++ queued commands = s.headers := by
    rw [headers_of_process hp, hrows, hcommands, List.append_assoc]
    rfl
  refine ⟨?_, ?_, hbatches ▸ h.batches, fun batch hbatch => ?_,
    fun p' params updates hp' hphase => ?_, h.panic⟩
  · show (tables.miniblocks ++ queued commands).Pairwise _
    rw [hheaders]
    exact h.increasing
  · show ∀ row ∈ tables.miniblocks ++ queued commands, _
    rw [hheaders]
    exact h.small
  · have hfirst := h.first batch (hbatches ▸ hbatch)
    obtain ⟨row, hrow, -⟩ := Option.map_eq_some_iff.mp hfirst
    rw [hrow] at hfirst
    rw [hrows, List.find?_append, hrow]
    exact hfirst
  · cases hp'
    show Opened (tables.miniblocks ++ queued commands)
      (tables.pendingMiniblocks ++ queued commands) _ _
    rw [hheaders, SequencerTables.pendingMiniblocks_append rfl hrows, List.append_assoc]
    have hopen := h.opened p params updates hp hphase
    rw [hcommands] at hopen
    exact hopen

/-- A batch is sealed with the timestamp of its first miniblock. -/
theorem first_insertBatch {t : SequencerTables} (hchain : Chain t) {batchNumber : ℕ}
    (hbatchNumber : batchNumber = t.l1Batches.length) (hlt : t.l1Batches.length < 2 ^ 32)
    {fictive : MiniblockHeaderRow} (hnone : fictive.l1BatchNumber = none) {timestamp : U64}
    (hold : ∀ batch ∈ t.l1Batches,
      (t.miniblocks.find? fun row => row.l1BatchNumber = some (asI32 batch.number)).map
        MiniblockHeaderRow.timestamp = some batch.timestamp)
    (hnew : (t.pendingMiniblocks ++ [fictive]).head?.map MiniblockHeaderRow.timestamp =
      some timestamp) :
    ∀ batch ∈ t.l1Batches ++ [⟨batchNumber, timestamp⟩],
      (((t.miniblocks ++ [fictive]).map (·.markBatch batchNumber)).find? fun row =>
        row.l1BatchNumber = some (asI32 batch.number)).map MiniblockHeaderRow.timestamp =
          some batch.timestamp := by
  subst hbatchNumber
  rw [hchain.map_markBatch hnone]
  intro batch hbatch
  rw [List.find?_append]
  rcases List.mem_append.mp hbatch with hbatch | hbatch
  · have hfirst := hold batch hbatch
    -- a miniblock of the open batch has no batch yet
    have hpending : t.pendingMiniblocks.find? (fun row =>
        row.l1BatchNumber = some (asI32 batch.number)) = none := by
      refine List.find?_eq_none.mpr fun row hrow heq => ?_
      rw [decide_eq_true_eq, SequencerTables.pending_none hrow] at heq
      cases heq
    rw [hchain.split, List.find?_append, hpending, Option.or_none] at hfirst
    obtain ⟨row, hrow, -⟩ := Option.map_eq_some_iff.mp hfirst
    rw [hrow] at hfirst ⊢
    exact hfirst
  · cases List.mem_singleton.mp hbatch
    -- no sealed miniblock has the new number, so the first one is that of the open batch
    have hsealed : t.sealedMiniblocks.find? (fun row =>
        row.l1BatchNumber = some (asI32 t.l1Batches.length)) = none := by
      refine List.find?_eq_none.mpr fun row hrow heq => ?_
      obtain ⟨n, hn, hrowBatch⟩ := hchain.sealed_batch row hrow
      rw [decide_eq_true_eq, hrowBatch] at heq
      have hsame := asI32_injOn (Nat.lt_trans hn hlt) hlt (Option.some.inj heq)
      omega
    rw [hsealed, Option.none_or]
    cases hunsealed : t.pendingMiniblocks ++ [fictive] with
    | nil =>
      rw [hunsealed] at hnew
      cases hnew
    | cons first rest =>
      rw [hunsealed] at hnew
      rw [List.map_cons, List.find?_cons_of_pos (by simp)]
      exact hnew

/-- The fictive miniblock and the batch are stored. -/
theorem TimeInv.sealL1Batch (h : TimeInv s) (hblocks : BlocksInv s) (hp : s.process = some p)
    {params : L1BatchParams} {finished : FinishedBatch T}
    (hphase : p.phase = .sealing params finished) (hcommands : p.commands = [])
    {prevTimestamp : U64} {tables : SequencerTables}
    (htables : s.insertBatch p params finished.updates prevTimestamp = .ok tables)
    (version : Option ProtocolVersionId) :
    TimeInv ({
      tables := tables
      process := some {
        currentL1BatchNumber := succU32 p.currentL1BatchNumber
        currentMiniblockNumber := succU32 p.currentMiniblockNumber
        commands := []
        phase := .waiting version }
      panic := s.panic
      stored := none } : RunState σ T) := by
  have hphase' : p.phase.opened? = some (params, finished.updates) := by
    rw [hphase]
    rfl
  have hlt := h.batch_lt hblocks hp hphase'
  have hopen := h.opened p _ _ hp hphase'
  obtain ⟨-, hbatchNumber, hbatchLt⟩ := hblocks.insertBatch hp hcommands htables
  obtain ⟨-, -, -, rfl⟩ := insertBatch_eq_ok htables
  have hheaders : s.headers = s.tables.miniblocks := by
    rw [headers_of_process hp, hcommands]
    exact List.append_nil _
  rw [hheaders, hcommands, show queued [] = [] from rfl, List.append_nil] at hopen
  have hfirst : (s.tables.pendingMiniblocks ++ [(finished.updates.sealMiniblockCommand
      p.currentL1BatchNumber p.currentMiniblockNumber).header]).head?.map
        MiniblockHeaderRow.timestamp = some params.blockTimestamp := by
    have hfirst := hopen.first
    cases hpending : s.tables.pendingMiniblocks with
    | nil =>
      rw [hpending] at hfirst
      exact congrArg some hfirst
    | cons first pending =>
      rw [hpending] at hfirst
      exact congrArg some hfirst
  have hincreasing := h.increasing
  have hsmall := h.small
  rw [hheaders] at hincreasing hsmall
  refine ⟨?_, ?_, ?_, first_insertBatch hblocks.chain hbatchNumber hbatchLt rfl h.first hfirst,
    fun p' params' updates' hp' hopened => ?_, h.panic⟩
  · show (List.map _ _ ++ queued []).Pairwise _
    rw [show queued [] = [] from rfl, List.append_nil, List.pairwise_map]
    refine List.pairwise_append.mpr ⟨hincreasing, List.pairwise_singleton _ _, ?_⟩
    intro row hrow other hother
    cases List.mem_singleton.mp hother
    exact hopen.later row hrow
  · show ∀ row ∈ List.map _ _ ++ queued [], _
    rw [show queued [] = [] from rfl, List.append_nil]
    intro row' hrow'
    obtain ⟨row, hrow, rfl⟩ := List.mem_map.mp hrow'
    rcases List.mem_append.mp hrow with hrow | hrow
    · exact hsmall row hrow
    · cases List.mem_singleton.mp hrow
      exact hopen.small
  · refine List.pairwise_append.mpr ⟨h.batches, List.pairwise_singleton _ _, ?_⟩
    intro batch hbatch other hother
    cases List.mem_singleton.mp hother
    exact hlt batch hbatch
  · cases hp'
    cases hopened

/-- A process starts. -/
theorem TimeInv.started (h : TimeInv s) (hblocks : BlocksInv s) (hp : s.newProcess = .ok p)
    {phase : Phase σ T}
    (hopened : ∀ params updates, phase.opened? = some (params, updates) →
      Opened s.tables.miniblocks s.tables.pendingMiniblocks params updates) :
    TimeInv (s.atPhase p phase) := by
  have hdown := h.down h.panic
  obtain rfl := newProcess_eq hblocks.chain hp
  refine ⟨hdown.increasing, hdown.small, h.batches, h.first,
    fun p' params updates hp' hphase => ?_, h.panic⟩
  cases hp'
  show Opened (s.tables.miniblocks ++ queued []) (s.tables.pendingMiniblocks ++ queued []) _ _
  rw [show queued [] = [] from rfl, List.append_nil, List.append_nil]
  exact hopened params updates hphase

theorem TimeInv.le_newest (h : TimeInv s) {newest : MiniblockHeaderRow}
    (hnewest : s.tables.miniblocks.getLast? = some newest) {row : MiniblockHeaderRow}
    (hrow : row ∈ s.tables.miniblocks) : row.timestamp ≤ newest.timestamp := by
  rcases SortedGroups.pairwise_getLast? (List.pairwise_append.mp h.increasing).1 hrow hnewest with
    rfl | hlt
  · exact le_refl _
  · exact le_of_lt hlt

/-- The timestamp that a new batch has to exceed is that of the newest miniblock. -/
theorem TimeInv.newBatch (h : TimeInv s) (hblocks : BlocksInv s) (hp : s.process = some p)
    {version : Option ProtocolVersionId} (hphase : p.phase = .waiting version)
    {prevMiniblockTimestamp timestamp : U64}
    (hprev : s.tables.getMiniblockTimestamp (predU32 p.currentMiniblockNumber) =
      some prevMiniblockTimestamp) (hlater : prevMiniblockTimestamp < timestamp)
    (hsmall : timestamp.val < 2 ^ 50) {params : L1BatchParams}
    (hparams : params.blockTimestamp = timestamp) (executor : σ) :
    TimeInv (s.atPhase p (.processing params (newBatchState params executor))) := by
  have hcounted := hblocks.process p hp
  obtain ⟨hpending, hcommands⟩ := hcounted.waiting version hphase
  have hminiblock := hcounted.miniblockNumber
  have hlength := hblocks.chain.length_eq
  have hle := hblocks.chain.length_le
  have hpos := hblocks.chain.sealed_pos
  rw [hcommands, List.length_nil] at hminiblock
  have hpred : predU32 p.currentMiniblockNumber = s.tables.miniblocks.length - 1 := by
    unfold predU32
    omega
  unfold SequencerTables.getMiniblockTimestamp at hprev
  rw [hpred, hblocks.chain.getMiniblockHeader, ← List.getLast?_eq_getElem?] at hprev
  obtain ⟨newest, hnewest, htimestamp⟩ := Option.map_eq_some_iff.mp hprev
  refine h.atPhase hp fun params' updates' hopened => ?_
  cases hopened
  rw [headers_of_process hp, hpending, hcommands, show queued [] = [] from rfl, List.append_nil,
    List.append_nil]
  refine ⟨rfl, fun row hrow => ?_, ?_, rfl⟩
  · show row.timestamp < params.blockTimestamp
    rw [hparams]
    exact lt_of_le_of_lt (htimestamp ▸ h.le_newest hnewest hrow) hlater
  · show params.blockTimestamp.val < 2 ^ 50
    rw [hparams]
    exact hsmall

/-- A step that does not panic keeps the timestamps in order. -/
theorem TimeInv.moved (h : TimeInv s) (hrows : RowsInv s) (hblocks : BlocksInv s)
    {action : RunAction σ} (hclock : ∀ readings ∈ attempts action, Clock.InRange readings)
    (hrestorable : s.restorable action = true) (hmoved : Moved env s action s') : TimeInv s' := by
  cases hmoved with
  | started hp hheader =>
    exact h.started hblocks hp nofun
  | @restored _ _ _ _ p header params _ batch _ newTimestamp hscan hp hheader htimestamp _
      hpending hnonempty hbatch hretry =>
    obtain ⟨hfirst, hbatchTimestamp, hnewest⟩ :=
      restored_timestamp hblocks.chain hrows.inRange hscan hp
      hheader (restorable_start hrestorable hp hheader) hpending hnonempty htimestamp hbatch
    obtain ⟨newest, hnewest, hlast⟩ := Option.map_eq_some_iff.mp hnewest
    cases newTimestamp with
    | none => exact h.started hblocks hp nofun
    | some newTimestamp =>
      have hsmall : batch.updates.miniblock.timestamp.val < 2 ^ 50 := by
        rw [← hlast]
        exact h.small newest (List.mem_append_left _ (List.mem_of_getLast? hnewest))
      obtain ⟨hlater, hnewSmall⟩ := Clock.retry_some hsmall hclock hretry
      refine h.started hblocks hp fun params' updates' hopened => ?_
      cases hopened
      refine ⟨hbatchTimestamp, fun row hrow => ?_, hnewSmall, ?_⟩
      · exact lt_of_le_of_lt (hlast ▸ h.le_newest hnewest hrow) hlater
      · rw [hfirst]
        exact htimestamp.symm
  | newBatch hp hphase hprev hretry hparams =>
    obtain ⟨row, hrow, htimestamp⟩ := Option.map_eq_some_iff.mp hprev
    obtain ⟨hlater, hsmall⟩ := Clock.retry_some (htimestamp ▸ h.small row
      (List.mem_append_left _ (List.mem_of_find?_eq_some hrow))) hclock hretry
    exact h.newBatch hblocks hp hphase hprev hlater hsmall hparams _
  | deadlinePassed hp hphase _ =>
    refine h.atPhase hp fun params' updates' hopened => ?_
    exact h.opened _ params' updates' hp (by rw [hphase]; exact hopened)
  | unchanged => exact h
  | @sealedMiniblock _ _ _ p params batch newTimestamp hp hphase _ hretry =>
    have hopened : p.phase.opened? = some (params, batch.updates) := by
      rw [hphase]
      rfl
    have hsmall := (h.opened p _ _ hp hopened).small
    cases newTimestamp with
    | none => exact h.sealMiniblock hp hopened nofun
    | some newTimestamp =>
      refine h.sealMiniblock hp hopened fun params' updates' hopened' => ?_
      cases hopened'
      exact ⟨rfl, newTimestamp, rfl, Clock.retry_some hsmall hclock hretry⟩
  | @tried tx p params batch _ batch₂ resolution _ hp hphase hone happly =>
    obtain ⟨hbatch, hminiblock⟩ := Sequencer.timestamp_processOneTx hone happly
    have hopened := h.opened p params batch.updates hp (by rw [hphase]; rfl)
    have hedited := h.transactions (markRejected s.tables.transactions tx resolution)
    refine hedited.atPhase hp fun params' updates' hphase' => ?_
    have hsame : (params', updates') = (params, batch₂.updates) := by
      cases hseal : resolution.shouldSeal with
      | true =>
        rw [hseal] at hphase'
        exact (Option.some.inj hphase').symm
      | false =>
        rw [hseal] at hphase'
        exact (Option.some.inj hphase').symm
    cases hsame
    exact hopened.congr hbatch hminiblock
  | @finished _ p params batch finished hp hphase _ hfinished =>
    refine h.atPhase hp fun params' updates' hopened => ?_
    cases hopened
    rw [hfinished]
    exact h.opened p params batch.updates hp (by rw [hphase]; rfl)
  | @finishedMiniblock _ p params batch fictiveMiniblockTimestamp finished hp hphase _ hretry
      hfinished =>
    have hopened : p.phase.opened? = some (params, batch.updates) := by
      rw [hphase]
      rfl
    have hsmall := (h.opened p _ _ hp hopened).small
    refine h.sealMiniblock hp hopened fun params' updates' hopened' => ?_
    cases hopened'
    exact ⟨rfl, fictiveMiniblockTimestamp, hfinished, Clock.retry_some hsmall hclock hretry⟩
  | @stoppedFinishing _ p params batch hp hphase _ =>
    exact h.sealMiniblock hp
      (show p.phase.opened? = some (params, batch.updates) by rw [hphase]; rfl) nofun
  | sealedBatch hp hphase hcommands _ htables =>
    exact h.sealL1Batch hblocks hp hphase hcommands htables _
  | wroteMiniblock hp hcommands hinsert _ =>
    exact h.writeMiniblock hblocks hp hcommands hinsert
  | stopped _ hp => exact h.atPhase hp nofun
  | crashed => exact h.down h.panic
  | statement _ => exact h.transactions _

/-- Two miniblocks of one transaction each, at 10 and 11 seconds. The process is stopped before the
second one is stored. -/
def sampleStopped : List (RunAction (List (TxExeResult U64))) :=
  sampleFetched Sequencer.sampleEnv ++ [
    .start (tableAfter Sequencer.sampleEnv (sampleFetched Sequencer.sampleEnv)) 0 [] [],
    .newBatch 0 0 none [] [[10000]], .nextTx (sampleTx 1).intoTransaction,
    .checkDeadlines false true [[11000]], .writeMiniblock, .nextTx (sampleTx 2).intoTransaction,
    .checkDeadlines false true []]

end RunState

end OlaOs
