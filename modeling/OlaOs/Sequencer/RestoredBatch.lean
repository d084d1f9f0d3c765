import OlaOs.Dal.StoredBlocks
import OlaOs.Sequencer.Rebuild

/-! The open batch along a run: its stored miniblocks against the executions that they were made of,
and what a restarted sequencer restores. -/
namespace OlaOs

open TransactionsDal

def Phase.params? {σ T : Type} : Phase σ T → Option L1BatchParams
  | .waiting _ | .stopped => none
  | .processing params _ | .finishing params _ | .sealing params _ => some params

namespace RunState

open Sequencer

variable {σ T : Type} {env : SequencerEnv σ T} {vm : VmModel T} {batchHash : ℕ → U256}
  {s s' : RunState σ T} {params : L1BatchParams} {done : List Block}

/-- The updates of a batch in the order in which they were taken, each made of one more
miniblock. -/
def Queue (env : SequencerEnv σ T) (vm : VmModel T) (params : L1BatchParams) :
    List Block → List UpdatesManager → Prop
  | _, [] => True
  | done, updates :: line =>
    ∃ block, Tracks env vm params done block updates ∧ Queue env vm params (done ++ [block]) line

variable {line line' : List UpdatesManager} {updates updates' : UpdatesManager}

theorem Queue.front (h : Queue env vm params done (line ++ line')) :
    Queue env vm params done line := by
  induction line generalizing done with
  | nil => trivial
  | cons first line ih =>
    obtain ⟨block, htracks, hrest⟩ := h
    exact ⟨block, htracks, ih hrest⟩

/-- The last updates are replaced by others of the same miniblocks, or followed by new ones. -/
theorem Queue.next (h : Queue env vm params done (line ++ [updates]))
    (hnext : ∀ {done block}, Tracks env vm params done block updates →
      Queue env vm params done line') : Queue env vm params done (line ++ line') := by
  induction line generalizing done with
  | nil =>
    obtain ⟨block, htracks, -⟩ := h
    exact hnext htracks
  | cons first line ih =>
    obtain ⟨block, htracks, hrest⟩ := h
    exact ⟨block, htracks, ih hrest⟩

theorem Queue.push (h : Queue env vm params done (line ++ [updates])) (timestamp : U64) :
    Queue env vm params done (line ++ [updates] ++ [updates.pushMiniblock timestamp]) := by
  rw [List.append_assoc]
  exact h.next fun htracks => ⟨_, htracks, _, htracks.push timestamp, trivial⟩

/-- The batch with the parameters `params`, of which the miniblocks `done` are stored. -/
structure OpenBatch (env : SequencerEnv σ T) (vm : VmModel T) (batchHash : ℕ → U256)
    (params : L1BatchParams) (done : List Block) (s : RunState σ T) : Prop where
  blockNumber : params.blockNumber = s.tables.l1Batches.length % 2 ^ 32
  previousBlockHash : params.previousBlockHash = batchHash params.blockNumber
  batches_le : s.tables.l1Batches.length ≤ s.tables.sealedMiniblocks.length
  headers : s.tables.pendingMiniblocks.map (fun row => (row.timestamp, row.protocolVersion)) =
    done.map fun block => (block.timestamp, some params.protocolVersion)
  rows : (pendingPositions s.tables.transactions).Perm
    (positions s.tables.sealedMiniblocks.length (done.map Block.txs))
  idle : Idle s.tables.transactions
  nonempty : ∀ block ∈ done, block.txs ≠ []
  stored : ∀ updates, s.stored = some updates →
    ∃ front block, done = front ++ [block] ∧ Tracks env vm params front block updates
  queue : ∀ p, s.process = some p → Queue env vm params done p.line
  commands : ∀ p, s.process = some p → ∀ c ∈ p.commands,
    c.updates.miniblock.executedTransactions ≠ []
  phase : ∀ p params', s.process = some p → p.phase.params? = some params' → params' = params

theorem OpenBatch.atPhase (h : OpenBatch env vm batchHash params done s) {p : SequencerProcess σ T}
    {phase : Phase σ T}
    (hqueue : Queue env vm params done (p.commands.map Submission.updates ++ phase.updates?.toList))
    (hcommands : ∀ c ∈ p.commands, c.updates.miniblock.executedTransactions ≠ [])
    (hparams : ∀ params', phase.params? = some params' → params' = params) :
    OpenBatch env vm batchHash params done (s.atPhase p phase) := by
  refine ⟨h.blockNumber, h.previousBlockHash, h.batches_le, h.headers, h.rows, h.idle, h.nonempty,
    h.stored, ?_, ?_, ?_⟩
  · rintro p' ⟨⟩
    exact hqueue
  · rintro p' ⟨⟩
    exact hcommands
  · rintro p' params' ⟨⟩
    exact hparams params'

theorem OpenBatch.down (h : OpenBatch env vm batchHash params done s) (panic : Option RunPanic) :
    OpenBatch env vm batchHash params done (s.down panic) :=
  ⟨h.blockNumber, h.previousBlockHash, h.batches_le, h.headers, h.rows, h.idle, h.nonempty,
    h.stored, nofun, nofun, nofun⟩

/-- Another component edits the table. -/
theorem OpenBatch.edit (h : OpenBatch env vm batchHash params done s) {table : List TransactionRow}
    (hedited : Edited s.tables.transactions table) :
    OpenBatch env vm batchHash params done
      { s with tables := { s.tables with transactions := table } } := by
  obtain ⟨hpositions, hidle⟩ := hedited.pending h.idle
  refine ⟨h.blockNumber, h.previousBlockHash, h.batches_le, h.headers, ?_, hidle, h.nonempty,
    h.stored, h.queue, h.commands, h.phase⟩
  show (pendingPositions table).Perm _
  rw [hpositions]
  exact h.rows

theorem OpenBatch.length (h : OpenBatch env vm batchHash params done s) :
    done.length = s.tables.pendingMiniblocks.length := by
  have hlength := congrArg List.length h.headers
  rw [List.length_map, List.length_map] at hlength
  exact hlength.symm

/-- The updates that a miniblock is sealed from. -/
theorem OpenBatch.sealMiniblock (h : OpenBatch env vm batchHash params done s)
    {p : SequencerProcess σ T} (hp : s.process = some p) {updates : UpdatesManager}
    (hupdates : p.phase.updates? = some updates)
    (hnonempty : updates.miniblock.executedTransactions ≠ []) {phase : Phase σ T}
    (hphase : ∀ updates', phase.updates? = some updates' →
      ∃ timestamp, updates' = updates.pushMiniblock timestamp)
    (hparams : ∀ params', phase.params? = some params' → params' = params) :
    OpenBatch env vm batchHash params done (s.atPhase (p.sealMiniblock updates) phase) := by
  have hline : p.line = p.commands.map Submission.updates ++ [updates] := by
    unfold SequencerProcess.line
    rw [hupdates]
    rfl
  have hqueue := h.queue p hp
  rw [hline] at hqueue
  refine h.atPhase ?_ ?_ hparams
  · have hcommands : (p.sealMiniblock updates).commands.map Submission.updates =
        p.commands.map Submission.updates ++ [updates] := by
      simp [SequencerProcess.sealMiniblock]
    rw [hcommands]
    cases hnext : phase.updates? with
    | none =>
      rw [Option.toList_none, List.append_nil]
      exact hqueue
    | some updates' =>
      obtain ⟨timestamp, rfl⟩ := hphase updates' hnext
      exact hqueue.push timestamp
  · intro c hc
    rcases List.mem_append.mp hc with hc | hc
    · exact h.commands p hp c hc
    · cases List.mem_singleton.mp hc
      exact hnonempty

/-- The miniblocks that a restarted sequencer reads, with the transactions of their rows. -/
def reexecuteData (rows : List MiniblockHeaderRow) (blocks : List (List Transaction)) :
    List MiniblockReexecuteData :=
  rows.zipWith (fun row txs => ⟨row.number, row.timestamp, txs⟩) blocks

theorem map_block_reexecuteData {rows : List MiniblockHeaderRow} {version : ProtocolVersionId}
    (h : rows.map (fun row => (row.timestamp, row.protocolVersion)) =
      done.map fun block => (block.timestamp, some version)) :
    (reexecuteData rows (done.map Block.txs)).map MiniblockReexecuteData.block = done := by
  unfold reexecuteData
  induction done generalizing rows with
  | nil =>
    rw [List.map_nil, List.zipWith_nil_right]
    rfl
  | cons block done ih =>
    cases rows with
    | nil => cases h
    | cons row rows =>
      obtain ⟨hrow, hrows⟩ := List.cons.inj h
      rw [List.map_cons, List.zipWith_cons_cons, List.map_cons, ih hrows]
      congr 1
      unfold MiniblockReexecuteData.block
      rw [(Prod.mk.inj hrow).1]

/-- The numbers of the rows of stored miniblocks survived their casts. -/
theorem OpenBatch.sealed_lt (h : OpenBatch env vm batchHash params done s) (hrows : RowsInv s)
    (hdone : done ≠ []) : s.tables.sealedMiniblocks.length < 2 ^ 31 := by
  obtain ⟨block, rest, rfl⟩ := List.exists_cons_of_ne_nil hdone
  obtain ⟨tx, txs, htxs⟩ := List.exists_cons_of_ne_nil (h.nonempty block List.mem_cons_self)
  have hposition : (⟨some (s.tables.sealedMiniblocks.length : ℤ), some ((0 : ℕ) : ℤ), .ok tx⟩ :
      Position) ∈ positions s.tables.sealedMiniblocks.length ((block :: rest).map Block.txs) := by
    unfold positions
    rw [List.map_cons, numberedPositions, List.flatMap_cons]
    refine List.mem_append_left _ (mem_blockPositions.mpr ⟨0, tx, ?_, rfl⟩)
    rw [htxs]
    rfl
  obtain ⟨row, hrow, heq⟩ := List.mem_map.mp (h.rows.mem_iff.mpr hposition)
  have hnumber : row.miniblockNumber = some (s.tables.sealedMiniblocks.length : ℤ) :=
    congrArg Position.miniblockNumber heq
  have hrange := hrows.inRange row (List.mem_of_mem_filter hrow) _ hnumber
  omega

/-- The newest sealed batch has a miniblock. -/
theorem exists_lastMiniblockOfL1Batch {t : SequencerTables} (h : Chain t)
    (hle : t.l1Batches.length ≤ 2 ^ 31) :
    ∃ last, t.lastMiniblockOfL1Batch (t.l1Batches.length - 1) = some last := by
  obtain ⟨row, hlast, hbatch⟩ := h.sealed_last
  have hpos := h.batches_pos
  rw [asI32_of_lt (by omega)] at hbatch
  have hmem : row ∈ t.miniblocks := List.mem_of_mem_filter (List.mem_of_getLast? hlast)
  have hne : ((t.miniblocks.filter fun row =>
      row.l1BatchNumber = some ((t.l1Batches.length - 1 : ℕ) : ℤ)).map
        MiniblockHeaderRow.number) ≠ [] :=
    List.ne_nil_of_mem (List.mem_map_of_mem (List.mem_filter.mpr ⟨hmem, decide_eq_true hbatch⟩))
  unfold SequencerTables.lastMiniblockOfL1Batch
  cases hmax : ((t.miniblocks.filter fun row =>
      row.l1BatchNumber = some ((t.l1Batches.length - 1 : ℕ) : ℤ)).map
        MiniblockHeaderRow.number).max? with
  | none => exact absurd (List.max?_eq_none_iff.mp hmax) hne
  | some last => exact ⟨last, rfl⟩

/-- The batch that `load_pending_batch` finds. -/
theorem OpenBatch.load (h : OpenBatch env vm batchHash params done s) (hrows : RowsInv s)
    (hblocks : BlocksInv s) (hdone : done ≠ []) {scan : List TransactionRow}
    (hscan : scan.Perm s.tables.transactions) {p : SequencerProcess σ T}
    (hp : s.newProcess = .ok p) (previousBlockHash : U256) :
    s.loadPendingBatch p.currentL1BatchNumber scan previousBlockHash =
      .ok (some ({ params with previousBlockHash := previousBlockHash },
        reexecuteData s.tables.pendingMiniblocks (done.map Block.txs))) := by
  have hlt := h.sealed_lt hrows hdone
  have hbatches := h.batches_le
  have hbatchesPos := hblocks.chain.batches_pos
  obtain ⟨last, hlast⟩ := exists_lastMiniblockOfL1Batch hblocks.chain (by omega)
  have hsplit := hblocks.chain.split
  -- the first stored miniblock of the batch
  obtain ⟨block, rest, rfl⟩ := List.exists_cons_of_ne_nil hdone
  have hheaders := h.headers
  obtain ⟨header, headers, hpending⟩ : ∃ header headers,
      s.tables.pendingMiniblocks = header :: headers := by
    cases hpending : s.tables.pendingMiniblocks with
    | nil =>
      rw [hpending] at hheaders
      cases hheaders
    | cons header headers => exact ⟨header, headers, rfl⟩
  rw [hpending] at hheaders
  obtain ⟨htimestamp, hversion⟩ := Prod.mk.inj (List.cons.inj hheaders).1
  obtain ⟨updates, hstored⟩ : ∃ updates, s.stored = some updates := by
    refine Option.ne_none_iff_exists'.mp fun hnone => ?_
    rw [hblocks.stored.mp hnone] at hpending
    cases hpending
  obtain ⟨front, lastBlock, hfront, htracks⟩ := h.stored updates hstored
  have hfirst := htracks.contents.first
  rw [← hfront] at hfirst
  have hfirst : block.timestamp = params.blockTimestamp := Option.some.inj hfirst
  have hnumber : p.currentL1BatchNumber = params.blockNumber := by
    rw [newProcess_eq hblocks.chain hp, h.blockNumber]
  have hheader : s.pendingMiniblockHeader p.currentL1BatchNumber = .ok (some header) := by
    rw [hnumber, h.blockNumber, Nat.mod_eq_of_lt (by omega)]
    unfold pendingMiniblockHeader
    have hpred : predU32 s.tables.l1Batches.length = s.tables.l1Batches.length - 1 := by
      unfold predU32
      omega
    rw [hpred, hlast]
    dsimp only
    rw [hblocks.chain.lastMiniblockOfL1Batch hlast, hblocks.chain.getMiniblockHeader]
    have hsealed := hblocks.chain.sealed_pos
    have hsucc : succU32 (s.tables.sealedMiniblocks.length - 1) =
        s.tables.sealedMiniblocks.length := by
      unfold succU32
      omega
    rw [hsucc, hsplit, List.getElem?_append_right (Nat.le_refl _), Nat.sub_self, hpending]
    rfl
  have hdrop : s.tables.miniblocks.drop s.tables.sealedMiniblocks.length =
      header :: headers := by
    rw [hsplit, List.drop_left, hpending]
  have hlength := hblocks.chain.length_eq
  rw [← h.length] at hlength
  have hminiblocks := getMiniblocksToReexecute_eq
    (((hscan.filter isPending).map TransactionRow.position).trans h.rows) ?_ ?_
    hblocks.chain.numbers (by rw [List.length_map, hlength]) hblocks.chain.length_le
  · have hparams : (⟨p.currentL1BatchNumber, header.timestamp, previousBlockHash,
        params.protocolVersion⟩ : L1BatchParams) =
          { params with previousBlockHash := previousBlockHash } := by
      rw [hnumber, htimestamp, hfirst]
    unfold loadPendingBatch
    rw [hheader]
    dsimp only [bind, Except.bind]
    rw [hversion]
    dsimp only
    rw [hminiblocks, hdrop, hparams, hpending]
    rfl
  · intro txs htxs
    obtain ⟨block, hblock, rfl⟩ := List.mem_map.mp htxs
    exact h.nonempty block hblock
  · exact List.cons_ne_nil _ _

variable {holds : L1BatchParams → List Transaction → σ → Prop}

theorem OpenBatch.queue_phase (h : OpenBatch env vm batchHash params done s)
    {p : SequencerProcess σ T} (hp : s.process = some p) {updates : UpdatesManager}
    (hupdates : p.phase.updates? = some updates) :
    Queue env vm params done (p.commands.map Submission.updates ++ [updates]) := by
  have hqueue := h.queue p hp
  unfold SequencerProcess.line at hqueue
  rw [hupdates] at hqueue
  exact hqueue

theorem OpenBatch.stopped (h : OpenBatch env vm batchHash params done s) {p : SequencerProcess σ T}
    (hp : s.process = some p) : OpenBatch env vm batchHash params done (s.atPhase p .stopped) := by
  refine h.atPhase ?_ (h.commands p hp) nofun
  rw [show (Phase.stopped : Phase σ T).updates?.toList = [] from rfl, List.append_nil]
  exact (h.queue p hp).front

theorem OpenBatch.checkDeadlines (h : OpenBatch env vm batchHash params done s)
    {batchDeadlinePassed miniblockDeadlinePassed : Bool} {attempts : List (List ℕ)}
    (hmoved : Moved env s
      (.checkDeadlines batchDeadlinePassed miniblockDeadlinePassed attempts) s') :
    OpenBatch env vm batchHash params done s' := by
  cases hmoved with
  | @deadlinePassed _ _ _ p params' batch hp hphase _ =>
    refine h.atPhase (h.queue_phase hp (by rw [hphase]; rfl)) (h.commands p hp) ?_
    rintro _ ⟨⟩
    exact h.phase p params' hp (by rw [hphase]; rfl)
  | unchanged => exact h
  | @sealedMiniblock _ _ _ p params' batch newTimestamp hp hphase hnonempty _ =>
    refine h.sealMiniblock hp (by rw [hphase]; rfl) hnonempty ?_ ?_
    · intro updates' hupdates'
      cases newTimestamp with
      | none => cases hupdates'
      | some newTimestamp => exact ⟨newTimestamp, (Option.some.inj hupdates').symm⟩
    · intro params'' hparams''
      cases newTimestamp with
      | none => cases hparams''
      | some newTimestamp =>
        cases hparams''
        exact h.phase p params' hp (by rw [hphase]; rfl)
  | stopped _ hp => exact h.stopped hp

/-- The writes of a transaction that goes into the batch count alike with and without what dropped
transactions have left in the write counter. -/
def countsAlike (env : SequencerEnv σ T) (s : RunState σ T) : RunAction σ → Bool
  | .nextTx tx =>
    match s.process with
    | some p =>
      match p.phase with
      | .processing _ batch => CountsAlike batch.updates (includedLogs env batch tx)
      | _ => true
    | none => true
  | _ => true

theorem OpenBatch.nextTx (h : OpenBatch env vm batchHash params done s)
    (hvm : vm.Describes env.manager holds) {tx : Transaction}
    (hholds : ∀ p params batch, s.process = some p → p.phase = .processing params batch →
      holds params batch.updates.included batch.executor)
    (halike : s.countsAlike env (.nextTx tx) = true) (hmoved : Moved env s (.nextTx tx) s') :
    OpenBatch env vm batchHash params done s' := by
  cases hmoved with
  | @tried _ p params' batch batch₁ batch₂ resolution _ hp hphase hone happly =>
    obtain rfl := h.phase p params' hp (by rw [hphase]; rfl)
    have hedited := h.edit (edited_markRejected tx resolution)
    have halike : CountsAlike batch.updates (includedLogs env batch tx) := by
      unfold countsAlike at halike
      rw [hp] at halike
      dsimp only at halike
      rw [hphase] at halike
      exact of_decide_eq_true halike
    have hqueue : Queue env vm params' done
        (p.commands.map Submission.updates ++ [batch₂.updates]) := by
      refine (h.queue_phase hp (by rw [hphase]; rfl)).next fun htracks => ?_
      obtain ⟨block', htracks'⟩ :=
        htracks.tried hvm (hholds p params' batch hp hphase) halike hone happly
      exact ⟨block', htracks', trivial⟩
    refine hedited.atPhase ?_ (h.commands p hp) ?_
    · split_ifs
      · exact hqueue
      · exact hqueue
    · intro params'' hparams''
      split_ifs at hparams''
      · exact (Option.some.inj hparams'').symm
      · exact (Option.some.inj hparams'').symm
  | stopped _ hp => exact h.stopped hp

theorem OpenBatch.finish (h : OpenBatch env vm batchHash params done s) {attempts : List (List ℕ)}
    (hmoved : Moved env s (.finish attempts) s') : OpenBatch env vm batchHash params done s' := by
  cases hmoved with
  | @finished _ p params' batch finished hp hphase _ hfinished =>
    refine h.atPhase (h.queue_phase hp (by rw [hphase, hfinished]; rfl)) (h.commands p hp) ?_
    rintro _ ⟨⟩
    exact h.phase p params' hp (by rw [hphase]; rfl)
  | @finishedMiniblock _ p params' batch timestamp finished hp hphase hnonempty _ hfinished =>
    refine h.sealMiniblock hp (by rw [hphase]; rfl) hnonempty ?_ ?_
    · intro updates' hupdates'
      exact ⟨timestamp, (Option.some.inj hupdates').symm.trans hfinished⟩
    · rintro _ ⟨⟩
      exact h.phase p params' hp (by rw [hphase]; rfl)
  | @stoppedFinishing _ p params' batch hp hphase hnonempty =>
    exact h.sealMiniblock hp (by rw [hphase]; rfl) hnonempty nofun nofun
  | stopped _ hp => exact h.stopped hp

/-- The next batch, before it is opened. -/
def nextParams (batchHash : ℕ → U256) (s : RunState σ T) : L1BatchParams :=
  ⟨s.tables.l1Batches.length % 2 ^ 32, 0, batchHash (s.tables.l1Batches.length % 2 ^ 32), 0⟩

/-- The rows of a sealed batch are pending no more. -/
theorem OpenBatch.sealL1Batch (h : OpenBatch env vm batchHash params done s)
    (hblocks : BlocksInv s) (hmoved : Moved env s .sealL1Batch s') :
    ∃ params' done', OpenBatch env vm batchHash params' done' s' := by
  cases hmoved with
  | @sealedBatch p params' finished prevTimestamp tables hp hphase hcommands _ htables =>
    obtain ⟨-, -, -, rfl⟩ := insertBatch_eq_ok htables
    obtain ⟨block, htracks, -⟩ : Queue env vm params done [finished.updates] := by
      have hqueue := h.queue_phase hp (by rw [hphase]; rfl)
      rwa [hcommands] at hqueue
    have hfree : ∀ row ∈ markTxsAsExecutedInL1Batch s.tables.transactions p.currentL1BatchNumber
        finished.updates.l1Batch.executedTransactions, isPending row = false := by
      intro row hrow
      refine Bool.eq_false_iff.mpr fun hpending => ?_
      obtain ⟨hold, hother⟩ := pending_of_markTxsAsExecutedInL1Batch _ _ _ row hrow hpending
      have hposition := h.rows.mem_iff.mp
        (List.mem_map_of_mem (f := TransactionRow.position) (List.mem_filter.mpr ⟨hold, hpending⟩))
      obtain ⟨group, hgroup, hposition⟩ := List.mem_flatMap.mp hposition
      obtain ⟨k, txs, htxs, rfl⟩ := mem_numberedPositions hgroup
      obtain ⟨i, tx, htx, heq⟩ := mem_blockPositions.mp hposition
      have hread : rowToTransaction row = .ok tx := congrArg Position.transaction heq
      obtain ⟨block', hblock', rfl⟩ := List.mem_map.mp (List.mem_of_getElem? htxs)
      have hmem : tx ∈ done.flatMap Block.txs :=
        List.mem_flatMap.mpr ⟨block', hblock', List.mem_of_getElem? htx⟩
      rw [← htracks.sealed] at hmem
      obtain ⟨e, he, rfl⟩ := List.mem_map.mp hmem
      have hhash := htracks.contents.hash e (List.mem_append_left _ he)
      rw [hash_of_rowToTransaction hread] at hhash
      exact hother e he (Option.some.inj hhash).symm
    have hfilter : (markTxsAsExecutedInL1Batch s.tables.transactions p.currentL1BatchNumber
        finished.updates.l1Batch.executedTransactions).filter isPending = [] :=
      List.filter_eq_nil_iff.mpr fun row hrow => by
        rw [hfree row hrow]
        exact Bool.false_ne_true
    refine ⟨nextParams batchHash _, [], rfl, rfl, ?_, ?_, ?_, ?_, nofun, nofun, ?_, ?_, ?_⟩
    · rw [SequencerTables.sealedMiniblocks_markBatch rfl]
      have hle := h.batches_le
      have hlength := hblocks.chain.length_eq
      simp only [List.length_append, List.length_map, List.length_singleton]
      omega
    · rw [SequencerTables.pendingMiniblocks_markBatch rfl]
      rfl
    · unfold pendingPositions
      rw [hfilter]
      exact .nil
    · intro row hrow hpending
      rw [hfree row hrow] at hpending
      cases hpending
    · rintro p' ⟨⟩
      trivial
    · rintro p' ⟨⟩
      exact nofun
    · rintro p' params'' ⟨⟩
      exact nofun
  | stopped _ hp => exact ⟨params, done, h.stopped hp⟩

/-- Each transaction of the next miniblock that is stored has a row of its own. -/
def storesOwnRows (s : RunState σ T) : RunAction σ → Bool
  | .writeMiniblock =>
    match s.process with
    | some p =>
      match p.commands with
      | submission :: _ =>
        Awaited s.tables.transactions submission.command.miniblock.executedTransactions
      | [] => true
    | none => true
  | _ => true

theorem OpenBatch.writeMiniblock (h : OpenBatch env vm batchHash params done s) (hrows : RowsInv s)
    (hblocks : BlocksInv s) (howned : s.storesOwnRows .writeMiniblock = true)
    (hmoved : Moved env s .writeMiniblock s') :
    ∃ done', OpenBatch env vm batchHash params done' s' := by
  cases hmoved with
  | @wroteMiniblock p submission commands tables transactions hp hcommands hinsert hmark =>
    obtain ⟨hchain, hminiblocks, hbatches⟩ := hblocks.insertMiniblock hp hcommands hinsert
    rw [insertMiniblock_transactions hinsert] at hmark
    have hsubmission : submission ∈ p.commands := by
      rw [hcommands]
      exact List.mem_cons_self
    have hl2 : AllL2 submission.command.miniblock.executedTransactions :=
      (hrows.onlyL2.commands p hp submission hsubmission).2
    have hawaited : Awaited s.tables.transactions
        submission.command.miniblock.executedTransactions := by
      unfold storesOwnRows at howned
      rw [hp] at howned
      dsimp only at howned
      rw [hcommands] at howned
      exact of_decide_eq_true howned
    obtain ⟨block, htracks, hqueue⟩ : Queue env vm params done (submission.updates ::
        (commands.map Submission.updates ++ p.phase.updates?.toList)) := by
      have hqueue := h.queue p hp
      unfold SequencerProcess.line at hqueue
      rwa [hcommands] at hqueue
    have hcontents := htracks.contents
    have hhash : ∀ result ∈ submission.command.miniblock.executedTransactions,
        result.transaction.hash = some result.hash :=
      fun result hresult => hcontents.hash result (List.mem_append_right _ hresult)
    have hpending := SequencerTables.pendingMiniblocks_append rfl hminiblocks
    have hsealed := SequencerTables.sealedMiniblocks_append rfl hminiblocks
    -- the number of the new row
    have hnumber : submission.command.miniblockNumber =
        s.tables.sealedMiniblocks.length + done.length := by
      have hlast : tables.miniblocks[s.tables.miniblocks.length]? =
          some submission.command.header := by
        rw [hminiblocks, List.getElem?_append_right (Nat.le_refl _), Nat.sub_self]
        rfl
      rw [h.length, ← hblocks.chain.length_eq]
      exact hchain.numbers.number_eq hlast
    have hperm := pendingPositions_mark hl2 hhash hrows.apart hawaited hmark
    refine ⟨done ++ [block], ?_, h.previousBlockHash, ?_, ?_, ?_, h.idle.mark hl2 hmark, ?_, ?_, ?_,
      ?_, ?_⟩
    · rw [hbatches]
      exact h.blockNumber
    · show tables.l1Batches.length ≤ tables.sealedMiniblocks.length
      rw [hbatches, hsealed]
      exact h.batches_le
    · show tables.pendingMiniblocks.map _ = _
      rw [hpending, List.map_append, List.map_append, h.headers]
      refine congrArg (_ ++ ·) (congrArg (fun entry => [entry]) (Prod.ext ?_ ?_))
      · exact hcontents.timestamp
      · exact congrArg some hcontents.protocolVersion
    · show (pendingPositions transactions).Perm
        (positions tables.sealedMiniblocks.length ((done ++ [block]).map Block.txs))
      have htxs : submission.command.miniblock.executedTransactions.map
          TransactionExecutionResult.transaction = block.txs := hcontents.txs
      rw [hsealed, List.map_append, List.map_singleton, positions_append, List.length_map,
        ← hnumber, ← htxs]
      exact hperm.trans (h.rows.append_right _)
    · intro block' hblock'
      rcases List.mem_append.mp hblock' with hblock' | hblock'
      · exact h.nonempty block' hblock'
      · cases List.mem_singleton.mp hblock'
        rw [← hcontents.txs]
        exact fun hnil => h.commands p hp submission hsubmission (List.map_eq_nil_iff.mp hnil)
    · rintro updates ⟨⟩
      exact ⟨done, block, rfl, htracks⟩
    · rintro p' ⟨⟩
      exact hqueue
    · rintro p' ⟨⟩
      exact fun c hc => h.commands p hp c (by rw [hcommands]; exact List.mem_cons_of_mem _ hc)
    · rintro p' params' ⟨⟩
      exact h.phase p params' hp
  | stopped _ hp => exact ⟨done, h.stopped hp⟩

/-- What is assumed of the virtual machine and of the hashes: an executor is started with the
parameters of its batch, it stands for the transactions that were included in it, and the hash of
the previous batch is read by the number of the next one. -/
def Assumed (holds : L1BatchParams → List Transaction → σ → Prop) (batchHash : ℕ → U256)
    (s : RunState σ T) : RunAction σ → Prop
  | .start scan previousBlockHash executor _ => ∀ p params miniblocks, s.newProcess = .ok p →
    s.loadPendingBatch p.currentL1BatchNumber scan previousBlockHash =
      .ok (some (params, miniblocks)) →
    previousBlockHash = batchHash p.currentL1BatchNumber ∧ holds params [] executor
  | .newBatch previousBlockHash _ _ _ _ => ∀ p, s.process = some p →
    previousBlockHash = batchHash p.currentL1BatchNumber
  | .nextTx _ => ∀ p params batch, s.process = some p → p.phase = .processing params batch →
    holds params batch.updates.included batch.executor
  | _ => True

/-- The stored miniblocks are executed again, with the results that they had. -/
theorem OpenBatch.restores (h : OpenBatch env vm batchHash params done s) (hrows : RowsInv s)
    (hblocks : BlocksInv s) (hvm : vm.Describes env.manager holds) {updates : UpdatesManager}
    (hstored : s.stored = some updates) {scan : List TransactionRow}
    (hscan : scan.Perm s.tables.transactions) {previousBlockHash : U256} {executor : σ}
    {attempts : List (List ℕ)}
    (hassumed : s.Assumed holds batchHash (.start scan previousBlockHash executor attempts))
    {p : SequencerProcess σ T} (hp : s.newProcess = .ok p) :
    s.loadPendingBatch p.currentL1BatchNumber scan previousBlockHash =
      .ok (some (params, reexecuteData s.tables.pendingMiniblocks (done.map Block.txs))) ∧
    ∃ batch, reexecuteMiniblocks env true
        (reexecuteData s.tables.pendingMiniblocks (done.map Block.txs))
        (newBatchState params executor, 0) =
          .ok (batch, Fin.ofNat _ updates.included.length) ∧
      (∃ front block, done = front ++ [block] ∧ Tracks env vm params front block batch.updates) ∧
      indexedIn batch =
        updates.included.mapIdx (fun i transaction => (transaction, Fin.ofNat _ i)) ∧
      ∀ timestamp timestamp',
        SameBatch (updates.pushMiniblock timestamp) (batch.updates.pushMiniblock timestamp') := by
  obtain ⟨front, block, hdone, htracks⟩ := h.stored updates hstored
  have hne : done ≠ [] := by
    rw [hdone]
    exact List.append_ne_nil_of_right_ne_nil _ (List.cons_ne_nil _ _)
  have hload := h.load hrows hblocks hne hscan hp previousBlockHash
  obtain ⟨hhash, hfresh⟩ := hassumed p _ _ hp hload
  have hparams : { params with previousBlockHash := previousBlockHash } = params := by
    rw [hhash, newProcess_eq hblocks.chain hp, ← h.blockNumber, ← h.previousBlockHash]
  rw [hparams] at hload hfresh
  have hblock := (map_block_reexecuteData h.headers).trans hdone
  obtain ⟨batch, hrun, htracks', hindexed, hsame⟩ := htracks.restores hvm hfresh hblock
  exact ⟨hload, batch, hrun, ⟨front, block, hdone, htracks'⟩, hindexed, hsame⟩

theorem exists_newProcess (hblocks : BlocksInv s) : ∃ p, s.newProcess = .ok p := by
  unfold newProcess
  rw [hblocks.chain.getNewestL1BatchNumber]
  exact ⟨_, rfl⟩

/-- A restart, with or without a stored batch. -/
theorem OpenBatch.start (h : OpenBatch env vm batchHash params done s) (hrows : RowsInv s)
    (hblocks : BlocksInv s) (hvm : vm.Describes env.manager holds) {scan : List TransactionRow}
    (hscan : scan.Perm s.tables.transactions) {previousBlockHash : U256} {executor : σ}
    {attempts : List (List ℕ)}
    (hassumed : s.Assumed holds batchHash (.start scan previousBlockHash executor attempts))
    (hrun : s.start env scan previousBlockHash executor attempts = .ok s') :
    OpenBatch env vm batchHash params done s' := by
  unfold RunState.start at hrun
  obtain ⟨p, hp, hrun⟩ := Seq.bind_eq_ok.mp hrun
  obtain ⟨loaded, hloaded, hrun⟩ := Seq.bind_eq_ok.mp hrun
  have hcommands := commands_newProcess hp
  have hnone : ∀ c ∈ p.commands, c.updates.miniblock.executedTransactions ≠ [] := by
    rw [hcommands]
    exact nofun
  cases hstored : s.stored with
  | none =>
    obtain rfl : done = [] := List.eq_nil_of_length_eq_zero (by
      rw [h.length, hblocks.stored.mp hstored]
      rfl)
    have hempty : (scan.filter isPending).map TransactionRow.position = [] :=
      (((hscan.filter isPending).map _).trans h.rows).eq_nil
    obtain ⟨-, rfl⟩ | ⟨header, protocolVersion, miniblocks, -, -, hminiblocks, rfl⟩ :=
      loadPendingBatch_cases hloaded
    · cases hrun
      refine h.atPhase ?_ hnone nofun
      rw [hcommands]
      trivial
    · -- there is no row to restore a batch from
      unfold getMiniblocksToReexecute pendingGroups at hminiblocks
      rw [List.map_eq_nil_iff.mp hempty] at hminiblocks
      cases hminiblocks
      cases hrun
  | some updates =>
    obtain ⟨hload, batch, hbatch, ⟨front, block, hdone, htracks⟩, -, -⟩ :=
      h.restores hrows hblocks hvm hstored hscan hassumed hp
    rw [hload] at hloaded
    cases hloaded
    dsimp only at hrun
    split_ifs at hrun
    rw [hbatch] at hrun
    obtain ⟨⟨batch', index⟩, hbatch', hrun⟩ := Seq.bind_eq_ok.mp hrun
    cases hbatch'
    obtain ⟨newTimestamp, -, hrun⟩ := Seq.bind_eq_ok.mp hrun
    cases newTimestamp with
    | none =>
      cases hrun
      refine h.atPhase ?_ hnone nofun
      rw [hcommands]
      trivial
    | some newTimestamp =>
      cases hrun
      refine h.atPhase ?_ hnone (by rintro _ ⟨⟩; rfl)
      rw [hcommands, hdone]
      exact ⟨_, htracks.push newTimestamp, trivial⟩

/-- A new batch is opened when no miniblock of the last one is left. -/
theorem OpenBatch.newBatch (h : OpenBatch env vm batchHash params done s) (hblocks : BlocksInv s)
    {p : SequencerProcess σ T} (hp : s.process = some p)
    {sealedVersion : Option ProtocolVersionId} (hphase : p.phase = .waiting sealedVersion)
    {previousBlockHash : U256} (hhash : previousBlockHash = batchHash p.currentL1BatchNumber)
    {protocolVersion : ProtocolVersionId} {upgradeTx : Option ProtocolUpgradeTx} {executor : σ}
    {attempts : List (List ℕ)}
    (hrun : s.newBatch env p sealedVersion previousBlockHash protocolVersion upgradeTx executor
      attempts = .ok s') :
    ∃ params' done', OpenBatch env vm batchHash params' done' s' := by
  unfold RunState.newBatch at hrun
  split at hrun
  · cases hrun
  · obtain ⟨timestamp, -, hrun⟩ := Seq.bind_eq_ok.mp hrun
    cases timestamp with
    | none =>
      cases hrun
      exact ⟨params, done, h.stopped hp⟩
    | some timestamp =>
      obtain ⟨batch, hupgrade, hrun⟩ := Seq.bind_eq_ok.mp hrun
      cases hrun
      obtain rfl := processUpgrade_eq_ok (mapError_eq_ok.mp hupgrade)
      obtain ⟨hpending, hcommands⟩ := (hblocks.process p hp).waiting _ hphase
      obtain rfl : done = [] := List.eq_nil_of_length_eq_zero (by
        rw [h.length, hpending]
        rfl)
      refine ⟨⟨p.currentL1BatchNumber, timestamp, previousBlockHash, protocolVersion⟩, [],
        (hblocks.process p hp).l1BatchNumber, hhash, h.batches_le, ?_, h.rows, h.idle, nofun, ?_,
        ?_, ?_, ?_⟩
      · show s.tables.pendingMiniblocks.map _ = _
        rw [hpending]
        rfl
      · intro updates hupdates
        have hsome : s.stored = some updates := hupdates
        rw [hblocks.stored.mpr hpending] at hsome
        cases hsome
      · rintro p' ⟨⟩
        unfold SequencerProcess.line
        rw [hcommands]
        exact ⟨_, Builds.new.tracks, trivial⟩
      · rintro p' ⟨⟩
        exact h.commands p hp
      · rintro p' params' ⟨⟩ ⟨⟩
        rfl

end RunState

end OlaOs
