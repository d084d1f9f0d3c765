import OlaOs.Sequencer.RestoredBatch
import OlaOs.Sequencer.Timestamps

/-! What `load_pending_batch` and `restore_state` make of the open batch of a sequencer that was
stopped at any point of a run. -/
namespace OlaOs

open TransactionsDal Sequencer

namespace RunState

variable {σ T : Type} {env : SequencerEnv σ T} {vm : VmModel T} {batchHash : ℕ → U256}
  {holds : L1BatchParams → List Transaction → σ → Prop} {s s' : RunState σ T}
  {params : L1BatchParams} {done : List Block}

theorem openBatch_initial (h : s.Initial) :
    OpenBatch env vm batchHash (nextParams batchHash s) [] s := by
  have hblocks := blocksInv_initial h
  have hfilter : s.tables.transactions.filter isPending = [] :=
    List.filter_eq_nil_iff.mpr fun row hrow => by
      rw [isPending_eq_false (h.transactions row hrow).1]
      exact Bool.false_ne_true
  refine ⟨rfl, rfl, ?_, ?_, ?_, ?_, nofun, ?_, ?_, ?_, ?_⟩
  · rw [h.l1Batches]
    exact hblocks.chain.sealed_pos
  · rw [hblocks.stored.mp h.stored]
    rfl
  · unfold pendingPositions
    rw [hfilter]
    exact .nil
  · intro row hrow hpending
    rw [isPending_eq_false (h.transactions row hrow).1] at hpending
    cases hpending
  · rw [h.stored]
    exact nofun
  · rw [h.process]
    exact nofun
  · rw [h.process]
    exact nofun
  · rw [h.process]
    exact nofun

/-- A step keeps the open batch, or starts the next one. -/
theorem OpenBatch.step (h : OpenBatch env vm batchHash params done s) (hrows : RowsInv s)
    (hblocks : BlocksInv s) (hvm : vm.Describes env.manager holds) {action : RunAction σ}
    (hassumed : s.Assumed holds batchHash action) (howned : s.storesOwnRows action = true)
    (halike : s.countsAlike env action = true)
    (hstep : s.step env action = some s') :
    ∃ params' done', OpenBatch env vm batchHash params' done' s' := by
  obtain ⟨result, hadvance, heq⟩ := Option.map_eq_some_iff.mp hstep
  cases result with
  | error panic =>
    subst heq
    exact ⟨params, done, h.down (some panic)⟩
  | ok s₁ =>
    subst heq
    cases action with
    | start scan previousBlockHash executor attempts =>
      unfold advance at hadvance
      dsimp only at hadvance
      split_ifs at hadvance with hdue
      rw [Bool.and_eq_true, List.isPerm_iff] at hdue
      exact ⟨params, done,
        h.start hrows hblocks hvm hdue.2 hassumed (Option.some.inj hadvance)⟩
    | newBatch previousBlockHash protocolVersion upgradeTx executor attempts =>
      obtain ⟨p, hp, hadvance⟩ := Option.bind_eq_some_iff.mp hadvance
      split at hadvance
      · rename_i hphase
        exact h.newBatch hblocks hp hphase (hassumed p hp) (Option.some.inj hadvance)
      · cases hadvance
    | checkDeadlines batchDeadlinePassed miniblockDeadlinePassed attempts =>
      exact ⟨params, done, h.checkDeadlines (advance_cases hadvance)⟩
    | nextTx tx => exact ⟨params, done, h.nextTx hvm hassumed halike (advance_cases hadvance)⟩
    | finish attempts => exact ⟨params, done, h.finish (advance_cases hadvance)⟩
    | sealL1Batch => exact h.sealL1Batch hblocks (advance_cases hadvance)
    | writeMiniblock =>
      exact ⟨params, h.writeMiniblock hrows hblocks howned (advance_cases hadvance)⟩
    | cancel =>
      cases advance_cases hadvance with
      | stopped _ hp => exact ⟨params, done, h.stopped hp⟩
    | crash =>
      cases advance_cases hadvance with
      | crashed => exact ⟨params, done, h.down s.panic⟩
      | stopped _ hp => exact ⟨params, done, h.stopped hp⟩
    | statement statement =>
      cases advance_cases hadvance with
      | statement hexecute => exact ⟨params, done, h.edit (edited_execute hrows.apart hexecute)⟩
      | stopped _ hp => exact ⟨params, done, h.stopped hp⟩

/-- A miniblock to be executed again has its own timestamp and the transactions of its own rows. -/
structure OwnMiniblock (s : RunState σ T) (scan : List TransactionRow)
    (miniblock : MiniblockReexecuteData) : Prop where
  timestamp : s.tables.getMiniblockTimestamp miniblock.number = some miniblock.timestamp
  txs : ((pendingRows scan).filter fun row =>
    decide (row.miniblockNumber = some (miniblock.number : ℤ))).mapM rowToTransaction =
      .ok miniblock.txs

/-- A restart, on the given executor, rebuilds the batch whose last stored miniblock was made from
`updates`: as they were after the next miniblock was pushed, with every transaction executed at its
index in the batch. -/
def Restores (env : SequencerEnv σ T) (s : RunState σ T) (updates : UpdatesManager)
    (scan : List TransactionRow) (previousBlockHash : U256) (executor : σ) : Prop :=
  ∃ p params miniblocks, s.newProcess = .ok p ∧
    s.loadPendingBatch p.currentL1BatchNumber scan previousBlockHash =
      .ok (some (params, miniblocks)) ∧
    (∀ miniblock ∈ miniblocks, OwnMiniblock s scan miniblock) ∧
    ∀ newTimestamp, ∃ batch,
      restoreState env miniblocks newTimestamp (newBatchState params executor) = .ok batch ∧
      (∀ timestamp, SameBatch (updates.pushMiniblock timestamp) batch.updates) ∧
      indexedIn batch = updates.included.mapIdx fun i transaction => (transaction, Fin.ofNat _ i)

theorem OpenBatch.ownMiniblock (h : OpenBatch env vm batchHash params done s)
    (hblocks : BlocksInv s)
    {scan : List TransactionRow} (hscan : scan.Perm s.tables.transactions)
    {miniblock : MiniblockReexecuteData}
    (hminiblock : miniblock ∈ reexecuteData s.tables.pendingMiniblocks (done.map Block.txs)) :
    OwnMiniblock s scan miniblock := by
  obtain ⟨k, hk⟩ := List.mem_iff_getElem?.mp hminiblock
  unfold reexecuteData at hk
  obtain ⟨row, txs, hrow, htxs, rfl⟩ := List.getElem?_zipWith_eq_some.mp hk
  have hsplit := hblocks.chain.split
  have hget : s.tables.miniblocks[s.tables.sealedMiniblocks.length + k]? = some row := by
    rw [hsplit, List.getElem?_append_right (Nat.le_add_right _ _), Nat.add_sub_cancel_left]
    exact hrow
  have hnumber : row.number = s.tables.sealedMiniblocks.length + k :=
    hblocks.chain.numbers.number_eq hget
  constructor
  · unfold SequencerTables.getMiniblockTimestamp
    rw [hblocks.chain.getMiniblockHeader, hnumber, hget]
    rfl
  · have hrows := pendingRows_position (((hscan.filter isPending).map TransactionRow.position).trans
      h.rows)
    have hread : ((pendingRows scan).filter fun pending =>
        decide (pending.miniblockNumber = some (row.number : ℤ))).map TransactionRow.position =
          blockPositions (s.tables.sealedMiniblocks.length + k) txs := by
      rw [← filter_positions htxs, ← hrows, List.filter_map, hnumber]
      rfl
    have hmapM := mapM_mapIdx (f := fun i transaction =>
      ⟨some ((s.tables.sealedMiniblocks.length + k : ℕ) : ℤ), some (i : ℤ), .ok transaction⟩)
      (fun _ _ => rfl) txs
    unfold blockPositions at hread
    rw [← hread, List.mapM_map] at hmapM
    exact hmapM

/-- In every run in which each transaction of a miniblock has a row of its own when the miniblock is
stored, and in which the write counter counts the included transactions alike with and without what
rolled back writes have left in it, a restart restores the open batch. -/
theorem reaches_restores (hvm : vm.Describes env.manager holds) {s : RunState σ T}
    (h : Transition.Reaches (fun s action => s.step env action)
      (fun s action => s.Assumed holds batchHash action ∧ s.storesOwnRows action = true ∧
        s.countsAlike env action = true) Initial s)
    {updates : UpdatesManager} (hstored : s.stored = some updates) {scan : List TransactionRow}
    (hscan : scan.Perm s.tables.transactions) {previousBlockHash : U256} {executor : σ}
    {attempts : List (List ℕ)}
    (hassumed : s.Assumed holds batchHash (.start scan previousBlockHash executor attempts)) :
    Restores env s updates scan previousBlockHash executor := by
  obtain ⟨hrows, hblocks, params, done, hopen⟩ : RowsInv s ∧ BlocksInv s ∧
      ∃ params done, OpenBatch env vm batchHash params done s := by
    refine h.invariant (fun s => RowsInv s ∧ BlocksInv s ∧
      ∃ params done, OpenBatch env vm batchHash params done s)
      (fun s hs => ⟨rowsInv_initial hs, blocksInv_initial hs, _, _, openBatch_initial hs⟩) ?_
    rintro s action s' ⟨hrows, hblocks, params, done, hopen⟩ ⟨hassumed, howned, halike⟩ hstep
    exact ⟨hrows.step hstep, hblocks.step hstep,
      hopen.step hrows hblocks hvm hassumed howned halike hstep⟩
  obtain ⟨p, hp⟩ := exists_newProcess hblocks
  obtain ⟨hload, batch, hbatch, ⟨front, block, hdone, -⟩, hindexed, hsame⟩ :=
    hopen.restores hrows hblocks hvm hstored hscan hassumed hp
  refine ⟨p, params, _, hp, hload, fun miniblock hminiblock =>
    hopen.ownMiniblock hblocks hscan hminiblock, fun newTimestamp =>
    ⟨{ batch with updates := batch.updates.pushMiniblock newTimestamp }, ?_, fun timestamp =>
      hsame timestamp newTimestamp, hindexed⟩⟩
  have hne : (reexecuteData s.tables.pendingMiniblocks (done.map Block.txs)).isEmpty = false := by
    refine List.isEmpty_eq_false_iff.mpr fun hnil => ?_
    have hblocks := map_block_reexecuteData hopen.headers
    rw [hnil, hdone] at hblocks
    simp at hblocks
  unfold restoreState
  rw [hne, hbatch]
  rfl

/-- A write of one slot, from `n` to `n + 1`. -/
def countingWrite (n : ℕ) : StorageAccessLog where
  blockTimestamp := 0
  kind := if n = 0 then .initialWrite else .repeatedWrite
  contractAddr := 0
  storageKey := 0
  preValue := some (h256ToU64Array (u256ToH256 (Fin.ofNat _ n)))
  value := some (h256ToU64Array (u256ToH256 (Fin.ofNat _ (n + 1))))

/-- A virtual machine in which a slot counts the transactions of the batch. -/
def countingVm : VmModel U64 where
  outcome _ included info := .ok ⟨[countingWrite included.length], [], info.nonce.getD 0⟩

/-- Its manager keeps the results. -/
def countingManager : BlockExeManager (List (TxExeResult U64)) U64 where
  invoke s info := (.ok ⟨[countingWrite s.length], [], info.nonce.getD 0⟩,
    s ++ [⟨[countingWrite s.length], [], info.nonce.getD 0⟩])
  finishBatch := sampleManager.finishBatch

def countingEnv : SequencerEnv (List (TxExeResult U64)) U64 :=
  { sampleEnv with manager := countingManager }

/-- The executor has run the included transactions. -/
def HasRun (_ : L1BatchParams) (included : List Transaction) (results : List (TxExeResult U64)) :
    Prop :=
  results.length = included.length

theorem countingVm_describes : countingVm.Describes countingEnv.manager HasRun where
  invoke {_ included s info} h := by
    show Except.ok _ = Except.ok _
    rw [show s.length = included.length from h]
  included {_ included s transaction info result s'} h _ hinvoke := by
    cases hinvoke
    unfold HasRun at h ⊢
    rw [List.length_append, List.length_append, h]
    rfl

/-- The hashes of batches are zero in the samples, executors are started without results and run the
included transactions. -/
def sampleAssumed (s : RunState (List (TxExeResult U64)) U64) :
    RunAction (List (TxExeResult U64)) → Bool
  | .start _ previousBlockHash executor _ => previousBlockHash = 0 ∧ executor.isEmpty = true
  | .newBatch previousBlockHash _ _ _ _ => previousBlockHash = 0
  | .nextTx _ =>
    match s.process with
    | some p =>
      match p.phase with
      | .processing _ batch => batch.executor.length = batch.updates.included.length
      | _ => true
    | none => true
  | _ => true

theorem assumed_sample {s : RunState (List (TxExeResult U64)) U64}
    {action : RunAction (List (TxExeResult U64))} (h : s.sampleAssumed action = true) :
    s.Assumed HasRun (fun _ => 0) action := by
  cases action with
  | start =>
    obtain ⟨hhash, hempty⟩ := of_decide_eq_true h
    rw [List.isEmpty_iff] at hempty
    subst hempty
    exact fun _ _ _ _ _ => ⟨hhash, rfl⟩
  | newBatch => exact fun _ _ => of_decide_eq_true h
  | nextTx =>
    intro p params batch hp hphase
    unfold sampleAssumed at h
    rw [hp] at h
    dsimp only at h
    rw [hphase] at h
    have hlength : batch.executor.length = batch.updates.included.length := of_decide_eq_true h
    exact hlength
  | checkDeadlines => trivial
  | finish => trivial
  | sealL1Batch => trivial
  | writeMiniblock => trivial
  | cancel => trivial
  | crash => trivial
  | statement => trivial

/-- Two miniblocks of one transaction each are stored, and the process stops. Both transactions
write the same slot. -/
theorem reaches_restores_sample : ∃ s : RunState (List (TxExeResult U64)) U64, ∃ updates,
    Transition.Reaches (fun s action => s.step countingEnv action)
      (fun s action => s.Assumed HasRun (fun _ => 0) action ∧ s.storesOwnRows action = true ∧
        s.countsAlike countingEnv action = true) Initial s ∧
    s.stored = some updates ∧ updates.included.length = 2 ∧
    updates.storageWritesDeduplicator.metrics = ⟨1, 0⟩ ∧
    Restores countingEnv s updates s.tables.transactions 0 [] := by
  have hrun : (Transition.runGuarded (fun s action => s.step countingEnv action)
      (fun s action => s.sampleAssumed action = true ∧ s.storesOwnRows action = true ∧
        s.countsAlike countingEnv action = true) newNode
      (sampleStopped ++ [.writeMiniblock, .crash])).bind (fun s => s.stored.map fun updates =>
        (updates.included.length, updates.storageWritesDeduplicator.metrics)) =
          some (2, ⟨1, 0⟩) := by
    decide +kernel
  obtain ⟨s, hs, hstored⟩ := Option.bind_eq_some_iff.mp hrun
  obtain ⟨updates, hstored, hcounts⟩ := Option.map_eq_some_iff.mp hstored
  obtain ⟨hlength, hmetrics⟩ := Prod.mk.inj hcounts
  have hreaches : Transition.Reaches (fun s action => s.step countingEnv action)
      (fun s action => s.Assumed HasRun (fun _ => 0) action ∧ s.storesOwnRows action = true ∧
        s.countsAlike countingEnv action = true) Initial s :=
    (Transition.reaches_runGuarded _ (.start newNode_initial) hs).mono
      fun s action hguard => ⟨assumed_sample hguard.1, hguard.2⟩
  have hassumed : s.Assumed HasRun (fun _ => 0) (.start s.tables.transactions 0 [] []) :=
    assumed_sample rfl
  exact ⟨s, updates, hreaches, hstored, hlength, hmetrics,
    reaches_restores countingVm_describes hreaches hstored (.refl _) hassumed⟩

/-- The number of transactions in the sealed miniblocks of a restored batch. -/
def restoredLength (s : RunState (List (TxExeResult U64)) U64) : Option ℕ := do
  let p ← s.newProcess.toOption
  let (params, miniblocks) ←
    (s.loadPendingBatch p.currentL1BatchNumber s.tables.transactions 0).toOption.join
  let batch ← (restoreState countingEnv miniblocks 0 (newBatchState params [])).toOption
  return batch.updates.l1Batch.executedTransactions.length

theorem restoredLength_eq {s : RunState (List (TxExeResult U64)) U64}
    {p : SequencerProcess (List (TxExeResult U64)) U64} (hp : s.newProcess = .ok p)
    {miniblocks : List MiniblockReexecuteData}
    (hload : s.loadPendingBatch p.currentL1BatchNumber s.tables.transactions 0 =
      .ok (some (params, miniblocks))) {batch : BatchState (List (TxExeResult U64))}
    (hbatch : restoreState countingEnv miniblocks 0 (newBatchState params []) = .ok batch) :
    s.restoredLength = some batch.updates.l1Batch.executedTransactions.length := by
  simp [restoredLength, hp, hload, hbatch, Except.toOption]

/-- The row of the second transaction is purged before its miniblock is stored. A restart restores
the first one alone. -/
theorem restores_counterexample : ∃ s : RunState (List (TxExeResult U64)) U64, ∃ updates,
    Transition.Reaches (fun s action => s.step countingEnv action)
      (fun s action => s.Assumed HasRun (fun _ => 0) action) Initial s ∧
    s.stored = some updates ∧
    s.Assumed HasRun (fun _ => 0) (.start s.tables.transactions 0 [] []) ∧
    ¬ Restores countingEnv s updates s.tables.transactions 0 [] := by
  have hrun : (Transition.runGuarded (fun s action => s.step countingEnv action)
      (fun s action => s.sampleAssumed action = true) newNode
      (sampleStopped ++ [.statement (.deletePurged [u256ToH256 2]), .writeMiniblock, .crash])).bind
        (fun s => s.stored.map fun updates => ((updates.pushMiniblock
          0).l1Batch.executedTransactions.length, s.restoredLength)) = some (2, some 1) := by
    decide +kernel
  obtain ⟨s, hs, hstored⟩ := Option.bind_eq_some_iff.mp hrun
  obtain ⟨updates, hstored, hlengths⟩ := Option.map_eq_some_iff.mp hstored
  obtain ⟨hlength, hrestored⟩ := Prod.mk.inj hlengths
  have hreaches : Transition.Reaches (fun s action => s.step countingEnv action)
      (fun s action => s.Assumed HasRun (fun _ => 0) action) Initial s :=
    (Transition.reaches_runGuarded _ (.start newNode_initial) hs).mono
      fun s action hguard => assumed_sample hguard
  refine ⟨s, updates, hreaches, hstored, assumed_sample rfl, ?_⟩
  rintro ⟨p, params, miniblocks, hp, hload, -, hrestores⟩
  obtain ⟨batch, hbatch, hsame, -⟩ := hrestores 0
  rw [restoredLength_eq hp hload hbatch] at hrestored
  have heq := Option.some.inj hrestored
  rw [(hsame 0).l1Batch, hlength] at heq
  cases heq

end RunState

end OlaOs
