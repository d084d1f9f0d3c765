import OlaOs.Dal.Events
import OlaOs.Dal.Storage
import OlaOs.Metadata.BlockLogs

/-! The tables that the API reads, `storage` and `events`, over whole runs of the sequencer. Their
statements are part of the transactions that seal a miniblock or create the genesis batch. -/
namespace OlaOs

structure ChainTables where
  storage : List StorageRow := []
  events : List EventRow := []
  deriving DecidableEq

/-- What `seal_inner` does to `storage` and `events`. -/
def MiniblockSealCommand.sealChain (hash : List UInt8 → H256) (command : MiniblockSealCommand)
    (chain : ChainTables) (isFictive : Bool) : Except String ChainTables := do
  let writeLogs ← command.extractWriteLogs isFictive
  let (storage, _) ← StorageDal.applyStorageLogs hash chain.storage writeLogs
  let miniblockEvents ← command.extractEvents isFictive
  let events ← EventsDal.saveEvents chain.events command.miniblockNumber miniblockEvents
  return ⟨storage, events⟩

/-- What `insert_system_contracts` does to `storage`. -/
def Genesis.applyStorageLogs (hash : List UInt8 → H256) (chain : ChainTables)
    (storageLogs : List (H256 × List StorageLog)) : Except String ChainTables := do
  let (storage, _) ← StorageDal.applyStorageLogs hash chain.storage storageLogs
  return { chain with storage := storage }

/-- The sequencer and the tables of the API, with a record of the sealed batches and of the sealed
miniblocks; the flag marks the fictive ones. -/
structure ChainState where
  io : SequencerIo
  chain : ChainTables
  history : List SealedBatch
  commands : List (MiniblockSealCommand × Bool)

namespace ChainState

/-- The state after `create_genesis_l1_batch`. -/
inductive Genesis (hash : List UInt8 → H256) : ChainState → Prop where
  | create {storageLogs : List (H256 × List StorageLog)} {storage : StorageTables}
      {chain : ChainTables} {batch : SealedBatch} (batchTimestamp : U64)
      (protocolVersion : ProtocolVersionId) :
      (∀ entry ∈ storageLogs, ∀ log ∈ entry.2, log.kind = .write) →
      Genesis.createGenesisL1Batch hash {} storageLogs = .ok storage →
      Genesis.applyStorageLogs hash {} storageLogs = .ok chain →
      batch.queries = Genesis.logQueries storageLogs → batch.Consistent (storeAfter []) →
      Genesis hash ⟨⟨storage, 1, 1, .new batchTimestamp protocolVersion⟩, chain, [batch], []⟩

/-- A transaction is executed, a miniblock sealed, or a batch with its fictive miniblock. -/
inductive Step (hash : List UInt8 → H256) : ChainState → ChainState → Prop where
  | execute {s : ChainState} {T : Type} {tx : Transaction} {size : ℕ} {result : VmTxExeResult T}
      {metrics : ExecutionMetrics} {updates : UpdatesManager} :
      s.io.updates.extendFromExecutedTransaction tx size result metrics = .ok updates →
      Step hash s { s with io := { s.io with updates := updates } }
  | sealMiniblock {s : ChainState} {io : SequencerIo} {chain : ChainTables} (newTimestamp : U64) :
      s.io.sealMiniblock hash newTimestamp = .ok io →
      (s.io.updates.sealMiniblockCommand s.io.currentL1BatchNumber
        s.io.currentMiniblockNumber).sealChain hash s.chain false = .ok chain →
      Step hash s { s with
        io := io
        chain := chain
        commands := s.commands ++ [(s.io.updates.sealMiniblockCommand s.io.currentL1BatchNumber
          s.io.currentMiniblockNumber, false)] }
  | sealL1Batch {s : ChainState} {io : SequencerIo} {chain : ChainTables}
      {blockResult : VmBlockResult} {batch : SealedBatch} (batchTimestamp : U64)
      (protocolVersion : ProtocolVersionId) :
      s.io.updates.pendingExecutedTransactionsLen ≠ 0 →
      blockResult.fullResult.storageLogQueries = s.io.updates.l1Batch.blockStorageLogs ++
        s.io.updates.miniblock.storageLogs ++ blockResult.blockTipResult.storageLogs →
      batch.queries = blockResult.fullResult.storageLogQueries.map StorageLogQuery.logQuery →
      batch.Consistent (storeAfter s.history) →
      s.io.sealL1Batch hash blockResult batchTimestamp protocolVersion = .ok io →
      ((s.io.updates.extendFromFictiveTransaction
        blockResult.blockTipResult).sealMiniblockCommand s.io.currentL1BatchNumber
          s.io.currentMiniblockNumber).sealChain hash s.chain true = .ok chain →
      Step hash s {
        io := io
        chain := chain
        history := s.history ++ [batch]
        commands := s.commands ++ [((s.io.updates.extendFromFictiveTransaction
          blockResult.blockTipResult).sealMiniblockCommand s.io.currentL1BatchNumber
            s.io.currentMiniblockNumber, true)] }

/-- The states of a chain, from its genesis on. -/
inductive Reachable (hash : List UInt8 → H256) : ChainState → Prop where
  | genesis {s : ChainState} : Genesis hash s → Reachable hash s
  | step {s s' : ChainState} : Reachable hash s → Step hash s s' → Reachable hash s'

variable {hash : List UInt8 → H256} {s s' : ChainState}

theorem Reachable.sealRun (h : Reachable hash s) : SealRun hash s.io s.history := by
  induction h with
  | genesis h =>
    cases h with
    | create batchTimestamp protocolVersion hwrites hrun _ hqueries hbatch =>
      exact .genesis batchTimestamp protocolVersion hwrites hrun hqueries hbatch
  | step _ hstep ih =>
    cases hstep with
    | execute hextend => exact .execute ih hextend
    | sealMiniblock newTimestamp hseal _ => exact .sealMiniblock newTimestamp ih hseal
    | sealL1Batch batchTimestamp protocolVersion hpending hfull hqueries hbatch hseal _ =>
      exact .sealL1Batch batchTimestamp protocolVersion ih hpending hfull hqueries hbatch hseal

theorem Reachable.trans (h : Reachable hash s) (hsteps : Relation.ReflTransGen (Step hash) s s') :
    Reachable hash s' := by
  induction hsteps with
  | refl => exact h
  | tail _ hstep ih => exact .step ih hstep

/-- The rows of the blocks after a miniblock; a fictive one ends its batch, whose number goes into
every miniblock without one. -/
def SealsBlocks (number : ℕ) (isFictive : Bool) (s s' : ChainState) : Prop :=
  if isFictive then
    (∃ batch, s'.history = s.history ++ [batch]) ∧
      s'.io.storage.l1Batches = s.io.storage.l1Batches ++ [⟨s.io.currentL1BatchNumber, true⟩] ∧
      s'.io.storage.miniblocks =
        (s.io.storage.miniblocks ++ [(⟨number, none⟩ : MiniblockRow)]).map fun row =>
          { row with
            l1BatchNumber := row.l1BatchNumber.or (some (asI32 s.io.currentL1BatchNumber)) }
  else s'.history = s.history ∧ s'.io.storage.l1Batches = s.io.storage.l1Batches ∧
    s'.io.storage.miniblocks = s.io.storage.miniblocks ++ [⟨number, none⟩]

/-- What a step that seals a miniblock adds to the tables. -/
structure Seals (hash : List UInt8 → H256) (command : MiniblockSealCommand) (isFictive : Bool)
    (s s' : ChainState) : Prop where
  commands : s'.commands = s.commands ++ [(command, isFictive)]
  number_eq : command.miniblockNumber = s.io.currentMiniblockNumber
  blocks : SealsBlocks command.miniblockNumber isFictive s s'
  logs : ∃ logs updates, s'.io.storage.storageLogs = s.io.storage.storageLogs ++
      StorageTables.storageLogRows hash command.miniblockNumber logs ∧
    StorageDal.applyStorageLogs hash s.chain.storage logs = .ok (s'.chain.storage, updates)
  events : ∃ groups, command.extractEvents isFictive = .ok groups ∧
    EventsDal.saveEvents s.chain.events command.miniblockNumber groups = .ok s'.chain.events

theorem Seals.miniblocks {command : MiniblockSealCommand} {isFictive : Bool}
    (h : Seals hash command isFictive s s') : s'.io.storage.miniblocks.map MiniblockRow.number =
      s.io.storage.miniblocks.map MiniblockRow.number ++ [command.miniblockNumber] := by
  have hblocks := h.blocks
  unfold SealsBlocks at hblocks
  split_ifs at hblocks
  · rw [hblocks.2.2, List.map_map]
    exact List.map_append
  · rw [hblocks.2.2]
    exact List.map_append

theorem sealInner_tables {command : MiniblockSealCommand} {isFictive : Bool}
    {t t' : StorageTables} (h : command.sealInner hash t isFictive = .ok t') :
    ∃ logs, command.extractWriteLogs isFictive = .ok logs ∧
      t'.miniblocks = t.miniblocks ++ [⟨command.miniblockNumber, none⟩] ∧
      t'.storageLogs = t.storageLogs ++
        StorageTables.storageLogRows hash command.miniblockNumber logs := by
  obtain ⟨_, -, h⟩ := Seq.bind_eq_ok.mp h
  obtain ⟨t₁, hmini, h⟩ := Seq.bind_eq_ok.mp h
  obtain ⟨logs, hlogs, h⟩ := Seq.bind_eq_ok.mp h
  obtain ⟨t₂, hinsert, h⟩ := Seq.bind_eq_ok.mp h
  obtain ⟨_, -, h⟩ := Seq.bind_eq_ok.mp h
  obtain rfl := Except.ok.inj h
  obtain ⟨-, rfl⟩ := StorageTables.insertMiniblock_ok hmini
  obtain rfl := StorageTables.insertStorageLogs_ok hinsert
  exact ⟨logs, hlogs, rfl, rfl⟩

theorem genesis_tables {storageLogs : List (H256 × List StorageLog)} {t : StorageTables}
    (h : Genesis.createGenesisL1Batch hash {} storageLogs = .ok t) :
    t.storageLogs = StorageTables.storageLogRows hash 0 storageLogs ∧
      t.miniblocks.map MiniblockRow.number = [0] := by
  obtain ⟨t₁, h₁, h⟩ := Seq.bind_eq_ok.mp h
  obtain ⟨t₂, h₂, h⟩ := Seq.bind_eq_ok.mp h
  obtain ⟨t₃, h₃, h⟩ := Seq.bind_eq_ok.mp h
  obtain ⟨⟨sorted, deduplicated⟩, -, h⟩ := Seq.bind_eq_ok.mp h
  obtain ⟨t₄, h₄, h₅⟩ := Seq.bind_eq_ok.mp h
  obtain rfl := StorageTables.insertL1Batch_ok h₁
  obtain ⟨-, rfl⟩ := StorageTables.insertMiniblock_ok h₂
  obtain rfl := StorageTables.insertStorageLogs_ok h₃
  obtain rfl := StorageTables.insertProtectiveReads_ok h₄
  obtain ⟨-, rfl⟩ := StorageTables.insertInitialWrites_ok (by exact ⟨rfl, .nil⟩) h₅
  exact ⟨rfl, rfl⟩

theorem sealChain_ok {command : MiniblockSealCommand} {isFictive : Bool}
    {chain chain' : ChainTables} {logs : List (H256 × List StorageLog)}
    (hlogs : command.extractWriteLogs isFictive = .ok logs)
    (h : command.sealChain hash chain isFictive = .ok chain') :
    (∃ updates, StorageDal.applyStorageLogs hash chain.storage logs =
      .ok (chain'.storage, updates)) ∧
    ∃ groups, command.extractEvents isFictive = .ok groups ∧
      EventsDal.saveEvents chain.events command.miniblockNumber groups = .ok chain'.events := by
  obtain ⟨logs', hlogs', h⟩ := Seq.bind_eq_ok.mp h
  obtain ⟨⟨storage, updates⟩, happly, h⟩ := Seq.bind_eq_ok.mp h
  obtain ⟨groups, hgroups, h⟩ := Seq.bind_eq_ok.mp h
  obtain ⟨events, hsave, h⟩ := Seq.bind_eq_ok.mp h
  obtain rfl := Except.ok.inj h
  obtain rfl := Except.ok.inj (hlogs.symm.trans hlogs')
  exact ⟨⟨updates, happly⟩, groups, hgroups, hsave⟩

/-- The tables that `seal_l1_batch` writes besides those of its fictive miniblock. -/
theorem insertDeduplicated_tables {t t' : StorageTables} {number : ℕ}
    {deduplicated : List LogQuery} (hnum : StorageTables.Numbered t.initialWrites)
    (h : UpdatesManager.insertDeduplicated hash t number deduplicated = .ok t') :
    t'.l1Batches = t.l1Batches ∧ t'.miniblocks = t.miniblocks ∧ t'.storageLogs = t.storageLogs :=
  (UpdatesManager.insertDeduplicated_ok hnum h).frame

/-- A step executes a transaction, which changes no table, or it seals a miniblock. -/
theorem Step.cases (hs : Reachable hash s) (h : Step hash s s') :
    (s'.io.storage = s.io.storage ∧ s'.io.currentMiniblockNumber = s.io.currentMiniblockNumber ∧
      s'.chain = s.chain ∧ s'.history = s.history ∧ s'.commands = s.commands) ∨
    ∃ command isFictive, Seals hash command isFictive s s' := by
  cases h with
  | execute hextend => exact .inl ⟨rfl, rfl, rfl, rfl, rfl⟩
  | sealMiniblock newTimestamp hseal hchain =>
    obtain ⟨t', hrun, hseal⟩ := Seq.bind_eq_ok.mp hseal
    cases hseal
    obtain ⟨logs, hlogs, hminiblocks, hrows⟩ := sealInner_tables hrun
    obtain ⟨⟨updates, happly⟩, hevents⟩ := sealChain_ok hlogs hchain
    have hheaders : t'.l1Batches = s.io.storage.l1Batches := by
      obtain ⟨_, -, -, -, -, rfl⟩ := MiniblockSealCommand.sealInner_ok hrun
      rfl
    exact .inr ⟨_, _, rfl, rfl, ⟨rfl, hheaders, hminiblocks⟩, ⟨logs, updates, hrows, happly⟩,
      hevents⟩
  | sealL1Batch batchTimestamp protocolVersion hpending hfull hqueries hbatch hseal hchain =>
    obtain ⟨bound, hinv⟩ := hs.sealRun.inv
    obtain ⟨t', hrun, hseal⟩ := Seq.bind_eq_ok.mp hseal
    cases hseal
    obtain ⟨t₁, hfictive, hrun⟩ := Seq.bind_eq_ok.mp hrun
    obtain ⟨⟨sorted, deduplicated⟩, hsort, hrun⟩ := Seq.bind_eq_ok.mp hrun
    obtain ⟨t₂, hheader, hrun⟩ := Seq.bind_eq_ok.mp hrun
    obtain rfl := StorageTables.insertL1Batch_ok hheader
    obtain ⟨logs, hlogs, hminiblocks, hrows⟩ := sealInner_tables hfictive
    obtain ⟨⟨updates, happly⟩, hevents⟩ := sealChain_ok hlogs hchain
    obtain ⟨htables, -⟩ := hinv.tables.sealInner hinv.currentMiniblockNumber hfictive
    obtain ⟨hheaders, hmarked, hsame⟩ :=
      insertDeduplicated_tables (by exact htables.dedup.numbered) hrun
    have hold : t₁.l1Batches = s.io.storage.l1Batches := by
      obtain ⟨_, -, -, -, rfl⟩ := MiniblockSealCommand.sealInner_ok hfictive
      rfl
    refine .inr ⟨_, _, rfl, rfl, ⟨⟨_, rfl⟩, ?_, ?_⟩, ⟨logs, updates, hsame.trans hrows, happly⟩,
      hevents⟩
    · rw [hheaders]
      exact congrArg (· ++ _) hold
    · rw [hmarked]
      exact congrArg (List.map _) hminiblocks

end ChainState

/-- The execution of the sample, with an event of its transaction. -/
def sampleChainResult : VmTxExeResult Unit :=
  { sampleTxResult with result := { sampleTxResult.result with
    events := [⟨(1, 0), .zero, [u256ToH256 4, u256ToH256 5], [6]⟩] } }

/-- The genesis batch and a batch with one transaction, with the tables of the API. -/
def sampleChainRun : Except String (SequencerIo × ChainTables × SequencerIo × ChainTables) := do
  let storage ← Genesis.createGenesisL1Batch sampleHash {} sampleGenesisLogs
  let chain ← Genesis.applyStorageLogs sampleHash {} sampleGenesisLogs
  let updates ← ((UpdatesManager.new 1 0).extendFromExecutedTransaction sampleSealed 0
    sampleChainResult {}).mapError fun _ => "panic"
  let io ← SequencerIo.sealMiniblock sampleHash ⟨storage, 1, 1, updates⟩ 2
  let chain ← (updates.sealMiniblockCommand 1 1).sealChain sampleHash chain false
  let io' ← io.sealL1Batch sampleHash sampleBlockResult 3 0
  let chain' ← ((io.updates.extendFromFictiveTransaction
    sampleBlockResult.blockTipResult).sealMiniblockCommand io.currentL1BatchNumber
      io.currentMiniblockNumber).sealChain sampleHash chain true
  return (io, chain, io', chain')

theorem sampleChainRun_ok : sampleChainRun.toOption.isSome = true := by
  simp only [sampleChainRun, SequencerIo.sealL1Batch, UpdatesManager.sealL1Batch, sort_sampleBatch]
  decide +kernel

/-- A chain with the sealed batches of the sample, from its genesis on. -/
theorem ChainState.reachable_sample : ∃ s s', Reachable sampleHash s ∧
    Relation.ReflTransGen (Step sampleHash) s s' ∧ s.io.storage.getSealedMiniblockNumber = 0 ∧
    s'.history = sampleHistory ∧
    ∃ io chain, sampleChainRun = .ok (io, chain, s'.io, s'.chain) := by
  obtain ⟨⟨io, chain, io', chain'⟩, hrun⟩ := Option.isSome_iff_exists.mp sampleChainRun_ok
  rw [Seq.toOption_eq_some] at hrun
  have hsaved := hrun
  obtain ⟨storage, hgenesis, hrun⟩ := Seq.bind_eq_ok.mp hrun
  obtain ⟨chain₀, hchain₀, hrun⟩ := Seq.bind_eq_ok.mp hrun
  obtain ⟨updates, hupdates, hrun⟩ := Seq.bind_eq_ok.mp hrun
  obtain ⟨io₁, hminiblock, hrun⟩ := Seq.bind_eq_ok.mp hrun
  obtain ⟨chain₁, hchain₁, hrun⟩ := Seq.bind_eq_ok.mp hrun
  obtain ⟨io₂, hbatch, hrun⟩ := Seq.bind_eq_ok.mp hrun
  obtain ⟨chain₂, hchain₂, hrun⟩ := Seq.bind_eq_ok.mp hrun
  cases hrun
  have hexecute : (UpdatesManager.new 1 0).extendFromExecutedTransaction sampleSealed 0
      sampleChainResult {} = .ok updates := by
    cases hupdates
    rfl
  let start : ChainState := ⟨⟨storage, 1, 1, .new 1 0⟩, chain₀,
    [.ofQueries (fun _ => 0) (Genesis.logQueries sampleGenesisLogs)], []⟩
  have hstart : Reachable sampleHash start :=
    .genesis (.create 1 0 (by decide) hgenesis hchain₀ rfl
      (SealedBatch.consistent_ofQueries (by decide) (by decide)))
  have hupdates' : io.updates = updates.pushMiniblock 2 := by
    obtain ⟨storage', -, h⟩ := Seq.bind_eq_ok.mp hminiblock
    cases h
    rfl
  have hbatchConsistent : (sampleHistory.get ⟨1, by decide⟩).Consistent
      (storeAfter [.ofQueries (fun _ => 0) (Genesis.logQueries sampleGenesisLogs)]) :=
    SealedBatch.consistent_ofQueries (by decide +kernel) (by decide)
  have hzero : storage.getSealedMiniblockNumber = 0 := by
    rw [StorageTables.getSealedMiniblockNumber, (genesis_tables hgenesis).2]
    rfl
  have hone := Relation.ReflTransGen.single (@Step.execute sampleHash start _ _ _ _ _ _ hexecute)
  have htwo := hone.tail (.sealMiniblock 2 hminiblock hchain₁)
  refine ⟨_, _, hstart, htwo.tail (.sealL1Batch 3 0 ?_ ?_ rfl hbatchConsistent hbatch hchain₂),
    hzero, rfl, io, chain, hsaved⟩
  · rw [hupdates']
    cases hupdates
    decide
  · rw [hupdates']
    cases hupdates
    rfl

end OlaOs
