import OlaOs.Lib.SortedGroups
import OlaOs.Sequencer.BatchSteps
import OlaOs.Sequencer.SealLogic

/-! Storage logs and events of a miniblock against the transactions that made them, over every
split of a batch into miniblocks. -/
namespace OlaOs

/-- The hash of an executed transaction; without input data it is not executed. -/
def Execution.hash (execution : Execution) : H256 := execution.transaction.hash.getD .zero

/-- The executor's stamp: the storage logs carry the index of the execution as `u16`. -/
def Execution.Stamped (execution : Execution) : Prop :=
  execution.transaction.hash = some execution.hash ∧
    ∀ log ∈ execution.result.storageLogs,
      log.logQuery.txNumberInBlock = Fin.ofNat _ execution.txIndexInL1Batch.val

/-- What the virtual machine is assumed to do with the index of an execution. -/
def Execution.EventsCarryIndex (execution : Execution) : Prop :=
  ∀ event ∈ execution.result.events, event.location.2 = execution.txIndexInL1Batch

theorem BatchExecutor.tx_stamped {σ T : Type} {manager : BlockExeManager σ T} {s s' : σ}
    {tx : Transaction} {txIndexInL1Batch : U32} {txResult : VmTxExeResult T}
    {metrics : ExecutionMetrics} {dryRun : VmPartialExecutionResult}
    (h : BatchExecutor.tx manager s tx txIndexInL1Batch =
      .ok (.success txResult metrics dryRun, s')) :
    Execution.Stamped ⟨tx, txIndexInL1Batch, txResult.result⟩ := by
  unfold BatchExecutor.tx at h
  obtain ⟨info, hinfo, h⟩ := Seq.bind_eq_ok.mp h
  rcases hinvoke : manager.invoke s info with ⟨e | result, s₁⟩
  · rw [hinvoke] at h
    cases h
  · rw [hinvoke] at h
    cases h
    constructor
    · cases htx : tx.hash with
      | none =>
        unfold tapeInitInfo at hinfo
        rw [htx] at hinfo
        cases hinfo
      | some _ => simp [Execution.hash, htx]
    · intro log hlog
      obtain ⟨access, -, rfl⟩ := List.mem_map.mp hlog
      rfl

/-- The block tip: its logs carry the index that the batch ends with, and it has no events. -/
theorem BatchExecutor.finishBatch_tip {σ T : Type} {manager : BlockExeManager σ T} {s : σ}
    {txIndexInL1Batch : U32} {blockResult : VmBlockResult} {txTraces : List T}
    (h : BatchExecutor.finishBatch manager s txIndexInL1Batch = .ok (blockResult, txTraces)) :
    ∃ queries, blockResult.blockTipResult = .fromStorageEvents queries [] txIndexInL1Batch := by
  unfold BatchExecutor.finishBatch at h
  cases hresult : manager.finishBatch s with
  | error e =>
    rw [hresult] at h
    cases h
  | ok result =>
    rw [hresult] at h
    cases h
    exact ⟨result.blockTipQueries, rfl⟩

namespace MiniblockSealCommand

/-- The command passes its checks, its storage logs are those of `sources` in order, and its
groups are the sources that have a log, each under its own hash. -/
structure Attributed (command : MiniblockSealCommand) (isFictive : Bool)
    (sources : List (H256 × VmPartialExecutionResult)) : Prop where
  valid : command.assertValidMiniblock isFictive = .ok ()
  storageLogs : command.miniblock.storageLogs = sources.flatMap fun source => source.2.storageLogs
  writeLogs : ∃ groups, command.extractWriteLogs isFictive = .ok groups ∧
    groups = (sources.filter fun source => !source.2.storageLogs.isEmpty).map (fun source =>
      (source.1, (source.2.storageLogs.filter fun log => log.logQuery.rwFlag).map
        StorageLog.fromLogQuery)) ∧
    groups.flatMap Prod.snd = (command.miniblock.storageLogs.filter fun log =>
      log.logQuery.rwFlag).map StorageLog.fromLogQuery
  events : ∃ groups, command.extractEvents isFictive = .ok groups ∧
    groups.map (fun group => (group.1.txHash, group.2)) =
      (sources.filter fun source => !source.2.events.isEmpty).map fun source =>
        (source.1, source.2.events)

/-- Runs of entries that stand for consecutive indices. -/
theorem mapM_splitBy {α β γ : Type} (key : α → ℕ) {sources : List γ} {entries : γ → List α}
    {first : ℕ} (hkey : ∀ p ∈ sources.zipIdx first, ∀ a ∈ entries p.1, key a = p.2)
    {f : List α → Except String β} (g : γ × ℕ → β)
    (hf : ∀ p ∈ sources.zipIdx first, entries p.1 ≠ [] → f (entries p.1) = .ok (g p)) :
    ((sources.flatMap entries).splitBy fun a b => decide (key a = key b)).mapM f =
      .ok (((sources.zipIdx first).filter fun p => !(entries p.1).isEmpty).map g) := by
  have hblocks : sources.flatMap entries =
      ((sources.zipIdx first).map fun p => (p.2, entries p.1)).flatMap Prod.snd := by
    rw [List.flatMap_map]
    conv_lhs => rw [← List.zipIdx_map_fst first sources, List.flatMap_map]
  rw [hblocks, SortedGroups.splitBy_flatMap]
  · rw [List.filter_map, List.map_map, List.mapM_map]
    refine Seq.mapM_eq_ok fun p hp => ?_
    obtain ⟨hp, hne⟩ := List.mem_filter.mp hp
    exact hf p hp (by simpa using hne)
  · rw [List.pairwise_map]
    have hsorted : ((sources.zipIdx first).map Prod.snd).Pairwise (· < ·) := by
      rw [List.zipIdx_map_snd]
      exact List.pairwise_lt_range'
    exact (List.pairwise_map.mp hsorted).imp fun h => h.ne
  · rintro _ hblock a ha
    obtain ⟨p, hp, rfl⟩ := List.mem_map.mp hblock
    exact hkey p hp a ha

theorem map_filter_zipIdx {α β : Type} (l : List α) (first : ℕ) (p : α → Bool) (f : α → β) :
    ((l.zipIdx first).filter fun q => p q.1).map (fun q => f q.1) = (l.filter p).map f := by
  conv_rhs => rw [← List.zipIdx_map_fst first l, List.filter_map, List.map_map]
  rfl

theorem headKey {α : Type} {key : α → ℕ} {entries : List α} {index : ℕ} (hne : entries ≠ [])
    (hkey : ∀ a ∈ entries, key a = index) : (entries.head?.map key).getD 0 = index := by
  cases entries with
  | nil => exact absurd rfl hne
  | cons a as => exact hkey a List.mem_cons_self

theorem exists_mem_zipIdx {α : Type} {l : List α} {a : α} (h : a ∈ l) (first : ℕ) :
    ∃ i, (a, i) ∈ l.zipIdx first := by
  rw [← List.zipIdx_map_fst first l] at h
  obtain ⟨⟨b, i⟩, hmem, rfl⟩ := List.mem_map.mp h
  exact ⟨i, hmem⟩

theorem zipIdx_range {α : Type} {l : List α} {first : ℕ} {p : α × ℕ} (hp : p ∈ l.zipIdx first) :
    first ≤ p.2 ∧ p.2 < first + l.length := by
  have := List.mem_zipIdx hp
  omega

/-- A command whose entries carry consecutive indices, and in which every index in use leads to
the hash of its source. -/
structure Indexed (command : MiniblockSealCommand) (isFictive : Bool)
    (sources : List (H256 × VmPartialExecutionResult)) : Prop where
  isEmpty : command.miniblock.executedTransactions.isEmpty = isFictive
  length : sources.length = if isFictive then 1
    else command.miniblock.executedTransactions.length
  storageLogs : command.miniblock.storageLogs = sources.flatMap fun source => source.2.storageLogs
  events : command.miniblock.events = sources.flatMap fun source => source.2.events
  logIndex : ∀ p ∈ sources.zipIdx command.firstTxIndex, ∀ log ∈ p.1.2.storageLogs,
    log.logQuery.txNumberInBlock.val = p.2
  eventIndex : ∀ p ∈ sources.zipIdx command.firstTxIndex, ∀ event ∈ p.1.2.events,
    event.location.2.val = p.2
  hash : ∀ p ∈ sources.zipIdx command.firstTxIndex, if isFictive then p.1.1 = .zero
    else ∃ tx, command.transaction p.2 = .ok tx ∧ tx.hash = some p.1.1

namespace Indexed

variable {command : MiniblockSealCommand} {isFictive : Bool}
  {sources : List (H256 × VmPartialExecutionResult)} (h : command.Indexed isFictive sources)

include h

/-- Every index in use is found. -/
theorem found {p : (H256 × VmPartialExecutionResult) × ℕ}
    (hp : p ∈ sources.zipIdx command.firstTxIndex) :
    command.groupHash isFictive p.2 = .ok p.1.1 ∧
      ∃ address, command.groupLocation isFictive p.2 = .ok (p.1.1, address) := by
  have hhash := h.hash p hp
  unfold groupHash groupLocation
  cases isFictive with
  | true =>
    have hp2 : p.2 = command.firstTxIndex := by
      have hrange := zipIdx_range hp
      have hlength := h.length
      simp only [if_true] at hlength
      omega
    simp only [if_true] at hhash
    rw [if_pos rfl, if_pos rfl, if_pos hp2, if_pos hp2, hhash]
    exact ⟨rfl, .zero, rfl⟩
  | false =>
    obtain ⟨tx, htx, hhash⟩ := hhash
    have hash_tx : hashOf tx = .ok p.1.1 := by
      unfold hashOf
      rw [hhash]
    rw [if_neg (by simp), if_neg (by simp), htx]
    refine ⟨hash_tx, tx.initiatorAccount, ?_⟩
    change (do
      let hash ← hashOf tx
      return (hash, tx.initiatorAccount)) = _
    rw [hash_tx]
    rfl

theorem assertValidMiniblock_eq : command.assertValidMiniblock isFictive = .ok () := by
  have hbounds : (if isFictive then
        (command.firstTxIndex + command.miniblock.executedTransactions.length,
          command.firstTxIndex + command.miniblock.executedTransactions.length + 1)
      else (command.firstTxIndex,
        command.firstTxIndex + command.miniblock.executedTransactions.length)) =
      (command.firstTxIndex, command.firstTxIndex + sources.length) := by
    cases isFictive with
    | true => simp [List.isEmpty_iff.mp h.isEmpty, h.length]
    | false => simp [h.length]
  unfold assertValidMiniblock
  rw [if_neg (by simp [h.isEmpty])]
  dsimp only
  rw [hbounds, if_pos, if_pos]
  · rw [List.all_eq_true, h.storageLogs]
    intro log hlog
    obtain ⟨source, hsource, hlog⟩ := List.mem_flatMap.mp hlog
    obtain ⟨i, hi⟩ := exists_mem_zipIdx hsource command.firstTxIndex
    simp [h.logIndex _ hi log hlog, zipIdx_range hi]
  · rw [List.all_eq_true, h.events]
    intro event hevent
    obtain ⟨source, hsource, hevent⟩ := List.mem_flatMap.mp hevent
    obtain ⟨i, hi⟩ := exists_mem_zipIdx hsource command.firstTxIndex
    simp [h.eventIndex _ hi event hevent, zipIdx_range hi]

theorem extractWriteLogs_eq : command.extractWriteLogs isFictive =
    .ok ((sources.filter fun source => !source.2.storageLogs.isEmpty).map fun source =>
      (source.1, (source.2.storageLogs.filter fun log => log.logQuery.rwFlag).map
        StorageLog.fromLogQuery)) := by
  unfold extractWriteLogs
  rw [h.storageLogs]
  simp only [Fin.ext_iff]
  rw [mapM_splitBy (fun log : StorageLogQuery => log.logQuery.txNumberInBlock.val) h.logIndex
    fun p => (p.1.1, (p.1.2.storageLogs.filter fun log => log.logQuery.rwFlag).map
      StorageLog.fromLogQuery)]
  · rw [← map_filter_zipIdx sources command.firstTxIndex]
  · intro p hp hne
    rw [headKey hne (h.logIndex p hp), (h.found hp).1]
    rfl

theorem extractEvents_eq : ∃ groups, command.extractEvents isFictive = .ok groups ∧
    groups.map (fun group => (group.1.txHash, group.2)) =
      (sources.filter fun source => !source.2.events.isEmpty).map fun source =>
        (source.1, source.2.events) := by
  -- the address of a group, as the code finds it
  let address (txIndex : ℕ) : Address :=
    match command.groupLocation isFictive txIndex with
    | .ok location => location.2
    | .error _ => .zero
  unfold extractEvents groupByTxLocation
  rw [h.events]
  refine ⟨_, mapM_splitBy (fun event : VmEvent => event.location.2.val) h.eventIndex
    (fun p => (⟨p.1.1, p.2 - command.firstTxIndex, address p.2⟩, p.1.2.events)) ?_, ?_⟩
  · intro p hp hne
    obtain ⟨a, ha⟩ := (h.found hp).2
    have haddress : address p.2 = a := by
      simp only [address, ha]
    rw [headKey hne (h.eventIndex p hp), haddress]
    dsimp only
    rw [ha]
    rfl
  · rw [List.map_map, ← map_filter_zipIdx sources command.firstTxIndex]
    rfl

theorem attributed : command.Attributed isFictive sources where
  valid := h.assertValidMiniblock_eq
  storageLogs := h.storageLogs
  writeLogs := by
    refine ⟨_, h.extractWriteLogs_eq, rfl, ?_⟩
    rw [h.storageLogs]
    clear h
    induction sources with
    | nil => rfl
    | cons source sources ih =>
      cases hsource : source.2.storageLogs with
      | nil => simpa [hsource] using ih
      | cons log logs =>
        simp only [List.filter_cons, hsource, List.isEmpty_cons, Bool.not_false, if_true,
          List.map_cons, List.flatMap_cons, ih, List.filter_append, List.map_append]
  events := h.extractEvents_eq

end Indexed

end MiniblockSealCommand

namespace Sequencer

/-- What updates are built from: the executions of the transactions in the sealed miniblocks, and of
those in the current one. -/
structure Records (executions : List Execution) (updates : UpdatesManager)
    (earlier current : List Execution) : Prop where
  sublist : (earlier ++ current).Sublist executions
  earlierLength : updates.l1Batch.executedTransactions.length = earlier.length
  transactions : updates.miniblock.executedTransactions.map TransactionExecutionResult.transaction =
    current.map Execution.transaction
  stamped : ∀ execution ∈ current, execution.Stamped
  indices : ∀ p ∈ current.zipIdx earlier.length, p.1.txIndexInL1Batch = Fin.ofNat _ p.2
  storageLogs : updates.miniblock.storageLogs =
    current.flatMap fun execution => execution.result.storageLogs
  events : updates.miniblock.events = current.flatMap fun execution => execution.result.events

namespace Records

variable {executions earlier current : List Execution} {updates : UpdatesManager}

theorem length_current (h : Records executions updates earlier current) :
    updates.miniblock.executedTransactions.length = current.length := by
  simpa using congrArg List.length h.transactions

theorem pendingLen (h : Records executions updates earlier current) :
    updates.pendingExecutedTransactionsLen = earlier.length + current.length := by
  unfold UpdatesManager.pendingExecutedTransactionsLen
  rw [h.earlierLength, h.length_current]

theorem mono (h : Records executions updates earlier current) (more : List Execution) :
    Records (executions ++ more) updates earlier current :=
  { h with sublist := h.sublist.trans (List.sublist_append_left _ _) }

theorem pushMiniblock (h : Records executions updates earlier current) (newTimestamp : U64) :
    Records executions (updates.pushMiniblock newTimestamp) (earlier ++ current) [] where
  sublist := by simpa using h.sublist
  earlierLength := by
    simp [UpdatesManager.pushMiniblock, L1BatchUpdates.extendFromSealedMiniblock, h.earlierLength,
      h.length_current]
  transactions := rfl
  stamped := nofun
  indices := nofun
  storageLogs := rfl
  events := rfl

theorem extend (h : Records executions updates earlier current) {T : Type} {tx : Transaction}
    {size : ℕ} {txResult : VmTxExeResult T} {metrics : ExecutionMetrics}
    {deduplicator : StorageWritesDeduplicator} {updates' : UpdatesManager}
    (hstamped : Execution.Stamped
      ⟨tx, Fin.ofNat _ updates.pendingExecutedTransactionsLen, txResult.result⟩)
    (hextend : { updates with
      storageWritesDeduplicator := deduplicator }.extendFromExecutedTransaction tx size txResult
        metrics = .ok updates') :
    Records (executions ++
        [⟨tx, Fin.ofNat _ updates.pendingExecutedTransactionsLen, txResult.result⟩])
        updates' earlier
      (current ++
        [⟨tx, Fin.ofNat _ updates.pendingExecutedTransactionsLen, txResult.result⟩]) := by
  obtain ⟨hash, -, rfl⟩ := UpdatesManager.extendFromExecutedTransaction_eq_ok.mp hextend
  constructor
  · rw [← List.append_assoc]
    exact h.sublist.append (List.Sublist.refl _)
  · exact h.earlierLength
  · simp [h.transactions]
  · intro execution hexecution
    rcases List.mem_append.mp hexecution with hcurrent | hlast
    · exact h.stamped execution hcurrent
    · rw [List.mem_singleton.mp hlast]
      exact hstamped
  · intro p hp
    rw [List.zipIdx_append] at hp
    rcases List.mem_append.mp hp with hcurrent | hlast
    · exact h.indices p hcurrent
    · rw [List.mem_singleton.mp hlast]
      simp [h.pendingLen]
  · simp [h.storageLogs]
  · simp [h.events]

/-- The command for a miniblock that is recorded. -/
theorem attributed (h : Records executions updates earlier current) (hne : current ≠ [])
    (hlength : updates.pendingExecutedTransactionsLen < 2 ^ 16)
    (hevents : ∀ execution ∈ executions, execution.EventsCarryIndex)
    (l1BatchNumber miniblockNumber : ℕ) :
    (updates.sealMiniblockCommand l1BatchNumber miniblockNumber).Attributed false
      (current.map fun execution => (execution.hash, execution.result)) := by
  have hmem : ∀ p ∈ (current.map fun execution => (execution.hash, execution.result)).zipIdx
      earlier.length, ∃ execution ∈ current, p.1 = (execution.hash, execution.result) ∧
        current[p.2 - earlier.length]? = some execution ∧
        execution.txIndexInL1Batch.val = p.2 ∧ p.2 < 2 ^ 16 := by
    intro p hp
    rw [List.zipIdx_map] at hp
    obtain ⟨⟨execution, i⟩, hi, rfl⟩ := List.mem_map.mp hp
    obtain ⟨hfirst, hlast, heq⟩ := List.mem_zipIdx hi
    have hpending := h.pendingLen
    have hget : current[i - earlier.length]? = some execution := by
      rw [List.getElem?_eq_getElem, heq]
    refine ⟨execution, List.mem_of_getElem? hget, rfl, hget, ?_, ?_⟩
    · rw [h.indices _ hi]
      exact Nat.mod_eq_of_lt (by dsimp only; omega)
    · change i < 2 ^ 16
      omega
  have hfirst : (updates.sealMiniblockCommand l1BatchNumber miniblockNumber).firstTxIndex =
      earlier.length := h.earlierLength
  refine MiniblockSealCommand.Indexed.attributed ⟨?_, ?_, ?_, ?_, ?_, ?_, ?_⟩
  · refine List.isEmpty_eq_false_iff.mpr fun hnil => hne (List.length_eq_zero_iff.mp ?_)
    rw [← h.length_current, List.length_eq_zero_iff]
    exact hnil
  · rw [List.length_map, ← h.length_current]
    rfl
  · rw [List.flatMap_map]
    exact h.storageLogs
  · rw [List.flatMap_map]
    exact h.events
  · intro p hp log hlog
    obtain ⟨execution, hexecution, hp1, -, hindex, hp2⟩ := hmem p (hfirst ▸ hp)
    rw [hp1] at hlog
    rw [(h.stamped execution hexecution).2 log hlog, hindex]
    exact Nat.mod_eq_of_lt hp2
  · intro p hp event hevent
    obtain ⟨execution, hexecution, hp1, -, hindex, -⟩ := hmem p (hfirst ▸ hp)
    rw [hp1] at hevent
    have hran : execution ∈ executions := h.sublist.subset (List.mem_append_right _ hexecution)
    rw [hevents execution hran event hevent, hindex]
  · intro p hp
    obtain ⟨execution, hexecution, hp1, hget, -, -⟩ := hmem p (hfirst ▸ hp)
    have hle : ¬ p.2 < earlier.length :=
      Nat.not_lt.mpr (hfirst ▸ (MiniblockSealCommand.zipIdx_range hp).1)
    have htx := congrArg (·[p.2 - earlier.length]?) h.transactions
    simp only [List.getElem?_map, hget, Option.map_some, Option.map_eq_some_iff] at htx
    obtain ⟨result, hresult, htx⟩ := htx
    refine ⟨result.transaction, ?_, ?_⟩
    · unfold MiniblockSealCommand.transaction
      have hexecuted : (updates.sealMiniblockCommand l1BatchNumber miniblockNumber).miniblock
          |>.executedTransactions[p.2 - earlier.length]? = some result := hresult
      rw [hfirst, if_neg hle, hexecuted]
    · rw [htx, hp1, (h.stamped execution hexecution).1]

end Records

/-- Every call to seal a miniblock, and the updates of a batch, are recorded. -/
structure Accounted {σ : Type} (s : BatchState σ) : Prop where
  updates : ∃ earlier current, Records s.executions s.updates earlier current
  calls : ∀ updates, .sealMiniblock updates ∈ s.io →
    (∃ earlier current, current ≠ [] ∧ Records s.executions updates earlier current) ∧
      updates.pendingExecutedTransactionsLen ≤ s.updates.pendingExecutedTransactionsLen

variable {σ T : Type} {env : SequencerEnv σ T}

theorem accounted_new (executor : σ) (batchTimestamp : U64) (protocolVersion : ProtocolVersionId) :
    Accounted { executor := executor, updates := .new batchTimestamp protocolVersion } where
  updates := ⟨[], [], .slnil, rfl, rfl, nofun, nofun, rfl, rfl⟩
  calls := nofun

theorem kept_accounted (env : SequencerEnv σ T) : Kept env Accounted := by
  intro s s' h hstep
  obtain ⟨earlier, current, hrecords⟩ := h.updates
  cases hstep with
  | included deduplicator hexec hextend =>
    have hnew := hrecords.extend (BatchExecutor.tx_stamped hexec) hextend
    refine ⟨⟨_, _, hnew⟩, fun updates hcall => ?_⟩
    obtain ⟨⟨earlier', current', hne, hcalled⟩, hle⟩ := h.calls updates hcall
    refine ⟨⟨earlier', current', hne, hcalled.mono _⟩, hle.trans ?_⟩
    rw [hrecords.pendingLen, hnew.pendingLen, List.length_append]
    omega
  | excluded executor deduplicator call executions hcall =>
    refine ⟨⟨earlier, current, { hrecords.mono executions with }⟩, fun updates hmem => ?_⟩
    rcases List.mem_append.mp hmem with hmem | hmem
    · obtain ⟨⟨earlier', current', hne, hcalled⟩, hle⟩ := h.calls updates hmem
      exact ⟨⟨earlier', current', hne, hcalled.mono _⟩, hle⟩
    · exact absurd (List.mem_singleton.mp hmem).symm (hcall updates)
  | sealMiniblock newTimestamp hne =>
    have hcurrent : current ≠ [] := by
      rintro rfl
      exact hne (List.length_eq_zero_iff.mp hrecords.length_current)
    refine ⟨⟨_, _, hrecords.pushMiniblock newTimestamp⟩, fun updates hmem => ?_⟩
    have hpending : (sealMiniblock newTimestamp s).updates.pendingExecutedTransactionsLen =
        s.updates.pendingExecutedTransactionsLen :=
      UpdatesManager.pendingExecutedTransactionsLen_pushMiniblock newTimestamp
    rcases List.mem_append.mp hmem with hmem | hmem
    · obtain ⟨hcalled, hle⟩ := h.calls updates hmem
      exact ⟨hcalled, hle.trans hpending.ge⟩
    · cases List.mem_singleton.mp hmem
      exact ⟨⟨earlier, current, hcurrent, hrecords⟩, hpending.ge⟩
  | pushMiniblock newTimestamp =>
    refine ⟨⟨_, _, hrecords.pushMiniblock newTimestamp⟩, fun updates hmem => ?_⟩
    obtain ⟨hcalled, hle⟩ := h.calls updates hmem
    exact ⟨hcalled, hle.trans
      (UpdatesManager.pendingExecutedTransactionsLen_pushMiniblock newTimestamp).ge⟩

/-- A batch from its start up to some turn of its loop. -/
def runLoop (env : SequencerEnv σ T) (input : BatchInput) (init : σ) :
    Except SequencerPanic (Bool × BatchState σ) := do
  let s ← start env input init
  processL1Batch env s input.protocolUpgradeTx input.turns

theorem accounted_runLoop {input : BatchInput} {init : σ} {done : Bool} {s : BatchState σ}
    (hrun : runLoop env input init = .ok (done, s)) : Accounted s := by
  unfold runLoop at hrun
  obtain ⟨s₁, hstart, hrun⟩ := Seq.bind_eq_ok.mp hrun
  have hs₁ : Accounted s₁ := Kept.start (kept_accounted env) (accounted_new _ _ _) hstart
  exact Kept.processL1Batch (kept_accounted env) hs₁ hrun

/-- The fictive miniblock of a finished batch. -/
theorem attributed_fictive {s : BatchState σ} (h : Accounted s)
    (hlength : s.updates.pendingExecutedTransactionsLen < 2 ^ 16) {fictiveMiniblockTimestamp : U64}
    {finished : FinishedBatch T} (hfinish : finish env fictiveMiniblockTimestamp s = .ok finished)
    (l1BatchNumber miniblockNumber : ℕ) :
    ((finished.updates.extendFromFictiveTransaction
        finished.blockResult.blockTipResult).sealMiniblockCommand l1BatchNumber
          miniblockNumber).Attributed true [(.zero, finished.blockResult.blockTipResult)] := by
  obtain ⟨hempty, hpending, -⟩ := sealLastMiniblock_spec fictiveMiniblockTimestamp s
  obtain ⟨earlier, current, hrecords⟩ :=
    (Kept.sealLastMiniblock (kept_accounted env) h fictiveMiniblockTimestamp).updates
  unfold finish at hfinish
  dsimp only at hfinish
  generalize sealLastMiniblock fictiveMiniblockTimestamp s = s₁ at hempty hpending hrecords hfinish
  obtain ⟨⟨blockResult, txTraces⟩, hbatch, hfinish⟩ := Seq.bind_eq_ok.mp hfinish
  cases hfinish
  obtain ⟨queries, htip⟩ := BatchExecutor.finishBatch_tip hbatch
  dsimp only
  have hcurrent : current = [] := by
    rw [← List.length_eq_zero_iff, ← hrecords.length_current, hempty]
    rfl
  subst hcurrent
  have hindex : s₁.updates.pendingExecutedTransactionsLen % 2 ^ 32 % 2 ^ 16 =
      s₁.updates.l1Batch.executedTransactions.length := by
    have hearlier := hrecords.earlierLength
    have hlen := hrecords.pendingLen
    rw [List.length_nil] at hlen
    omega
  refine MiniblockSealCommand.Indexed.attributed ⟨?_, rfl, ?_, ?_, ?_, ?_, ?_⟩
  · exact List.isEmpty_iff.mpr hempty
  · change s₁.updates.miniblock.storageLogs ++ blockResult.blockTipResult.storageLogs = _
    rw [hrecords.storageLogs]
    simp
  · change s₁.updates.miniblock.events ++ blockResult.blockTipResult.events = _
    rw [hrecords.events]
    simp
  · rintro p (_ | ⟨_, ⟨⟩⟩) log hlog
    rw [htip] at hlog
    obtain ⟨access, -, rfl⟩ := List.mem_map.mp hlog
    exact hindex
  · rintro p (_ | ⟨_, ⟨⟩⟩) event hevent
    rw [htip] at hevent
    cases hevent
  · rintro p (_ | ⟨_, ⟨⟩⟩)
    rfl

/-- What a batch submits is attributed: each miniblock to executions of the batch, the fictive one
to the block tip. -/
def SubmitsAttributed (env : SequencerEnv σ T) (fictiveMiniblockTimestamp : U64)
    (s : BatchState σ) : Prop :=
  (∀ updates, .sealMiniblock updates ∈ (sealLastMiniblock fictiveMiniblockTimestamp s).io →
    ∃ included : List Execution, included.Sublist s.executions ∧
      updates.miniblock.executedTransactions.map TransactionExecutionResult.transaction =
        included.map Execution.transaction ∧
      ∀ l1BatchNumber miniblockNumber,
        (updates.sealMiniblockCommand l1BatchNumber miniblockNumber).Attributed false
          (included.map fun execution => (execution.hash, execution.result))) ∧
  ∀ finished, finish env fictiveMiniblockTimestamp s = .ok finished →
    ∀ l1BatchNumber miniblockNumber,
      ((finished.updates.extendFromFictiveTransaction
          finished.blockResult.blockTipResult).sealMiniblockCommand l1BatchNumber
            miniblockNumber).Attributed true [(.zero, finished.blockResult.blockTipResult)]

/-- In every batch with fewer than 65536 transactions, with any split into miniblocks, each
submitted miniblock passes the checks of sealing, and its write logs stand under the hashes of the
transactions whose executions made them; those of the block tip stand under the zero hash. -/
theorem submitted_attributed (env : SequencerEnv σ T) (input : BatchInput) (init : σ) (done : Bool)
    (s : BatchState σ) (hrun : runLoop env input init = .ok (done, s))
    (hlength : s.updates.pendingExecutedTransactionsLen < 2 ^ 16)
    (hevents : ∀ execution ∈ s.executions, execution.EventsCarryIndex) :
    SubmitsAttributed env input.fictiveMiniblockTimestamp s := by
  have haccounted := accounted_runLoop hrun
  constructor
  · intro updates hcall
    obtain ⟨-, hpending, hexecutions⟩ :=
      sealLastMiniblock_spec input.fictiveMiniblockTimestamp s
    have hlast := Kept.sealLastMiniblock (kept_accounted env) haccounted
      input.fictiveMiniblockTimestamp
    obtain ⟨⟨earlier, current, hne, hrecords⟩, hle⟩ := hlast.calls updates hcall
    rw [hexecutions] at hrecords
    rw [hpending] at hle
    exact ⟨current, (List.sublist_append_right _ _).trans hrecords.sublist, hrecords.transactions,
      hrecords.attributed hne (hle.trans_lt hlength) hevents⟩
  · intro finished hfinish l1BatchNumber miniblockNumber
    exact attributed_fictive haccounted hlength hfinish l1BatchNumber miniblockNumber

/-- A manager whose transactions write one slot and emit one event each, with the number of
earlier ones; the block tip writes a slot too. -/
def writingManager : BlockExeManager ℕ Unit where
  invoke s _ := (.ok ⟨[⟨0, .initialWrite, 0, fun _ => Fin.ofNat _ s, none, some 1⟩],
    [⟨1, Fin.ofNat _ s, 0, [], []⟩], ()⟩, s + 1)
  finishBatch s := .ok ⟨[], [], [⟨0, .repeatedWrite, 0, 0, some 1, some 2⟩], List.replicate s ()⟩

def writingEnv : SequencerEnv ℕ Unit where
  manager := writingManager
  sealer := ⟨some ⟨250, 1000, 1000⟩⟩
  encodedSize _ _ := 1

/-- Two transactions in a miniblock each. -/
def splitInput : BatchInput where
  batchTimestamp := 1
  protocolVersion := 0
  pendingMiniblocks := []
  protocolUpgradeTx := none
  turns := [⟨false, false, 0, some (sampleSigned 0 [])⟩, ⟨false, true, 2, some (sampleSigned 1 [])⟩,
    ⟨true, false, 0, none⟩]
  newTimestamp := 0
  fictiveMiniblockTimestamp := 3

/-- Both miniblocks and the fictive one are attributed. -/
theorem submitted_attributed_sample : ∃ s, runLoop writingEnv splitInput 0 = .ok (true, s) ∧
    (sealLastMiniblock 3 s).io.length = 2 ∧ s.executions.length = 2 ∧
    SubmitsAttributed writingEnv 3 s := by
  refine ⟨_, rfl, rfl, rfl, submitted_attributed writingEnv splitInput 0 true _ rfl (by decide) ?_⟩
  rintro execution (_ | ⟨_, _ | ⟨_, ⟨⟩⟩⟩) event (_ | ⟨_, ⟨⟩⟩)
  · rfl
  · rfl

end Sequencer

end OlaOs
