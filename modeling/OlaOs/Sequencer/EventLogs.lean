import OlaOs.Sequencer.HistoricalReads

/-! The logs that the API returns for a transaction are the events that the virtual machine made in
it, in every state of the chain. -/
namespace OlaOs

/-! Groups of events -/

theorem isChain_same {α : Type} {key : α → ℕ} {a : α} {group : List α}
    (h : (a :: group).IsChain fun a b => (decide (key a = key b) : Bool) = true) :
    ∀ b ∈ group, key b = key a := by
  induction group generalizing a with
  | nil => nofun
  | cons b group ih =>
    rw [List.isChain_cons_cons] at h
    have hab : key a = key b := of_decide_eq_true h.1
    intro c hc
    rcases List.mem_cons.mp hc with rfl | hc
    · exact hab.symm
    · rw [ih h.2 c hc, hab]

namespace MiniblockSealCommand

variable {command : MiniblockSealCommand} {isFictive : Bool}

/-- The hash of a location is that of the write logs with the same index. -/
theorem groupHash_of_groupLocation {txIndex : ℕ} {txHash : H256} {address : Address}
    (h : command.groupLocation isFictive txIndex = .ok (txHash, address)) :
    command.groupHash isFictive txIndex = .ok txHash := by
  unfold groupLocation at h
  unfold groupHash
  split_ifs at h ⊢
  · cases h
    rfl
  · obtain ⟨tx, htx, h⟩ := Seq.bind_eq_ok.mp h
    obtain ⟨hash, hhash, h⟩ := Seq.bind_eq_ok.mp h
    cases h
    exact Seq.bind_eq_ok.mpr ⟨tx, htx, hhash⟩

/-- An event with the place that it is saved with. -/
def Located (command : MiniblockSealCommand) (isFictive : Bool)
    (entry : IncludedTxLocation × VmEvent) : Prop :=
  command.groupHash isFictive entry.2.location.2.val = .ok entry.1.txHash ∧
    entry.1.txIndexInMiniblock = entry.2.location.2.val - command.firstTxIndex

/-- The groups are all events in their order, each with its own place. -/
theorem extractEvents_ok {groups : List (IncludedTxLocation × List VmEvent)}
    (h : command.extractEvents isFictive = .ok groups) :
    (EventsDal.locatedEvents groups).map (fun e => e.2.1) = command.miniblock.events ∧
      ∀ e ∈ EventsDal.locatedEvents groups, command.Located isFictive (e.1, e.2.1) := by
  unfold extractEvents groupByTxLocation at h
  constructor
  · have hgroups := Seq.map_of_mapM (p := Prod.snd) (q := id) (fun group b hb => by
      obtain ⟨⟨txHash, address⟩, -, hb⟩ := Seq.bind_eq_ok.mp hb
      cases hb
      rfl) h
    rw [List.map_id] at hgroups
    rw [EventsDal.locatedEvents, List.map_flatMap]
    have hinner (entry : IncludedTxLocation × List VmEvent) :
        (entry.2.zipIdx.map fun e => (entry.1, e.1, e.2)).map
          (fun e : IncludedTxLocation × VmEvent × ℕ => e.2.1) = entry.2 := by
      rw [List.map_map]
      exact List.zipIdx_map_fst 0 entry.2
    rw [List.flatMap_congr fun entry _ => hinner entry, List.flatMap_def, hgroups,
      List.flatten_splitBy]
  · intro e he
    obtain ⟨entry, hentry, he⟩ := List.mem_flatMap.mp he
    obtain ⟨⟨event, index⟩, hevent, rfl⟩ := List.mem_map.mp he
    obtain ⟨group, hgroup, hrun⟩ := (Seq.mem_mapM h).2 _ hentry
    obtain ⟨⟨txHash, address⟩, hlocation, hrun⟩ := Seq.bind_eq_ok.mp hrun
    cases hrun
    have hmem : event ∈ group := List.fst_mem_of_mem_zipIdx hevent
    have hchain := List.isChain_of_mem_splitBy hgroup
    cases group with
    | nil => cases hmem
    | cons first rest =>
      have hsame : event.location.2.val = first.location.2.val := by
        rcases List.mem_cons.mp hmem with rfl | hmem
        · rfl
        · exact isChain_same hchain event hmem
      refine ⟨?_, ?_⟩
      · rw [hsame]
        exact groupHash_of_groupLocation hlocation
      · rw [hsame]
        rfl

/-- The log for an event of the miniblock and its place among all of them. -/
def sealedLog (command : MiniblockSealCommand) (txHash : H256) (entry : VmEvent × ℕ) :
    Api.Log where
  address := entry.1.address
  topics := entry.1.indexedTopics.take 4
  data := entry.1.value
  blockHash := none
  blockNumber := some command.miniblockNumber
  l1BatchNumber := none
  transactionHash := some txHash
  transactionIndex := some (entry.1.location.2.val - command.firstTxIndex)
  logIndex := some entry.2
  transactionLogIndex := some entry.2
  logType := none
  removed := some false

/-- The events of the transactions with a hash, each with its place in the miniblock. -/
def eventsOf (command : MiniblockSealCommand) (isFictive : Bool) (txHash : H256) :
    List (VmEvent × ℕ) :=
  command.miniblock.events.zipIdx.filter fun entry =>
    (command.groupHash isFictive entry.1.location.2.val).toOption = some txHash

theorem topics_eq (topics : List H256) :
    [topics[0]?, topics[1]?, topics[2]?, topics[3]?].filterMap id = topics.take 4 := by
  rcases topics with _ | ⟨_, _ | ⟨_, _ | ⟨_, _ | ⟨_, _⟩⟩⟩⟩ <;> rfl

theorem intoLog_eventRow {entry : IncludedTxLocation × VmEvent × ℕ} (place : ℕ)
    (hlocated : command.Located isFictive (entry.1, entry.2.1))
    (hnumber : command.miniblockNumber < 2 ^ 32) :
    (EventsDal.eventRow command.miniblockNumber (entry, place)).intoLog =
      command.sealedLog entry.1.txHash (entry.2.1, place) := by
  have hindex : entry.1.txIndexInMiniblock =
      entry.2.1.location.2.val - command.firstTxIndex := hlocated.2
  simp only [EventsDal.eventRow, EventRow.intoLog, sealedLog, topics_eq, hindex,
    Nat.mod_eq_of_lt hnumber]

/-- The rows of a miniblock for one transaction hash. -/
theorem logs_of_extractEvents {groups : List (IncludedTxLocation × List VmEvent)}
    (h : command.extractEvents isFictive = .ok groups)
    (hnumber : command.miniblockNumber < 2 ^ 32) (txHash : H256) :
    ((((EventsDal.locatedEvents groups).zipIdx.map
        (EventsDal.eventRow command.miniblockNumber)).filter
          fun row => row.txHash = txHash).map EventRow.intoLog) =
      (command.eventsOf isFictive txHash).map (command.sealedLog txHash) := by
  obtain ⟨hevents, hlocated⟩ := extractEvents_ok h
  rw [eventsOf, ← hevents, List.zipIdx_map, List.filter_map, List.filter_map, List.map_map,
    List.map_map]
  have hmem {entry : (IncludedTxLocation × VmEvent × ℕ) × ℕ}
      (hentry : entry ∈ (EventsDal.locatedEvents groups).zipIdx) :
      command.Located isFictive (entry.1.1, entry.1.2.1) :=
    hlocated entry.1 (List.fst_mem_of_mem_zipIdx hentry)
  have hhash {entry : (IncludedTxLocation × VmEvent × ℕ) × ℕ}
      (hentry : entry ∈ (EventsDal.locatedEvents groups).zipIdx) :
      (command.groupHash isFictive entry.1.2.1.location.2.val).toOption =
        some entry.1.1.txHash := by
    rw [(hmem hentry).1]
    rfl
  have hfilter : (EventsDal.locatedEvents groups).zipIdx.filter
      ((fun row : EventRow => decide (row.txHash = txHash)) ∘
        EventsDal.eventRow command.miniblockNumber) =
      (EventsDal.locatedEvents groups).zipIdx.filter
        ((fun entry : VmEvent × ℕ => decide ((command.groupHash isFictive
          entry.1.location.2.val).toOption = some txHash)) ∘
            Prod.map (fun e : IncludedTxLocation × VmEvent × ℕ => e.2.1) id) := by
    apply List.filter_congr
    intro entry hentry
    change decide (entry.1.1.txHash = txHash) = decide ((command.groupHash isFictive
      entry.1.2.1.location.2.val).toOption = some txHash)
    rw [hhash hentry, decide_eq_decide, Option.some_inj]
  rw [hfilter]
  apply List.map_congr_left
  intro entry hentry
  obtain ⟨hin, hcond⟩ := List.mem_filter.mp hentry
  have hsome : (command.groupHash isFictive entry.1.2.1.location.2.val).toOption = some txHash :=
    of_decide_eq_true hcond
  rw [hhash hin, Option.some_inj] at hsome
  subst hsome
  exact intoLog_eventRow entry.2 (hmem hin) hnumber

end MiniblockSealCommand

namespace EventsDal

theorem saveEvents_ok {table table' : List EventRow} {number : ℕ}
    {groups : List (IncludedTxLocation × List VmEvent)}
    (h : saveEvents table number groups = .ok table') :
    table' = table ++ (locatedEvents groups).zipIdx.map (eventRow number) := by
  unfold saveEvents at h
  dsimp only at h
  split_ifs at h
  exact (insertRows_eq_ok.mp h).2

/-- Rows that stand in their order are read in it. -/
theorem orderedEvents_eq {table : List EventRow} (h : table.Pairwise fun a b =>
    a.miniblockNumber < b.miniblockNumber ∨
      a.miniblockNumber = b.miniblockNumber ∧ a.eventIndexInBlock < b.eventIndexInBlock)
    (p : EventRow → Bool) : orderedEvents table p = table.filter p := by
  refine List.mergeSort_of_pairwise ((h.filter p).imp ?_)
  rintro a b (hlt | ⟨heq, hlt⟩)
  · simp [precedes, hlt]
  · simp [precedes, heq, hlt.le]

/-- The logs of one transaction hash. -/
theorem lookup_getLogsByTxHashes {table : List EventRow} (h : table.Pairwise fun a b =>
    a.miniblockNumber < b.miniblockNumber ∨
      a.miniblockNumber = b.miniblockNumber ∧ a.eventIndexInBlock < b.eventIndexInBlock)
    (hashes : List H256) (txHash : H256) : (getLogsByTxHashes table hashes).lookup txHash =
      if txHash ∈ hashes ∧ (table.filter fun row => row.txHash = txHash) ≠ [] then
        some ((table.filter fun row => row.txHash = txHash).map EventRow.intoLog)
      else none := by
  rw [getLogsByTxHashes, orderedEvents_eq h, lookup_collectLogs, List.filter_filter]
  by_cases hmem : txHash ∈ hashes
  · have hsame : table.filter (fun row => decide (row.txHash = txHash) &&
        decide (row.txHash ∈ hashes)) = table.filter fun row => row.txHash = txHash :=
      List.filter_congr fun row _ => txHash_and_mem hmem row
    rw [hsame]
    by_cases hnil : table.filter (fun row => row.txHash = txHash) = []
    · rw [if_pos hnil, if_neg (by simp [hnil])]
    · rw [if_neg hnil, if_pos ⟨hmem, hnil⟩]
  · have hnone : table.filter (fun row => decide (row.txHash = txHash) &&
        decide (row.txHash ∈ hashes)) = [] := by
      rw [List.filter_eq_nil_iff]
      intro row _ hrow
      simp only [Bool.and_eq_true, decide_eq_true_eq] at hrow
      exact hmem (hrow.1 ▸ hrow.2)
    rw [hnone, if_pos rfl, if_neg (by simp [hmem])]

end EventsDal

namespace ChainState

variable {hash : List UInt8 → H256} {s s' : ChainState}

/-- The logs of a transaction hash in the sealed miniblocks, as the virtual machine made them. -/
def sealedLogs (s : ChainState) (txHash : H256) : List Api.Log :=
  s.commands.flatMap fun (command, isFictive) =>
    (command.eventsOf isFictive txHash).map (command.sealedLog txHash)

structure EventsInv (s : ChainState) : Prop where
  ordered : s.chain.events.Pairwise fun a b => a.miniblockNumber < b.miniblockNumber ∨
    a.miniblockNumber = b.miniblockNumber ∧ a.eventIndexInBlock < b.eventIndexInBlock
  number_le : ∀ row ∈ s.chain.events,
    row.miniblockNumber ≤ s.io.storage.getSealedMiniblockNumber
  logs : ∀ txHash, (s.chain.events.filter fun row => row.txHash = txHash).map EventRow.intoLog =
    s.sealedLogs txHash

theorem EventsInv.seals (h : EventsInv s) (hs : Reachable hash s) (hstep : Step hash s s')
    {command : MiniblockSealCommand} {isFictive : Bool}
    (hseals : Seals hash command isFictive s s') : EventsInv s' := by
  obtain ⟨groups, hgroups, hsave⟩ := hseals.events
  obtain ⟨hnumber, hsealed⟩ := hseals.number_succ hs hstep
  obtain ⟨bound, hinv, -⟩ := hs.tables
  have hlt : command.miniblockNumber < 2 ^ 32 := by
    rw [hseals.number_eq, hinv.currentMiniblockNumber]
    exact Nat.mod_lt _ (by norm_num)
  have hevents := EventsDal.saveEvents_ok hsave
  have hnew : ∀ row ∈ (EventsDal.locatedEvents groups).zipIdx.map
      (EventsDal.eventRow command.miniblockNumber),
      row.miniblockNumber = command.miniblockNumber := by
    intro row hrow
    obtain ⟨e, -, rfl⟩ := List.mem_map.mp hrow
    rfl
  refine ⟨?_, ?_, fun txHash => ?_⟩
  · rw [hevents, List.pairwise_append]
    refine ⟨h.ordered, ?_, fun a ha b hb => ?_⟩
    · -- the events of the miniblock stand in the order of their places
      have hplaces := List.pairwise_lt_range' (s := 0)
        (n := (EventsDal.locatedEvents groups).length)
      rw [← List.zipIdx_map_snd 0, List.pairwise_map] at hplaces
      rw [List.pairwise_map]
      exact hplaces.imp fun hab => .inr ⟨rfl, hab⟩
    · have hle := h.number_le a ha
      rw [hnew b hb]
      exact .inl (by omega)
  · intro row hrow
    rw [hevents] at hrow
    rcases List.mem_append.mp hrow with hrow | hrow
    · have hle := h.number_le row hrow
      omega
    · rw [hnew row hrow]
      omega
  · rw [hevents, List.filter_append, List.map_append, h.logs, sealedLogs, sealedLogs,
      hseals.commands, List.flatMap_append, List.flatMap_singleton,
      MiniblockSealCommand.logs_of_extractEvents hgroups hlt]

theorem Reachable.eventsInv (h : Reachable hash s) : EventsInv s := by
  induction h with
  | genesis h =>
    cases h with
    | create batchTimestamp protocolVersion _ _ hchain _ _ =>
      obtain ⟨⟨storage', updates⟩, -, hchain⟩ := Seq.bind_eq_ok.mp hchain
      cases hchain
      exact ⟨.nil, nofun, fun _ => rfl⟩
  | step hs hstep ih =>
    rcases hstep.cases hs with ⟨hstorage, -, hchain, -, hcommands⟩ | ⟨command, isFictive, hseals⟩
    · refine ⟨?_, ?_, ?_⟩
      · rw [hchain]
        exact ih.ordered
      · rw [hchain, hstorage]
        exact ih.number_le
      · rw [hchain]
        simp only [sealedLogs, hcommands]
        exact ih.logs
    · exact ih.seals hs hstep hseals

/-- In every state of the chain, the logs that the API returns for a transaction hash are the events
of the sealed transactions with this hash, in the order in which the virtual machine made them, each
with its miniblock and its place there; nothing is returned for other hashes. -/
theorem Reachable.getLogsByTxHashes_eq (hash : List UInt8 → H256) (s : ChainState)
    (h : Reachable hash s) (hashes : List H256) (txHash : H256) :
    (EventsDal.getLogsByTxHashes s.chain.events hashes).lookup txHash =
      if txHash ∈ hashes ∧ s.sealedLogs txHash ≠ [] then some (s.sealedLogs txHash) else none := by
  have hinv := h.eventsInv
  rw [EventsDal.lookup_getLogsByTxHashes hinv.ordered, ← hinv.logs]
  refine if_congr (and_congr_right fun _ => not_congr ?_) rfl rfl
  exact List.map_eq_nil_iff.symm

theorem sampleChainRun_events : (sampleChainRun.toOption.map fun run =>
    run.2.2.2.events.map fun row => (row.txHash, row.miniblockNumber)) =
      some [(u256ToH256 9, 1)] := by
  simp only [sampleChainRun, SequencerIo.sealL1Batch, UpdatesManager.sealL1Batch, sort_sampleBatch]
  decide +kernel

/-- The event of the transaction of the sample. -/
theorem Reachable.getLogsByTxHashes_eq_sample : ∃ s : ChainState, Reachable sampleHash s ∧
    s.chain.events.map (fun row => (row.txHash, row.miniblockNumber)) = [(u256ToH256 9, 1)] ∧
    ∀ txHash, (EventsDal.getLogsByTxHashes s.chain.events [u256ToH256 9]).lookup txHash =
      if txHash ∈ [u256ToH256 9] ∧ s.sealedLogs txHash ≠ [] then some (s.sealedLogs txHash)
      else none := by
  obtain ⟨s, s', hs, hsteps, -, -, io, chain, hrun⟩ := reachable_sample
  have hevents := sampleChainRun_events
  rw [hrun] at hevents
  have hs' := hs.trans hsteps
  exact ⟨s', hs', Option.some.inj hevents,
    fun txHash => Reachable.getLogsByTxHashes_eq sampleHash s' hs' [u256ToH256 9] txHash⟩

end ChainState

end OlaOs
