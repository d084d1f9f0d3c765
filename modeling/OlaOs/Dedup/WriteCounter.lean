import OlaOs.Dedup.Rollback

/-! The running write counters against the deduplication at seal, over whole runs. -/
namespace OlaOs

open StorageWritesDeduplicator

/-- The slot of a storage key, when every key is used with one shard. -/
def slotOf (shard : StorageKey → U8) (key : StorageKey) : Slot :=
  ⟨shard key, key.account, h256ToU256 key.key⟩

/-- A log that names the shard of its key and, for a write, carries the tag of its key. -/
structure Tagged (shard : StorageKey → U8) (tag : StorageKey → Bool) (log : StorageLogQuery) :
    Prop where
  shardId : log.logQuery.shardId = shard log.logQuery.storageKey
  logType : log.logQuery.rwFlag = true →
    decide (log.logType = .initialWrite) = tag log.logQuery.storageKey

/-- Logs that can be replayed from the store `initial`. -/
def Replayable (initial : Slot → U256) (logs : List StorageLogQuery) : Prop :=
  (replay (startSlots initial) (logs.map StorageLogQuery.logQuery)).isSome = true

/-- The deduplicators that a batch can reach: the logs of transactions are applied, or applied and
rolled back when the transaction is dropped. -/
inductive WriteRun (initial : Slot → U256) (shard : StorageKey → U8) (tag : StorageKey → Bool) :
    List StorageLogQuery → StorageWritesDeduplicator → Prop where
  | new : WriteRun initial shard tag [] {}
  | apply {applied : List StorageLogQuery} {d : StorageWritesDeduplicator}
      (logs : List StorageLogQuery) : WriteRun initial shard tag applied d →
      (∀ log ∈ logs, Tagged shard tag log) → Replayable initial (applied ++ logs) →
      WriteRun initial shard tag (applied ++ logs) (d.apply logs)
  | applyAndRollback {applied : List StorageLogQuery} {d : StorageWritesDeduplicator}
      (logs : List StorageLogQuery) : WriteRun initial shard tag applied d →
      (∀ log ∈ logs, Tagged shard tag log) → Replayable initial (applied ++ logs) →
      WriteRun initial shard tag applied (d.applyAndRollback logs).2

/-- The counters for a set of changed keys. -/
def countsOf (tag : StorageKey → Bool) (keys : Finset StorageKey) : DeduplicatedWritesMetrics where
  initialStorageWrites := (keys.filter fun key => tag key = true).card
  repeatedStorageWrites := (keys.filter fun key => tag key = false).card

variable {initial : Slot → U256} {shard : StorageKey → U8} {tag : StorageKey → Bool}

theorem slotOf_injective : Function.Injective (slotOf shard) := by
  rintro ⟨account, key⟩ ⟨account', key'⟩ h
  simp only [slotOf, Slot.mk.injEq] at h
  obtain ⟨-, rfl, hkey⟩ := h
  rw [← u256ToH256_h256ToU256 key, hkey, u256ToH256_h256ToU256]

theorem Tagged.slotOf_eq {log : StorageLogQuery} (h : Tagged shard tag log) :
    slotOf shard log.logQuery.storageKey = log.logQuery.slot := by
  unfold slotOf
  rw [← h.shardId]
  simp only [LogQuery.storageKey, h256ToU256_u256ToH256]
  rfl

theorem countsOf_insert {keys : Finset StorageKey} {key : StorageKey} (h : key ∉ keys) :
    countsOf tag (insert key keys) = (countsOf tag keys).change (tag key) (· + 1) := by
  unfold countsOf DeduplicatedWritesMetrics.change
  cases htag : tag key <;> simp [Finset.filter_insert, htag, h]

theorem countsOf_erase {keys : Finset StorageKey} {key : StorageKey} (h : key ∈ keys) :
    countsOf tag (keys.erase key) = (countsOf tag keys).change (tag key) (· - 1) := by
  rw [← (countsOf tag (keys.erase key)).change_add_sub (tag key),
    ← countsOf_insert (Finset.notMem_erase key keys), Finset.insert_erase h]

/-- The counters are those of the set of changed keys. -/
def Counted (tag : StorageKey → Bool) (d : StorageWritesDeduplicator) : Prop :=
  d.metrics = countsOf tag d.modifiedKeys

/-- What one write log does: its key is changed or unchanged now, and the counters follow. -/
theorem Counted.processLog {d : StorageWritesDeduplicator} (hd : Counted tag d)
    {log : StorageLogQuery} (htag : log.isWriteInitial = tag log.logQuery.storageKey) :
    Counted tag (d.processLog log).1 := by
  unfold Counted at hd ⊢
  rcases d.processLog_cases log with ⟨-, -, hmem, -, heq⟩ | ⟨-, -, hmem, -, heq⟩ | ⟨-, -, -, heq⟩
  · rw [heq, htag, hd]
    exact (countsOf_erase hmem).symm
  · rw [heq, htag, hd]
    exact (countsOf_insert hmem).symm
  · rw [heq]
    exact hd

/-- The deduplicator against the states of all slots. -/
structure Counts (initial : Slot → U256) (shard : StorageKey → U8) (tag : StorageKey → Bool)
    (slots : Slot → SlotState) (d : StorageWritesDeduplicator) : Prop where
  initialValues : ∀ key value, d.initialValues.lookup key = some value →
    value = initial (slotOf shard key)
  fresh : ∀ key, d.initialValues.lookup key = none →
    (slots (slotOf shard key)).value = initial (slotOf shard key) ∧
      (slots (slotOf shard key)).outstanding = []
  modified : ∀ key, key ∈ d.modifiedKeys ↔
    (slots (slotOf shard key)).value ≠ initial (slotOf shard key)
  counted : Counted tag d

theorem counts_new : Counts initial shard tag (startSlots initial) {} where
  initialValues _ _ h := by cases h
  fresh _ _ := ⟨rfl, rfl⟩
  modified key := by simp [startSlots, SlotState.start]
  counted := rfl

/-- A read leaves the values and the outstanding writes alone. -/
theorem Counts.read {slots : Slot → SlotState} {d : StorageWritesDeduplicator}
    (h : Counts initial shard tag slots d) {q : LogQuery} (hrw : q.rwFlag = false) {s : SlotState}
    (hstep : (slots q.slot).step q = some s) :
    Counts initial shard tag (Function.update slots q.slot s) d := by
  have hsame (slot : Slot) : (Function.update slots q.slot s slot).value = (slots slot).value ∧
      (Function.update slots q.slot s slot).outstanding = (slots slot).outstanding := by
    by_cases hslot : slot = q.slot
    · subst hslot
      rw [Function.update_self]
      rcases SlotState.step_cases hstep with ⟨-, -, rfl⟩ | ⟨hrw', -⟩ | ⟨hrw', -⟩
      · exact ⟨rfl, rfl⟩
      · simp [hrw] at hrw'
      · simp [hrw] at hrw'
    · rw [Function.update_of_ne hslot]
      exact ⟨rfl, rfl⟩
  refine ⟨h.initialValues, fun key hkey => ?_, fun key => ?_, h.counted⟩
  · rw [(hsame _).1, (hsame _).2]
    exact h.fresh key hkey
  · rw [(hsame _).1]
    exact h.modified key

/-- The value of a slot after a write or a rollback. -/
theorem step_value {s s' : SlotState} {q : LogQuery} (hrw : q.rwFlag = true)
    (h : s.step q = some s') :
    s'.value = if q.rollback then q.readValue else q.writtenValue := by
  rcases SlotState.step_cases h with ⟨hrw', -⟩ | ⟨-, hrb, -, rfl⟩ |
    ⟨-, hrb, w, rest, -, hread, -, rfl⟩
  · simp [hrw] at hrw'
  · simp [hrb]
  · simp [hrb, hread]

/-- A write finds the initial value of its slot, also when it is the first log on it. -/
theorem Counts.initialValue {slots : Slot → SlotState} {d : StorageWritesDeduplicator}
    (h : Counts initial shard tag slots d) {log : StorageLogQuery} (htagged : Tagged shard tag log)
    (hrw : log.logQuery.rwFlag = true) {s : SlotState}
    (hstep : (slots log.logQuery.slot).step log.logQuery = some s) :
    (d.initialValues.lookup log.logQuery.storageKey).getD log.logQuery.readValue =
      initial (slotOf shard log.logQuery.storageKey) := by
  cases hlook : d.initialValues.lookup log.logQuery.storageKey with
  | some value => exact h.initialValues _ _ hlook
  | none =>
    obtain ⟨hvalue, hout⟩ := h.fresh _ hlook
    rw [htagged.slotOf_eq] at hvalue hout ⊢
    rcases SlotState.step_cases hstep with ⟨hrw', -⟩ | ⟨-, -, hread, -⟩ | ⟨-, -, w, rest, hout', -⟩
    · simp [hrw] at hrw'
    · rw [← hvalue, ← hread]
      rfl
    · rw [hout] at hout'
      cases hout'

theorem Counts.write {slots : Slot → SlotState} {d : StorageWritesDeduplicator}
    (h : Counts initial shard tag slots d) {log : StorageLogQuery} (htagged : Tagged shard tag log)
    (hrw : log.logQuery.rwFlag = true) {s : SlotState}
    (hstep : (slots log.logQuery.slot).step log.logQuery = some s) :
    Counts initial shard tag (Function.update slots log.logQuery.slot s) (d.processLog log).1 := by
  have hinitial : d.initialValue log = initial (slotOf shard log.logQuery.storageKey) :=
    h.initialValue htagged hrw hstep
  have hvalue : s.value = log.newValue := step_value hrw hstep
  have hinit := d.initialValues_processLog log
  have hkeys := d.modifiedKeys_processLog log
  rw [hinitial] at hinit hkeys
  have hcounted := h.counted.processLog (htagged.logType hrw)
  have hslot := htagged.slotOf_eq
  have hother {key : StorageKey} (hne : key ≠ log.logQuery.storageKey) :
      Function.update slots log.logQuery.slot s (slotOf shard key) = slots (slotOf shard key) := by
    apply Function.update_of_ne
    rw [← hslot]
    exact fun heq => hne (slotOf_injective heq)
  refine ⟨?_, ?_, ?_, hcounted⟩
  · intro key value hlook
    rw [hinit, KeyedMap.lookup_insert_eq] at hlook
    split_ifs at hlook with hkey
    · rw [hkey]
      exact (Option.some.inj hlook).symm
    · exact h.initialValues key value hlook
  · intro key hlook
    rw [hinit, KeyedMap.lookup_insert_eq] at hlook
    split_ifs at hlook with hkey
    rw [hother hkey]
    exact h.fresh key hlook
  · intro key
    rw [hkeys]
    by_cases hkey : key = log.logQuery.storageKey
    · subst hkey
      rw [hslot, Function.update_self, ← hvalue]
      by_cases hsame : initial log.logQuery.slot = s.value
      · simp [hsame]
      · simp [hsame, Ne.symm hsame]
    · rw [hother hkey, ← h.modified key]
      split_ifs <;> simp [hkey]

/-- A whole list of logs: the counters follow. -/
theorem Counts.processStorageLogs {slots slots' : Slot → SlotState} {d : StorageWritesDeduplicator}
    (h : Counts initial shard tag slots d) {logs : List StorageLogQuery}
    (htagged : ∀ log ∈ logs, Tagged shard tag log)
    (hreplay : replay slots (logs.map StorageLogQuery.logQuery) = some slots') :
    Counts initial shard tag slots' (d.processStorageLogs logs).1 := by
  induction logs generalizing slots d with
  | nil =>
    cases hreplay
    exact h
  | cons log logs ih =>
    obtain ⟨s, hstep, hrest⟩ := Option.bind_eq_some_iff.mp hreplay
    have hlog := htagged log List.mem_cons_self
    have hlogs : ∀ log ∈ logs, Tagged shard tag log :=
      fun log hmem => htagged log (List.mem_cons_of_mem _ hmem)
    unfold StorageWritesDeduplicator.processStorageLogs
    cases hrw : log.logQuery.rwFlag with
    | false => exact ih (h.read hrw hstep) hlogs hrest
    | true => exact ih (h.write hlog hrw hstep) hlogs hrest

/-- The logs of a dropped transaction leave initial values only. -/
theorem Counts.applyAndRollback {slots slots' : Slot → SlotState} {d : StorageWritesDeduplicator}
    (h : Counts initial shard tag slots d) {logs : List StorageLogQuery}
    (htagged : ∀ log ∈ logs, Tagged shard tag log)
    (hreplay : replay slots (logs.map StorageLogQuery.logQuery) = some slots') :
    Counts initial shard tag slots (d.applyAndRollback logs).2 := by
  have hcounts := h.processStorageLogs htagged hreplay
  obtain ⟨hkeys, hmetrics⟩ := SameWrites.applyAndRollback d logs
  have hinit : (d.applyAndRollback logs).2.initialValues =
      (d.processStorageLogs logs).1.initialValues := initialValues_rollback _ _
  refine ⟨?_, ?_, ?_, ?_⟩
  · rw [hinit]
    exact hcounts.initialValues
  · intro key hlook
    rw [hinit, lookup_processStorageLogs] at hlook
    exact h.fresh key (Option.or_eq_none_iff.mp hlook).1
  · intro key
    rw [hkeys]
    exact h.modified key
  · unfold Counted
    rw [hkeys, hmetrics]
    exact h.counted

/-- Every reachable deduplicator counts the slots that the applied logs have changed. -/
theorem WriteRun.counts {applied : List StorageLogQuery} {d : StorageWritesDeduplicator}
    (hrun : WriteRun initial shard tag applied d) :
    (∀ log ∈ applied, Tagged shard tag log) ∧
      ∃ slots, replay (startSlots initial) (applied.map StorageLogQuery.logQuery) = some slots ∧
        Counts initial shard tag slots d := by
  induction hrun with
  | new => exact ⟨by simp, startSlots initial, rfl, counts_new⟩
  | apply logs _ htagged hreplay ih =>
    obtain ⟨htagged', slots, hslots, hcounts⟩ := ih
    obtain ⟨slots', hslots'⟩ := Option.isSome_iff_exists.mp hreplay
    refine ⟨fun log hlog => (List.mem_append.mp hlog).elim (htagged' log) (htagged log), slots',
      hslots', ?_⟩
    rw [List.map_append, replay_append, hslots, Option.bind_some] at hslots'
    exact hcounts.processStorageLogs htagged hslots'
  | applyAndRollback logs _ htagged hreplay ih =>
    obtain ⟨htagged', slots, hslots, hcounts⟩ := ih
    obtain ⟨slots', hslots'⟩ := Option.isSome_iff_exists.mp hreplay
    rw [List.map_append, replay_append, hslots, Option.bind_some] at hslots'
    exact ⟨htagged', slots, hslots, hcounts.applyAndRollback htagged hslots'⟩

/-- The writes of a deduplicated list. -/
abbrev writesIn (queries : List LogQuery) : List LogQuery := queries.filter LogQuery.rwFlag

section
variable {applied : List StorageLogQuery} {slots : Slot → SlotState} {sorted : List EnumeratedQuery}
  {deduplicated : List LogQuery} {q : LogQuery}

/-- A slot whose value has changed has a log, and its key is that of the log. -/
theorem slotOf_eq_of_changed (htagged : ∀ log ∈ applied, Tagged shard tag log)
    (hslots : replay (startSlots initial) (applied.map StorageLogQuery.logQuery) = some slots)
    (hvalue : (slots q.slot).value ≠ initial q.slot) : slotOf shard q.storageKey = q.slot := by
  have hfilter :
      (applied.map StorageLogQuery.logQuery).filter (fun q' => q'.slot = q.slot) ≠ [] := by
    intro hnil
    have hslot := replay_slot hslots q.slot
    rw [hnil] at hslot
    exact hvalue (congrArg SlotState.value (Option.some.inj hslot)).symm
  obtain ⟨q', hq'⟩ := List.exists_mem_of_ne_nil _ hfilter
  obtain ⟨hq', hslot⟩ := List.mem_filter.mp hq'
  obtain ⟨log, hlog, rfl⟩ := List.mem_map.mp hq'
  have hslot : log.logQuery.slot = q.slot := by simpa using hslot
  have hkey : log.logQuery.storageKey = q.storageKey := by
    simp only [LogQuery.slot, Slot.mk.injEq] at hslot
    simp only [LogQuery.storageKey, hslot]
  rw [← hkey, (htagged log hlog).slotOf_eq, hslot]

/-- A write in the deduplicated list is to a slot whose value has changed. -/
theorem changed_of_mem_writesIn
    (hdedup : Deduplicates (applied.map StorageLogQuery.logQuery) initial slots sorted
      deduplicated) (hq : q ∈ writesIn deduplicated) :
    (slots q.slot).value ≠ initial q.slot := by
  obtain ⟨hmem, hrw⟩ := List.mem_filter.mp hq
  obtain ⟨slot, hnet⟩ := (hdedup.entries q).mp hmem
  obtain rfl := netQuery_slot hnet
  intro heq
  unfold netQuery at hnet
  rw [if_neg (not_not.mpr heq)] at hnet
  split_ifs at hnet
  rw [← Option.some.inj hnet] at hrw
  cases hrw

/-- A changed slot has a write in the deduplicated list. -/
theorem exists_write_of_changed
    (hdedup : Deduplicates (applied.map StorageLogQuery.logQuery) initial slots sorted
      deduplicated) {key : StorageKey}
    (hvalue : (slots (slotOf shard key)).value ≠ initial (slotOf shard key)) :
    ∃ q ∈ writesIn deduplicated, q.storageKey = key := by
  refine ⟨LogQuery.createPartiallyFilledFromFields (slotOf shard key).shardId
    (slotOf shard key).address (slotOf shard key).key (initial (slotOf shard key))
    (slots (slotOf shard key)).value true, List.mem_filter.mpr ⟨?_, rfl⟩, ?_⟩
  · refine (hdedup.entries _).mpr ⟨slotOf shard key, ?_⟩
    unfold netQuery
    rw [if_pos hvalue]
  · show (⟨key.account, u256ToH256 (h256ToU256 key.key)⟩ : StorageKey) = key
    rw [u256ToH256_h256ToU256]

/-- The changed keys are those of the writes in the deduplicated list. -/
theorem card_modifiedKeys {d : StorageWritesDeduplicator}
    (htagged : ∀ log ∈ applied, Tagged shard tag log)
    (hslots : replay (startSlots initial) (applied.map StorageLogQuery.logQuery) = some slots)
    (hcounts : Counts initial shard tag slots d)
    (hdedup : Deduplicates (applied.map StorageLogQuery.logQuery) initial slots sorted
      deduplicated) (p : StorageKey → Bool) :
    (d.modifiedKeys.filter fun key => p key = true).card =
      ((writesIn deduplicated).filter fun q => p q.storageKey).length := by
  have hslotOf {q : LogQuery} (hq : q ∈ writesIn deduplicated) :
      slotOf shard q.storageKey = q.slot :=
    slotOf_eq_of_changed htagged hslots (changed_of_mem_writesIn hdedup hq)
  have hnodup : (((writesIn deduplicated).filter fun q => p q.storageKey).map
      LogQuery.storageKey).Nodup := by
    apply List.pairwise_map.mpr
    refine ((hdedup.increasing.filter _).filter _).imp_of_mem ?_
    intro a b ha hb hlt hkey
    have ha := hslotOf (List.mem_filter.mp ha).1
    have hb := hslotOf (List.mem_filter.mp hb).1
    rw [hkey, hb] at ha
    exact hlt.ne ha.symm
  have hset : d.modifiedKeys.filter (fun key => p key = true) =
      (((writesIn deduplicated).filter fun q => p q.storageKey).map
        LogQuery.storageKey).toFinset := by
    ext key
    simp only [Finset.mem_filter, hcounts.modified, List.mem_toFinset, List.mem_map]
    constructor
    · rintro ⟨hvalue, hp⟩
      obtain ⟨q, hq, rfl⟩ := exists_write_of_changed hdedup hvalue
      exact ⟨q, List.mem_filter.mpr ⟨hq, hp⟩, rfl⟩
    · rintro ⟨q, hq, rfl⟩
      obtain ⟨hq, hp⟩ := List.mem_filter.mp hq
      rw [hslotOf hq]
      exact ⟨changed_of_mem_writesIn hdedup hq, hp⟩
  rw [hset, List.toFinset_card_of_nodup hnodup, List.length_map]

end

/-- In every run whose logs name one shard for each storage key, and as long as the positions of
the applied logs do not wrap, the counters agree with the deduplication at seal. -/
theorem writeRun_agrees (initial : Slot → U256) (shard : StorageKey → U8) (tag : StorageKey → Bool)
    (applied : List StorageLogQuery) (d : StorageWritesDeduplicator)
    (hrun : WriteRun initial shard tag applied d)
    (hwrap : NoWrap (applied.map StorageLogQuery.logQuery)) :
    ∃ sorted deduplicated,
      sortStorageAccessQueries (applied.map StorageLogQuery.logQuery) = .ok (sorted, deduplicated) ∧
      sealWritesAgree deduplicated d.metrics = true ∧
      d.metrics.initialStorageWrites =
        ((writesIn deduplicated).filter fun q => tag q.storageKey).length ∧
      d.metrics.repeatedStorageWrites =
        ((writesIn deduplicated).filter fun q => !tag q.storageKey).length := by
  obtain ⟨htagged, slots, hslots, hcounts⟩ := hrun.counts
  obtain ⟨sorted, deduplicated, hsort, hdedup⟩ := sortStorageAccessQueries_eq hslots hwrap
  have hinitial : d.metrics.initialStorageWrites =
      ((writesIn deduplicated).filter fun q => tag q.storageKey).length := by
    rw [hcounts.counted, ← card_modifiedKeys htagged hslots hcounts hdedup tag]
    rfl
  have hrepeated : d.metrics.repeatedStorageWrites =
      ((writesIn deduplicated).filter fun q => !tag q.storageKey).length := by
    rw [hcounts.counted, ← card_modifiedKeys htagged hslots hcounts hdedup (fun key => !tag key)]
    simp only [countsOf, Bool.not_eq_true']
  refine ⟨sorted, deduplicated, hsort, ?_, hinitial, hrepeated⟩
  have hsplit := List.length_eq_length_filter_add (l := writesIn deduplicated)
    (fun q => tag q.storageKey)
  simp only [sealWritesAgree, decide_eq_true_eq]
  rw [hinitial, hrepeated, ← Nat.cast_add]
  exact congrArg (fun n : ℕ => (n : ℤ) % 2 ^ 64) hsplit

/-- Tagged logs of the sample queries: both slots existed before the batch. -/
def sampleLog (q : LogQuery) : StorageLogQuery := ⟨q, if q.rwFlag then .repeatedWrite else .read⟩

theorem sampleLog_tagged {q : LogQuery} (hq : q.shardId = 0) :
    Tagged (fun _ => 0) (fun _ => false) (sampleLog q) := by
  refine ⟨hq, fun hrw => ?_⟩
  have hrw' : q.rwFlag = true := hrw
  simp [sampleLog, hrw']

/-- A transaction that writes a slot twice and rolls back once, and a dropped one that writes the
slot back to its initial value. -/
theorem writeRun_agrees_sample : ∃ d sorted deduplicated,
    WriteRun (fun _ => 0) (fun _ => 0) (fun _ => false) (sampleQueries.map sampleLog) d ∧
    sortStorageAccessQueries ((sampleQueries.map sampleLog).map StorageLogQuery.logQuery) =
      .ok (sorted, deduplicated) ∧ sealWritesAgree deduplicated d.metrics = true := by
  have hrun := WriteRun.applyAndRollback [sampleLog (sampleQuery 1 5 0 true false)]
    (WriteRun.apply (sampleQueries.map sampleLog)
      (.new : WriteRun (fun _ => 0) (fun _ => 0) (fun _ => false) [] {})
      (by
        intro log hlog
        obtain ⟨q, hq, rfl⟩ := List.mem_map.mp hlog
        apply sampleLog_tagged
        revert q
        decide)
      (by unfold Replayable; decide))
    (by
      intro log hlog
      obtain rfl := List.mem_singleton.mp hlog
      exact sampleLog_tagged rfl)
    (by unfold Replayable; decide)
  obtain ⟨sorted, deduplicated, hsort, hagree, -, -⟩ := writeRun_agrees _ _ _ _ _ hrun
    (noWrap_of_length (by decide))
  exact ⟨_, sorted, deduplicated, hrun, hsort, hagree⟩

/-- After `2 ^ 32` reads of a slot and a write to it, the sort at seal fails on an assertion. -/
theorem writeRun_agrees_counterexample : ∃ d,
    WriteRun (fun _ => 0) (fun _ => 0) (fun _ => false)
      (List.replicate (2 ^ 32) (sampleLog (sampleQuery 1 0 0 false false)) ++
        [sampleLog (sampleQuery 1 0 5 true false)]) d ∧
    ¬ ∃ sorted deduplicated, sortStorageAccessQueries
        ((List.replicate (2 ^ 32) (sampleLog (sampleQuery 1 0 0 false false)) ++
          [sampleLog (sampleQuery 1 0 5 true false)]).map StorageLogQuery.logQuery) =
            .ok (sorted, deduplicated) ∧
      sealWritesAgree deduplicated d.metrics = true := by
  generalize hn : 2 ^ 32 = n
  have hqueries : (List.replicate n (sampleLog (sampleQuery 1 0 0 false false)) ++
      [sampleLog (sampleQuery 1 0 5 true false)]).map StorageLogQuery.logQuery =
        List.replicate n (sampleQuery 1 0 0 false false) ++ [sampleQuery 1 0 5 true false] := by
    rw [List.map_append, List.map_replicate]
    rfl
  have hrun := WriteRun.apply (List.replicate n (sampleLog (sampleQuery 1 0 0 false false)) ++
      [sampleLog (sampleQuery 1 0 5 true false)])
    (.new : WriteRun (fun _ => 0) (fun _ => 0) (fun _ => false) [] {})
    (by
      intro log hlog
      rcases List.mem_append.mp hlog with hlog | hlog
      · rw [List.eq_of_mem_replicate hlog]
        exact sampleLog_tagged rfl
      · rw [List.mem_singleton.mp hlog]
        exact sampleLog_tagged rfl)
    (by
      unfold Replayable
      rw [List.nil_append, hqueries]
      obtain ⟨slots, hslots⟩ := replay_reads_write (startSlots fun _ => 0)
        (r := sampleQuery 1 0 0 false false) (w := sampleQuery 1 0 5 true false) rfl rfl rfl rfl rfl
        rfl n
      rw [hslots]
      rfl)
  rw [List.nil_append] at hrun
  refine ⟨_, hrun, ?_⟩
  rintro ⟨sorted, deduplicated, hsort, -⟩
  rw [hqueries] at hsort
  exact sort_reads_write_ne_ok (by rfl) rfl rfl rfl (by decide) hn.symm _ hsort

end OlaOs
