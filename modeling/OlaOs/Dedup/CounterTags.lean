import OlaOs.Dedup.WriteCounter
import OlaOs.Lib.Transition

/-! The subtractions of the write counters, which fail below zero, and the tags of the logs. -/
namespace OlaOs

/-- The counter that a tag selects. -/
def DeduplicatedWritesMetrics.counter (metrics : DeduplicatedWritesMetrics)
    (isWriteInitial : Bool) : ℤ :=
  if isWriteInitial then metrics.initialStorageWrites else metrics.repeatedStorageWrites

/-- A call that changes a deduplicator. -/
inductive DeduplicatorCall where
  | apply (logs : List StorageLogQuery)
  | applyAndRollback (logs : List StorageLogQuery)

namespace StorageWritesDeduplicator

variable (d : StorageWritesDeduplicator)

/-- `process_storage_logs`, where lowering a counter that is zero is a panic. -/
def processStorageLogs? (d : StorageWritesDeduplicator) :
    List StorageLogQuery → Option (StorageWritesDeduplicator × List UpdateItem)
  | [] => some (d, [])
  | log :: logs =>
    if log.logQuery.rwFlag then
      if d.restores log && d.metrics.counter log.isWriteInitial = 0 then none
      else
        let step := d.processLog log
        (processStorageLogs? step.1 logs).map fun rest => (rest.1, step.2 ++ rest.2)
    else processStorageLogs? d logs

/-- The body of the loop of `rollback`, with the same panic. -/
def undo? (item : UpdateItem) : Option StorageWritesDeduplicator :=
  if item.isInsertion && d.metrics.counter item.isWriteInitial = 0 then none else some (d.undo item)

def rollback? (updates : List UpdateItem) : Option StorageWritesDeduplicator :=
  updates.reverse.foldlM undo? d

def call? : DeduplicatorCall → Option StorageWritesDeduplicator
  | .apply logs => (d.processStorageLogs? logs).map Prod.fst
  | .applyAndRollback logs => (d.processStorageLogs? logs).bind fun result =>
      result.1.rollback? result.2

end StorageWritesDeduplicator

/-- A deduplicator, and for each changed slot the tag under which it was counted. -/
structure TaggedWrites where
  deduplicator : StorageWritesDeduplicator := {}
  countedAs : StorageKey → Bool := fun _ => false

namespace TaggedWrites

/-- A log that changes a slot is the one that counts it. -/
def afterLog (s : TaggedWrites) (log : StorageLogQuery) : TaggedWrites where
  deduplicator := (s.deduplicator.processLog log).1
  countedAs := if s.deduplicator.modifies log then
    Function.update s.countedAs log.logQuery.storageKey log.isWriteInitial else s.countedAs

def afterLogs (s : TaggedWrites) : List StorageLogQuery → TaggedWrites
  | [] => s
  | log :: logs => if log.logQuery.rwFlag then (s.afterLog log).afterLogs logs else s.afterLogs logs

/-- Every log that sets a changed slot back carries the tag under which the slot was counted. -/
def keepsTags (s : TaggedWrites) : List StorageLogQuery → Bool
  | [] => true
  | log :: logs =>
    if log.logQuery.rwFlag then
      (!s.deduplicator.restores log ||
        log.isWriteInitial == s.countedAs log.logQuery.storageKey) &&
      (s.afterLog log).keepsTags logs
    else s.keepsTags logs

/-- A call that does not panic. -/
def step (s : TaggedWrites) (call : DeduplicatorCall) : Option TaggedWrites :=
  (s.deduplicator.call? call).map fun d => ⟨d, match call with
    | .apply logs => (s.afterLogs logs).countedAs
    | .applyAndRollback _ => s.countedAs⟩

def allows (s : TaggedWrites) : DeduplicatorCall → Bool
  | .apply logs | .applyAndRollback logs => s.keepsTags logs

/-- The counters are those of the changed slots, each under its tag. -/
def Tallied (s : TaggedWrites) : Prop := Counted s.countedAs s.deduplicator

end TaggedWrites

open StorageWritesDeduplicator

theorem initialWrites_add_repeatedWrites (tag : StorageKey → Bool) (keys : Finset StorageKey) :
    (countsOf tag keys).initialStorageWrites + (countsOf tag keys).repeatedStorageWrites =
      keys.card := by
  have h := Finset.card_filter_add_card_filter_not (s := keys) fun key => tag key = true
  simp only [Bool.not_eq_true] at h
  exact (Nat.cast_add _ _).symm.trans (congrArg Nat.cast h)

theorem counter_change (metrics : DeduplicatedWritesMetrics) (isWriteInitial : Bool) (f : ℤ → ℤ) :
    (metrics.change isWriteInitial f).counter isWriteInitial =
      f (metrics.counter isWriteInitial) := by
  cases isWriteInitial <;> rfl

/-- The changed slots with a tag. -/
theorem counter_countsOf (tag : StorageKey → Bool) (keys : Finset StorageKey)
    (isWriteInitial : Bool) : (countsOf tag keys).counter isWriteInitial =
      (keys.filter fun key => tag key = isWriteInitial).card := by
  cases isWriteInitial <;> rfl

theorem counter_countsOf_pos {tag : StorageKey → Bool} {keys : Finset StorageKey} {key : StorageKey}
    (h : key ∈ keys) : 0 < (countsOf tag keys).counter (tag key) := by
  have hmem : key ∈ keys.filter fun key' => tag key' = tag key := Finset.mem_filter.mpr ⟨h, rfl⟩
  rw [counter_countsOf]
  exact Int.natCast_pos.mpr (Finset.card_pos.mpr ⟨key, hmem⟩)

/-- The tag of a slot that is not counted is free. -/
theorem countsOf_update {tag : StorageKey → Bool} {keys : Finset StorageKey} {key : StorageKey}
    (h : key ∉ keys) (isWriteInitial : Bool) :
    countsOf (Function.update tag key isWriteInitial) keys = countsOf tag keys := by
  have hsame : ∀ k ∈ keys, Function.update tag key isWriteInitial k = tag k := by
    intro k hk
    refine Function.update_of_ne (fun heq => h ?_) _ _
    rw [← heq]
    exact hk
  unfold countsOf
  congr 3
  · exact Finset.filter_congr fun k hk => by rw [hsame k hk]
  · exact Finset.filter_congr fun k hk => by rw [hsame k hk]

namespace TaggedWrites

theorem Tallied.counter_nonneg {s : TaggedWrites} (h : s.Tallied) (isWriteInitial : Bool) :
    0 ≤ s.deduplicator.metrics.counter isWriteInitial := by
  unfold Tallied Counted at h
  rw [h, counter_countsOf]
  exact Int.natCast_nonneg _

/-- A log with the tag of its slot: no counter falls below zero, and the counters stay those of the
changed slots. -/
theorem Tallied.afterLog {s : TaggedWrites} (h : s.Tallied) {log : StorageLogQuery}
    (htag : s.deduplicator.restores log = true →
      log.isWriteInitial = s.countedAs log.logQuery.storageKey) :
    (s.afterLog log).Tallied ∧ (s.deduplicator.restores log = true →
      s.deduplicator.metrics.counter log.isWriteInitial ≠ 0) := by
  unfold Tallied Counted at h ⊢
  unfold TaggedWrites.afterLog
  rcases processLog_cases s.deduplicator log with ⟨hrestores, hmodifies, hmem, -, heq⟩ |
    ⟨hrestores, hmodifies, hmem, -, heq⟩ | ⟨hrestores, hmodifies, -, heq⟩
  · rw [heq, hmodifies, htag hrestores, h]
    refine ⟨?_, fun _ => (counter_countsOf_pos hmem).ne'⟩
    simp only [Bool.false_eq_true, if_false]
    exact (countsOf_erase hmem).symm
  · rw [heq, hmodifies, hrestores, h]
    refine ⟨?_, nofun⟩
    simp only [if_true]
    rw [countsOf_insert hmem, countsOf_update hmem, Function.update_self]
  · rw [heq, hmodifies, hrestores]
    exact ⟨h, nofun⟩

end TaggedWrites

theorem rollback?_append (d : StorageWritesDeduplicator) (updates updates' : List UpdateItem) :
    d.rollback? (updates ++ updates') =
      (d.rollback? updates').bind fun d' => d'.rollback? updates := by
  simp only [rollback?, List.reverse_append, List.foldlM_append]
  rfl

/-- The updates of a log can be taken back when no counter was below zero. -/
theorem rollback?_processLog {d d' : StorageWritesDeduplicator} {log : StorageLogQuery}
    (hcounter : 0 ≤ d.metrics.counter log.isWriteInitial)
    (hsame : SameWrites d' (d.processLog log).1) :
    d'.rollback? (d.processLog log).2 = some (d'.rollback (d.processLog log).2) := by
  rcases processLog_cases d log with ⟨-, -, -, -, heq⟩ | ⟨-, -, -, -, heq⟩ | ⟨-, -, -, heq⟩
  · rw [heq]
    rfl
  · have hmetrics := hsame.metrics
    rw [heq] at hmetrics ⊢
    have hpos : d'.metrics.counter log.isWriteInitial ≠ 0 := by
      rw [hmetrics, counter_change]
      omega
    simp [rollback?, undo?, rollback, hpos]
  · rw [heq]
    rfl

namespace TaggedWrites

theorem deduplicator_afterLogs (s : TaggedWrites) (logs : List StorageLogQuery) :
    (s.afterLogs logs).deduplicator = (s.deduplicator.processStorageLogs logs).1 := by
  induction logs generalizing s with
  | nil => rfl
  | cons log logs ih =>
    unfold TaggedWrites.afterLogs StorageWritesDeduplicator.processStorageLogs
    split_ifs
    · exact ih (s.afterLog log)
    · exact ih s

/-- A list of logs that keep the tags does not panic, and neither does taking it back. -/
theorem Tallied.processStorageLogs? {s : TaggedWrites} (h : s.Tallied)
    {logs : List StorageLogQuery} (htags : s.keepsTags logs = true) :
    (s.afterLogs logs).Tallied ∧
      s.deduplicator.processStorageLogs? logs = some (s.deduplicator.processStorageLogs logs) ∧
      ∀ d', SameWrites d' (s.deduplicator.processStorageLogs logs).1 →
        d'.rollback? (s.deduplicator.processStorageLogs logs).2 =
          some (d'.rollback (s.deduplicator.processStorageLogs logs).2) := by
  induction logs generalizing s with
  | nil => exact ⟨h, rfl, fun d' _ => rfl⟩
  | cons log logs ih =>
    unfold keepsTags at htags
    unfold TaggedWrites.afterLogs StorageWritesDeduplicator.processStorageLogs?
      StorageWritesDeduplicator.processStorageLogs
    cases hrw : log.logQuery.rwFlag with
    | false =>
      rw [hrw] at htags
      exact ih h htags
    | true =>
      rw [hrw, if_pos rfl, Bool.and_eq_true, Bool.or_eq_true, Bool.not_eq_true',
        beq_iff_eq] at htags
      obtain ⟨htag, hrest⟩ := htags
      have hsame (hrestores : s.deduplicator.restores log = true) :
          log.isWriteInitial = s.countedAs log.logQuery.storageKey :=
        htag.resolve_left (ne_false_of_eq_true hrestores)
      obtain ⟨hlog, hcounter⟩ := h.afterLog hsame
      obtain ⟨hlogs, hrun, hback⟩ := ih hlog hrest
      have hno : (s.deduplicator.restores log &&
          s.deduplicator.metrics.counter log.isWriteInitial = 0) = false := by
        rw [Bool.and_eq_false_imp]
        exact fun hrestores => decide_eq_false (hcounter hrestores)
      rw [if_pos rfl, if_pos rfl, if_pos rfl, hno]
      refine ⟨hlogs, congrArg (Option.map _) hrun, fun d' hsame => ?_⟩
      have hback₁ := rollback?_processLog (h.counter_nonneg log.isWriteInitial)
        hsame.rollback_processStorageLogs
      dsimp only
      rw [rollback?_append, rollback_append]
      exact (congrArg (Option.bind · _) (hback d' hsame)).trans hback₁

/-- A call that keeps the tags. -/
theorem Tallied.step {s : TaggedWrites} (h : s.Tallied) {call : DeduplicatorCall}
    (hallows : s.allows call = true) : ∃ s', s.step call = some s' ∧ s'.Tallied := by
  cases call with
  | apply logs =>
    obtain ⟨hlogs, hrun, -⟩ := h.processStorageLogs? hallows
    have hcall : s.deduplicator.call? (.apply logs) = some (s.afterLogs logs).deduplicator := by
      rw [deduplicator_afterLogs]
      exact congrArg (Option.map Prod.fst) hrun
    refine ⟨s.afterLogs logs, ?_, hlogs⟩
    unfold TaggedWrites.step
    rw [hcall]
    rfl
  | applyAndRollback logs =>
    obtain ⟨-, hrun, hback⟩ := h.processStorageLogs? hallows
    obtain ⟨hkeys, hmetrics⟩ := SameWrites.applyAndRollback s.deduplicator logs
    have hcall : s.deduplicator.call? (.applyAndRollback logs) =
        some (s.deduplicator.applyAndRollback logs).2 := by
      show ((s.deduplicator.processStorageLogs? logs).bind fun result =>
        result.1.rollback? result.2) = _
      rw [hrun]
      exact hback _ ⟨rfl, rfl⟩
    refine ⟨⟨(s.deduplicator.applyAndRollback logs).2, s.countedAs⟩, ?_, ?_⟩
    · unfold TaggedWrites.step
      rw [hcall]
      rfl
    · unfold Tallied Counted at h ⊢
      rw [hkeys, hmetrics]
      exact h

/-- In every run in which a changed slot is set back only by logs with the tag under which it was
counted, the counters add up to the number of changed slots, and the next such call does not
panic. -/
theorem reaches_counts {s : TaggedWrites}
    (h : Transition.Reaches TaggedWrites.step (fun s call => s.allows call = true) (· = {}) s) :
    s.deduplicator.metrics.initialStorageWrites + s.deduplicator.metrics.repeatedStorageWrites =
        s.deduplicator.modifiedKeys.card ∧
      ∀ call, s.allows call = true → (s.deduplicator.call? call).isSome = true := by
  have htallied : s.Tallied := by
    refine h.invariant Tallied (fun s hs => by rw [hs]; rfl) fun s call s' hs hallows hstep => ?_
    obtain ⟨s₁, hone, htallied⟩ := hs.step hallows
    rw [hone] at hstep
    cases hstep
    exact htallied
  refine ⟨?_, fun call hallows => ?_⟩
  · rw [htallied]
    exact initialWrites_add_repeatedWrites _ _
  · obtain ⟨s', hstep, -⟩ := htallied.step hallows
    obtain ⟨d, hd, -⟩ := Option.map_eq_some_iff.mp hstep
    rw [hd]
    rfl

/-- The second write of a slot has another tag, a dropped transaction sets the slot back. -/
theorem reaches_counts_sample : ∃ s,
    Transition.Reaches TaggedWrites.step (fun s call => s.allows call = true) (· = {}) s ∧
    s.deduplicator.metrics = ⟨1, 0⟩ ∧
    s.deduplicator.metrics.initialStorageWrites + s.deduplicator.metrics.repeatedStorageWrites =
      s.deduplicator.modifiedKeys.card := by
  have hrun : (Transition.runGuarded TaggedWrites.step (fun s call => s.allows call = true) {}
      [.apply [sampleWrite .initialWrite 0 5, sampleWrite .repeatedWrite 5 7],
        .applyAndRollback [sampleWrite .initialWrite 7 0, sampleWrite .repeatedWrite 0 3]]).map
          (fun s => s.deduplicator.metrics) = some ⟨1, 0⟩ := by
    decide +kernel
  obtain ⟨s, hs, hmetrics⟩ := Option.map_eq_some_iff.mp hrun
  have hreaches : Transition.Reaches TaggedWrites.step (fun s call => s.allows call = true)
      (· = {}) s := Transition.reaches_runGuarded _ (.start rfl) hs
  exact ⟨s, hreaches, hmetrics, (reaches_counts hreaches).1⟩

/-- A slot that was counted as an initial write is set back by a repeated write: the other counter
is lowered from zero. -/
theorem counts_counterexample : ∃ d : StorageWritesDeduplicator,
    ({} : StorageWritesDeduplicator).call? (.apply [sampleWrite .initialWrite 0 5]) = some d ∧
    d.call? (.apply [sampleWrite .repeatedWrite 5 0]) = none := by
  refine ⟨_, rfl, ?_⟩
  decide +kernel

end TaggedWrites

end OlaOs
