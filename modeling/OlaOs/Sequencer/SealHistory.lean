import OlaOs.Sequencer.SealSteps

/-! Sealed batches and what their queries mean: the values that the rows of `storage_logs` leave
behind are the values of the replayed slots. -/
namespace OlaOs

/-- A sealed batch: the queries of its `full_result`, the store before it, and the slots after. -/
structure SealedBatch where
  queries : List LogQuery
  before : Slot → U256
  slots : Slot → SlotState

namespace SealedBatch

def after (batch : SealedBatch) (slot : Slot) : U256 := (batch.slots slot).value

/-- The deduplicated queries of the batch. -/
def deduplicated (batch : SealedBatch) : List LogQuery :=
  match sortStorageAccessQueries batch.queries with
  | .ok (_, deduplicated) => deduplicated
  | .error _ => []

/-- The queries of the batch can be replayed from the store. They all name shard 0, as every query
that is made from a storage access does. -/
structure Consistent (batch : SealedBatch) (store : Slot → U256) : Prop where
  before_eq : batch.before = store
  replay_eq : replay (startSlots batch.before) batch.queries = some batch.slots
  shardId_eq : ∀ q ∈ batch.queries, q.shardId = 0

end SealedBatch

/-- The store after some batches; before the first one it is empty. -/
def storeAfter (history : List SealedBatch) : Slot → U256 :=
  (history.getLast?.map SealedBatch.after).getD fun _ => 0

/-- The states that the sequencer reaches from the genesis batch on, and the batches it has sealed.
A batch is only sealed with a transaction in it, and its `full_result` holds the storage logs of its
miniblocks and of the block tip. -/
inductive SealRun (hash : List UInt8 → H256) : SequencerIo → List SealedBatch → Prop where
  | genesis {storageLogs : List (H256 × List StorageLog)} {storage : StorageTables}
      {batch : SealedBatch} (batchTimestamp : U64) (protocolVersion : ProtocolVersionId) :
      (∀ entry ∈ storageLogs, ∀ log ∈ entry.2, log.kind = .write) →
      Genesis.createGenesisL1Batch hash {} storageLogs = .ok storage →
      batch.queries = Genesis.logQueries storageLogs → batch.Consistent (storeAfter []) →
      SealRun hash ⟨storage, 1, 1, .new batchTimestamp protocolVersion⟩ [batch]
  | execute {io : SequencerIo} {history : List SealedBatch} {T : Type} {tx : Transaction}
      {size : ℕ} {result : VmTxExeResult T} {metrics : ExecutionMetrics}
      {updates : UpdatesManager} : SealRun hash io history →
      io.updates.extendFromExecutedTransaction tx size result metrics = .ok updates →
      SealRun hash { io with updates := updates } history
  | sealMiniblock {io io' : SequencerIo} {history : List SealedBatch} (newTimestamp : U64) :
      SealRun hash io history → io.sealMiniblock hash newTimestamp = .ok io' →
      SealRun hash io' history
  | sealL1Batch {io io' : SequencerIo} {history : List SealedBatch} {blockResult : VmBlockResult}
      {batch : SealedBatch} (batchTimestamp : U64) (protocolVersion : ProtocolVersionId) :
      SealRun hash io history →
      io.updates.pendingExecutedTransactionsLen ≠ 0 →
      blockResult.fullResult.storageLogQueries = io.updates.l1Batch.blockStorageLogs ++
        io.updates.miniblock.storageLogs ++ blockResult.blockTipResult.storageLogs →
      batch.queries = blockResult.fullResult.storageLogQueries.map StorageLogQuery.logQuery →
      batch.Consistent (storeAfter history) →
      io.sealL1Batch hash blockResult batchTimestamp protocolVersion = .ok io' →
      SealRun hash io' (history ++ [batch])

/-- The slot that a storage key names. -/
def StorageKey.slot (key : StorageKey) : Slot := ⟨0, key.account, h256ToU256 key.key⟩

theorem LogQuery.storageKey_eq_iff {q : LogQuery} (hshard : q.shardId = 0) {key : StorageKey} :
    q.storageKey = key ↔ q.slot = key.slot := by
  obtain ⟨account, key⟩ := key
  simp only [storageKey, slot, StorageKey.slot, StorageKey.mk.injEq, Slot.mk.injEq, hshard,
    true_and]
  refine and_congr_right fun _ => ⟨?_, ?_⟩
  · rintro rfl
    rw [h256ToU256_u256ToH256]
  · intro h
    rw [h, u256ToH256_h256ToU256]

theorem LogQuery.slot_storageKey {q : LogQuery} (hshard : q.shardId = 0) :
    q.storageKey.slot = q.slot :=
  ((storageKey_eq_iff hshard).mp rfl).symm

/-- The order of slots is the order of their storage keys. -/
theorem LogQuery.storageKey_lt {q q' : LogQuery} (hshard : q.shardId = 0) (hshard' : q'.shardId = 0)
    (h : q.slot < q'.slot) : q.storageKey < q'.storageKey := by
  rw [Slot.lt_iff] at h
  rw [StorageKey.lt_iff]
  simp only [slot, hshard, hshard', lt_irrefl, true_and, false_or] at h
  simp only [storageKey, H256.lt_def (u256ToH256 q.key), u256ToH256_toNat]
  exact h

section LastValue

variable {κ α : Type} [DecidableEq κ]

/-- The value of the last record for a key. -/
def lastValue (records : List (κ × α)) (key : κ) : Option α :=
  (records.filter fun e => e.1 = key).getLast?.map Prod.snd

theorem lastValue_append (records records' : List (κ × α)) (key : κ) :
    lastValue (records ++ records') key = (lastValue records' key).or (lastValue records key) := by
  rw [lastValue, List.filter_append, List.getLast?_append, Option.map_or]
  rfl

theorem lookup_ofList_eq_lastValue (records : List (κ × α)) (key : κ) :
    (KeyedMap.ofList records).lookup key = lastValue records key := by
  rw [KeyedMap.ofList_eq_extend, KeyedMap.lookup_extend, lastValue]
  exact Option.or_none

end LastValue

/-- The value of a slot after its queries is that of the last write or rollback. -/
theorem SlotState.Valid.value_eq {slot : Slot} {initial : U256} {s s' : SlotState}
    {queries : List LogQuery} (hv : s.Valid slot initial) (hq : ∀ q ∈ queries, q.slot = slot)
    (h : queries.foldlM SlotState.step s = some s') :
    s'.value = ((queries.filter LogQuery.rwFlag).getLast?.map fun q => q.move.2).getD s.value := by
  induction queries generalizing s with
  | nil =>
    cases h
    rfl
  | cons q queries ih =>
    rw [List.foldlM_cons] at h
    obtain ⟨next, hnext, hrest⟩ := Option.bind_eq_some_iff.mp h
    have hmove := hv.move_eq hnext
    have hvalue := ih (hv.step (hq q List.mem_cons_self) hnext)
      (fun q' hq' => hq q' (List.mem_cons_of_mem _ hq')) hrest
    cases hrw : q.rwFlag with
    | false =>
      -- a read leaves the value
      have hread : s.value = next.value := by
        rw [LogQuery.move, hrw] at hmove
        simp only [Bool.not_false, ↓reduceIte, Prod.mk.injEq] at hmove
        exact hmove.1.symm.trans hmove.2
      rw [List.filter_cons_of_neg (by simp [hrw]), hread]
      exact hvalue
    | true =>
      rw [List.filter_cons_of_pos hrw, List.getLast?_cons, hvalue]
      cases (queries.filter LogQuery.rwFlag).getLast? with
      | none => simp [hmove]
      | some q' => rfl

/-- The last record of a slot is its value after the batch. -/
theorem SealedBatch.Consistent.lastValue_eq {batch : SealedBatch} {store : Slot → U256}
    (h : batch.Consistent store) (key : StorageKey) :
    (lastValue (writeRecords batch.queries) key).getD (u256ToH256 (store key.slot)) =
      u256ToH256 (batch.after key.slot) := by
  have hvalue := (SlotState.valid_start key.slot (batch.before key.slot)).value_eq
    (fun q hq => by simpa using (List.mem_filter.mp hq).2) (replay_slot h.replay_eq key.slot)
  have hfilter : (writeRecords batch.queries).filter (fun e => e.1 = key) =
      ((batch.queries.filter fun q => q.slot = key.slot).filter LogQuery.rwFlag).map
        fun q => (q.storageKey, u256ToH256 q.move.2) := by
    rw [writeRecords, List.filter_map, List.filter_filter, List.filter_filter]
    congr 1
    apply List.filter_congr
    intro q hq
    simp only [Function.comp_apply, LogQuery.storageKey_eq_iff (h.shardId_eq q hq), Bool.and_comm]
  rw [lastValue, hfilter, List.getLast?_map, Option.map_map, SealedBatch.after, hvalue,
    ← h.before_eq]
  cases ((batch.queries.filter fun q => q.slot = key.slot).filter LogQuery.rwFlag).getLast? with
  | none => rfl
  | some q => rfl

theorem storeAfter_concat (history : List SealedBatch) (batch : SealedBatch) :
    storeAfter (history ++ [batch]) = batch.after := by
  simp [storeAfter]

/-- Each batch starts from the store that the batches before it leave. -/
def ConsistentHistory (history : List SealedBatch) : Prop :=
  ∀ n (hn : n < history.length), history[n].Consistent (storeAfter (history.take n))

theorem ConsistentHistory.concat {history : List SealedBatch} {batch : SealedBatch}
    (h : ConsistentHistory history) (hbatch : batch.Consistent (storeAfter history)) :
    ConsistentHistory (history ++ [batch]) := by
  intro n hn
  rw [List.length_append, List.length_singleton] at hn
  by_cases hlast : n = history.length
  · subst hlast
    simpa using hbatch
  · have hlt : n < history.length := by omega
    rw [List.getElem_append_left hlt, List.take_append_of_le_length hlt.le]
    exact h n hlt

theorem u256ToH256_zero : u256ToH256 0 = H256.zero := by
  apply H256.toNat_injective
  rw [u256ToH256_toNat]
  decide

/-- The last record of a slot in the batches before the `n`-th is its value before that batch. -/
theorem ConsistentHistory.lastValue_take {history : List SealedBatch}
    (h : ConsistentHistory history)
    {n : ℕ} (hn : n ≤ history.length) (key : StorageKey) :
    (lastValue ((history.take n).flatMap fun batch => writeRecords batch.queries) key).getD .zero =
      u256ToH256 (storeAfter (history.take n) key.slot) := by
  induction n with
  | zero => exact u256ToH256_zero.symm
  | succ n ih =>
    have hlt : n < history.length := by omega
    rw [List.take_succ_eq_append_getElem hlt, List.flatMap_append, List.flatMap_singleton,
      lastValue_append, storeAfter_concat, ← (h n hlt).lastValue_eq key, ← ih hlt.le]
    cases lastValue (writeRecords history[n].queries) key <;> rfl

end OlaOs
