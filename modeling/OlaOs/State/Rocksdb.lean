import OlaOs.Metadata.BlockLogs

/-! The sequencer's cache of the sealed state (`state/src/rocksdb.rs`), over runs of the sequencer
and any crashes while the cache is brought up to date. -/
namespace OlaOs

/-- What is in the database: the values by hashed key, and the number of the next batch. The pending
patch is empty before and after every call. Batch numbers stay below `2 ^ 32`, since every batch has
its own miniblocks. -/
structure RocksdbStorage where
  state : KeyedMap H256 H256 := ∅
  blockNumber : Option ℕ := none

namespace RocksdbStorage

variable (hash : List UInt8 → H256)

def l1BatchNumber (s : RocksdbStorage) : ℕ := s.blockNumber.getD 0

def readValueInner (s : RocksdbStorage) (key : StorageKey) : Option H256 :=
  s.state.lookup (key.hashedKey hash)

def readValue (s : RocksdbStorage) (key : StorageKey) : H256 :=
  (s.readValueInner hash key).getD .zero

def isWriteInitial (s : RocksdbStorage) (key : StorageKey) : Bool :=
  (s.readValueInner hash key).isNone

/-- `process_transaction_logs`: the pending patch for the touched slots of a batch. -/
def processTransactionLogs (s : RocksdbStorage) (updates : KeyedMap StorageKey H256) :
    KeyedMap StorageKey H256 :=
  updates.toList.foldl (fun pending entry =>
    if entry.2 ≠ .zero ∨ (s.readValueInner hash entry.1).isSome then
      pending.insert entry.1 entry.2
    else pending) ∅

/-- One write batch puts the number and all pending values. -/
def save (s : RocksdbStorage) (pendingPatch : KeyedMap StorageKey H256) (l1BatchNumber : ℕ) :
    RocksdbStorage where
  state := s.state.extend
    (pendingPatch.toList.map fun entry => (entry.1.hashedKey hash, entry.2))
  blockNumber := some l1BatchNumber

/-- One turn of the loop of `update_from_postgres`. -/
def updateBatch (storage : StorageTables) (s : RocksdbStorage) (l1BatchNumber : ℕ) :
    RocksdbStorage :=
  s.save hash (s.processTransactionLogs hash (storage.getTouchedSlotsForL1Batch l1BatchNumber))
    (l1BatchNumber + 1)

/-- The first `count` turns of the loop. -/
def updateBatches (storage : StorageTables) (s : RocksdbStorage) (count : ℕ) : RocksdbStorage :=
  (List.range' s.l1BatchNumber count).foldl (updateBatch hash storage) s

def updateFromPostgres (storage : StorageTables) (s : RocksdbStorage) :
    Except String RocksdbStorage := do
  let latestL1BatchNumber ← storage.getSealedL1BatchNumber
  let currentL1BatchNumber := s.l1BatchNumber
  if currentL1BatchNumber ≤ latestL1BatchNumber + 1 then
    .ok (s.updateBatches hash storage (latestL1BatchNumber + 1 - currentL1BatchNumber))
  else .error (s!"L1 batch number in sequencer cache ({currentL1BatchNumber}) is greater than " ++
    s!"the last sealed L1 batch number in Postgres ({latestL1BatchNumber})")

variable {hash} {s : RocksdbStorage}

/-- The pending patch has the touched slots that are not zero or that are in the database. -/
theorem lookup_processTransactionLogs {updates : KeyedMap StorageKey H256} {key : StorageKey}
    {value : H256} : (s.processTransactionLogs hash updates).lookup key = some value ↔
      updates.lookup key = some value ∧
        (value ≠ .zero ∨ (s.readValueInner hash key).isSome) := by
  have heq : s.processTransactionLogs hash updates = KeyedMap.ofList (updates.toList.filter
      fun entry => entry.2 ≠ .zero ∨ (s.readValueInner hash entry.1).isSome) := by
    rw [KeyedMap.ofList, List.foldl_filter]
    simp only [decide_eq_true_eq]
    rfl
  have hnodup : ((updates.toList.filter fun entry =>
      entry.2 ≠ .zero ∨ (s.readValueInner hash entry.1).isSome).map Prod.fst).Nodup :=
    updates.nodup_keys_toList.sublist (List.filter_sublist.map _)
  rw [heq]
  constructor
  · intro h
    obtain ⟨hmem, hkept⟩ := List.mem_filter.mp (KeyedMap.mem_of_lookup_ofList h)
    exact ⟨KeyedMap.mem_toList.mp hmem, of_decide_eq_true hkept⟩
  · rintro ⟨hlook, hkept⟩
    exact KeyedMap.lookup_ofList_of_mem hnodup
      (List.mem_filter.mpr ⟨KeyedMap.mem_toList.mpr hlook, decide_eq_true hkept⟩)

end RocksdbStorage

/-- The sequencer and its cache. The sequencer moves on by any steps that keep the batches it has
sealed; a call may be cut off after any number of saves. -/
inductive CacheRun (hash : List UInt8 → H256) :
    SequencerIo → List SealedBatch → RocksdbStorage → Prop where
  | start {io : SequencerIo} {history : List SealedBatch} : SealRun hash io history →
      CacheRun hash io history {}
  | sequencer {io io' : SequencerIo} {history history' : List SealedBatch}
      {cache : RocksdbStorage} : CacheRun hash io history cache → SealRun hash io' history' →
      history <+: history' → CacheRun hash io' history' cache
  | crash {io : SequencerIo} {history : List SealedBatch} {cache : RocksdbStorage}
      {latestL1BatchNumber : ℕ} (count : ℕ) : CacheRun hash io history cache →
      io.storage.getSealedL1BatchNumber = .ok latestL1BatchNumber →
      cache.l1BatchNumber + count ≤ latestL1BatchNumber + 1 →
      CacheRun hash io history (cache.updateBatches hash io.storage count)
  | update {io : SequencerIo} {history : List SealedBatch} {cache cache' : RocksdbStorage} :
      CacheRun hash io history cache → cache.updateFromPostgres hash io.storage = .ok cache' →
      CacheRun hash io history cache'

namespace CacheRun

variable {hash : List UInt8 → H256} {io : SequencerIo} {history : List SealedBatch}
  {cache : RocksdbStorage}

/-- A key changes its value in one of the first `n` batches. -/
def Changed (history : List SealedBatch) (n : ℕ) (key : StorageKey) : Prop :=
  ∃ i, ∃ hi : i < history.length, i < n ∧
    history[i].after key.slot ≠ history[i].before key.slot

/-- The cache holds the state after the first `n` batches: a hashed key is there once a key with it
has changed, and it has the value of the key. -/
structure Synced (hash : List UInt8 → H256) (history : List SealedBatch) (n : ℕ)
    (cache : RocksdbStorage) : Prop where
  number : cache.l1BatchNumber = n
  present_iff : ∀ hashedKey, (cache.state.lookup hashedKey).isSome ↔
    ∃ key, key.hashedKey hash = hashedKey ∧ Changed history n key
  value : ∀ key, Set.InjOn (StorageKey.hashedKey hash) (insert key (usedKeys history)) →
    cache.readValue hash key = u256ToH256 (storeAfter (history.take n) key.slot)

/-- A value other than zero comes from a change. -/
theorem changed_of_ne_zero (h : ConsistentHistory history) {n : ℕ} (hn : n ≤ history.length)
    {key : StorageKey} (hne : storeAfter (history.take n) key.slot ≠ 0) :
    Changed history n key := by
  induction n with
  | zero => exact absurd rfl hne
  | succ n ih =>
    have hlt : n < history.length := by omega
    have hstore : storeAfter (history.take (n + 1)) = history[n].after := by
      rw [List.take_succ_eq_append_getElem hlt, storeAfter_concat]
    by_cases hbefore : history[n].before key.slot = 0
    · refine ⟨n, hlt, Nat.lt_succ_self n, ?_⟩
      rw [hbefore, ← hstore]
      exact hne
    · obtain ⟨i, hi, hlt', hchanged⟩ := ih hlt.le (by rwa [(h n hlt).before_eq] at hbefore)
      exact ⟨i, hi, hlt'.trans (Nat.lt_succ_self n), hchanged⟩

variable {t : StorageTables} {bound : ℕ → ℕ} {pending : List LogQuery} {n : ℕ}

theorem changed_succ (hn : n < history.length) {key : StorageKey} : Changed history (n + 1) key ↔
    Changed history n key ∨ history[n].after key.slot ≠ history[n].before key.slot := by
  constructor
  · rintro ⟨i, hi, hlt, hchanged⟩
    rcases Nat.lt_succ_iff_lt_or_eq.mp hlt with hlt | rfl
    · exact .inl ⟨i, hi, hlt, hchanged⟩
    · exact .inr hchanged
  · rintro (⟨i, hi, hlt, hchanged⟩ | hchanged)
    · exact ⟨i, hi, hlt.trans (Nat.lt_succ_self n), hchanged⟩
    · exact ⟨n, hn, Nat.lt_succ_self n, hchanged⟩

/-- The hashed keys after a batch: those that were there, and those of its values that are not
zero. -/
theorem Synced.present_updateBatch (h : Synced hash history n cache)
    (ht : TablesInv hash t history bound pending) (hn : n < history.length) (hashedKey : H256) :
    ((cache.updateBatch hash t n).state.lookup hashedKey).isSome ↔
      ∃ key, key.hashedKey hash = hashedKey ∧ Changed history (n + 1) key := by
  have hstore : history[n].before = storeAfter (history.take n) := (ht.consistent n hn).before_eq
  rw [RocksdbStorage.updateBatch, RocksdbStorage.save, KeyedMap.lookup_extend_isSome]
  constructor
  · rintro (⟨value, hmem⟩ | hold)
    · obtain ⟨⟨key, value'⟩, hentry, heq⟩ := List.mem_map.mp hmem
      cases heq
      obtain ⟨htouched, hkept⟩ :=
        RocksdbStorage.lookup_processTransactionLogs.mp (KeyedMap.mem_toList.mp hentry)
      rcases hkept with hne | hold
      · refine ⟨key, rfl, ?_⟩
        -- a value other than zero after the batch
        have hafter : storeAfter (history.take (n + 1)) key.slot ≠ 0 := by
          rw [List.take_succ_eq_append_getElem hn, storeAfter_concat]
          rcases ht.touchedSlots_cases hn key with hvalue | ⟨hnone, -⟩
          · rw [htouched, Option.some.injEq] at hvalue
            rintro hzero
            exact hne (by rw [hvalue, hzero, u256ToH256_zero])
          · rw [htouched] at hnone
            cases hnone
        exact changed_of_ne_zero ht.consistent hn hafter
      · obtain ⟨key', hkey', hchanged⟩ := (h.present_iff _).mp hold
        exact ⟨key', hkey', (changed_succ hn).mpr (.inl hchanged)⟩
    · obtain ⟨key, hkey, hchanged⟩ := (h.present_iff hashedKey).mp hold
      exact ⟨key, hkey, (changed_succ hn).mpr (.inl hchanged)⟩
  · rintro ⟨key, rfl, hchanged⟩
    by_cases hold : (cache.state.lookup (key.hashedKey hash)).isSome
    · exact .inr hold
    · have hfirst : ¬ Changed history n key := fun hbefore =>
        hold ((h.present_iff _).mpr ⟨key, rfl, hbefore⟩)
      have hnow := ((changed_succ hn).mp hchanged).resolve_left hfirst
      have hzero : history[n].before key.slot = 0 := by
        rw [hstore]
        by_contra hne
        exact hfirst (changed_of_ne_zero ht.consistent hn.le hne)
      rcases ht.touchedSlots_cases hn key with hvalue | ⟨-, hsame⟩
      · refine .inl ⟨u256ToH256 (history[n].after key.slot), List.mem_map.mpr
          ⟨(key, u256ToH256 (history[n].after key.slot)), KeyedMap.mem_toList.mpr ?_, rfl⟩⟩
        refine RocksdbStorage.lookup_processTransactionLogs.mpr ⟨hvalue, .inl fun heq => hnow ?_⟩
        rw [hzero]
        exact u256ToH256_injective (heq.trans u256ToH256_zero.symm)
      · exact absurd hsame hnow

/-- The value of a key after a batch. -/
theorem Synced.value_updateBatch (h : Synced hash history n cache)
    (ht : TablesInv hash t history bound pending) (hn : n < history.length) {key : StorageKey}
    (hinj : Set.InjOn (StorageKey.hashedKey hash) (insert key (usedKeys history))) :
    (cache.updateBatch hash t n).readValue hash key =
      u256ToH256 (storeAfter (history.take (n + 1)) key.slot) := by
  have hold := h.value key hinj
  rw [List.take_succ_eq_append_getElem hn, storeAfter_concat]
  -- the values that the batch puts under the hashed key are those of the key
  have hput : ∀ value, (key.hashedKey hash, value) ∈ ((cache.processTransactionLogs hash
      (t.getTouchedSlotsForL1Batch n)).toList.map fun entry => (entry.1.hashedKey hash, entry.2)) →
        (cache.processTransactionLogs hash (t.getTouchedSlotsForL1Batch n)).lookup key =
          some value := by
    intro value hmem
    obtain ⟨⟨key', value'⟩, hentry, heq⟩ := List.mem_map.mp hmem
    obtain ⟨hhash, rfl⟩ := Prod.mk.inj heq
    have hlook := KeyedMap.mem_toList.mp hentry
    have hused := ht.usedKeys_of_touched hn
      (RocksdbStorage.lookup_processTransactionLogs.mp hlook).1
    rwa [hinj (Set.mem_insert_of_mem key hused) (Set.mem_insert key _) hhash] at hlook
  rw [RocksdbStorage.updateBatch, RocksdbStorage.readValue, RocksdbStorage.readValueInner,
    RocksdbStorage.save]
  dsimp only
  cases hlook : (cache.processTransactionLogs hash (t.getTouchedSlotsForL1Batch n)).lookup key with
  | some value =>
    have htouched := (RocksdbStorage.lookup_processTransactionLogs.mp hlook).1
    rw [KeyedMap.lookup_extend_of_forall (a := value)
      (List.mem_map.mpr ⟨(key, value), KeyedMap.mem_toList.mpr hlook, rfl⟩)
      fun value' hmem => Option.some.inj ((hput value' hmem).symm.trans hlook)]
    rcases ht.touchedSlots_cases hn key with hvalue | ⟨hnone, -⟩
    · exact Option.some.inj (htouched.symm.trans hvalue)
    · rw [htouched] at hnone
      cases hnone
  | none =>
    rw [KeyedMap.lookup_extend_of_notMem fun value hmem => by
      rw [hput value hmem] at hlook
      cases hlook]
    change cache.readValue hash key = _
    rw [hold]
    rcases ht.touchedSlots_cases hn key with hvalue | ⟨-, hsame⟩
    · -- a zero that is skipped: the key is not in the database
      have hskipped : ¬ (u256ToH256 (history[n].after key.slot) ≠ .zero ∨
          (cache.readValueInner hash key).isSome) := fun hkept => by
        rw [RocksdbStorage.lookup_processTransactionLogs.mpr ⟨hvalue, hkept⟩] at hlook
        cases hlook
      obtain ⟨hzero, hnone⟩ := not_or.mp hskipped
      rw [← hold, RocksdbStorage.readValue, Option.not_isSome_iff_eq_none.mp hnone]
      exact (not_not.mp hzero).symm
    · rw [hsame, (ht.consistent n hn).before_eq]

theorem Synced.updateBatch (h : Synced hash history n cache)
    (ht : TablesInv hash t history bound pending) (hn : n < history.length) :
    Synced hash history (n + 1) (cache.updateBatch hash t n) where
  number := rfl
  present_iff := h.present_updateBatch ht hn
  value _ hinj := h.value_updateBatch ht hn hinj

/-- Some turns of the loop. -/
theorem Synced.updateBatches (h : Synced hash history n cache)
    (ht : TablesInv hash t history bound pending) {count : ℕ}
    (hcount : n + count ≤ history.length) :
    Synced hash history (n + count) (cache.updateBatches hash t count) := by
  rw [RocksdbStorage.updateBatches, h.number]
  induction count generalizing n cache with
  | zero => exact h
  | succ count ih =>
    rw [List.range'_succ, List.foldl_cons, Nat.add_comm count 1, ← Nat.add_assoc]
    exact ih (h.updateBatch ht (by omega)) (by omega)

theorem getSealedL1BatchNumber_eq (h : TablesInv hash t history bound pending)
    (hne : history ≠ []) : t.getSealedL1BatchNumber = .ok (history.length - 1) := by
  have hlen := List.length_pos_iff.mpr hne
  have hmax : ((t.l1Batches.filter L1BatchHeader.isFinished).map L1BatchHeader.number).max? =
      some (history.length - 1) := by
    rw [h.headers, List.filter_eq_self.mpr (by simp), List.map_map, List.max?_eq_some_iff]
    constructor
    · simpa using hlen
    · intro b hb
      obtain ⟨n, hn, rfl⟩ := List.mem_map.mp hb
      have := List.mem_range.mp hn
      dsimp only [Function.comp_apply]
      omega
  rw [StorageTables.getSealedL1BatchNumber, hmax]

theorem history_ne_nil (h : SealRun hash io history) : history ≠ [] := by
  induction h with
  | genesis => exact List.cons_ne_nil _ _
  | execute _ _ ih => exact ih
  | sealMiniblock _ _ _ ih => exact ih
  | sealL1Batch => exact List.concat_ne_nil _ _

theorem sealRun (h : CacheRun hash io history cache) : SealRun hash io history := by
  induction h with
  | start hrun => exact hrun
  | sequencer _ hrun _ _ => exact hrun
  | crash _ _ _ _ ih => exact ih
  | update _ _ ih => exact ih

/-- Later batches change nothing about the first `n`. -/
theorem Synced.mono {history' : List SealedBatch} (h : Synced hash history n cache)
    (hlater : history <+: history') (hn : n ≤ history.length) :
    Synced hash history' n cache := by
  obtain ⟨later, rfl⟩ := hlater
  have hchanged : ∀ key, Changed (history ++ later) n key ↔ Changed history n key := by
    intro key
    constructor
    · rintro ⟨i, hi, hlt, hne⟩
      have hi' : i < history.length := hlt.trans_le hn
      rw [List.getElem_append_left hi'] at hne
      exact ⟨i, hi', hlt, hne⟩
    · rintro ⟨i, hi, hlt, hne⟩
      refine ⟨i, by rw [List.length_append]; omega, hlt, ?_⟩
      rwa [List.getElem_append_left hi]
  refine ⟨h.number, ?_, ?_⟩
  · intro hashedKey
    simp only [hchanged]
    exact h.present_iff hashedKey
  · intro key hinj
    rw [List.take_append_of_le_length hn]
    exact h.value key (hinj.mono (Set.insert_subset_insert
      (usedKeys_mono (List.prefix_append history later))))

/-- A call brings the cache to the last sealed batch; its assertion holds. -/
theorem Synced.updateFromPostgres (h : Synced hash history n cache)
    (ht : TablesInv hash t history bound pending) (hne : history ≠ []) (hn : n ≤ history.length) :
    ∃ cache', cache.updateFromPostgres hash t = .ok cache' ∧
      Synced hash history history.length cache' := by
  have hlen := List.length_pos_iff.mpr hne
  have hsynced := h.updateBatches ht (show n + (history.length - n) ≤ history.length by omega)
  rw [Nat.add_sub_cancel' hn] at hsynced
  refine ⟨_, ?_, hsynced⟩
  rw [RocksdbStorage.updateFromPostgres, getSealedL1BatchNumber_eq ht hne]
  simp only [bind, Except.bind, h.number, Nat.sub_add_cancel hlen, if_pos hn]

/-- In every state of a run the cache holds the state after some of the sealed batches. -/
theorem inv (h : CacheRun hash io history cache) :
    ∃ n ≤ history.length, Synced hash history n cache := by
  induction h with
  | start hrun =>
    refine ⟨0, Nat.zero_le _, rfl, ?_, fun key _ => u256ToH256_zero.symm⟩
    intro hashedKey
    refine iff_of_false (by simp [AList.lookup_empty]) ?_
    rintro ⟨key, -, i, hi, hlt, -⟩
    exact absurd hlt (Nat.not_lt_zero i)
  | sequencer _ _ hprefix ih =>
    obtain ⟨n, hn, hsynced⟩ := ih
    exact ⟨n, hn.trans hprefix.length_le, hsynced.mono hprefix hn⟩
  | crash count hrun hlatest hcount ih =>
    obtain ⟨n, hn, hsynced⟩ := ih
    obtain ⟨bound, hinv⟩ := hrun.sealRun.inv
    have hlen := List.length_pos_iff.mpr (history_ne_nil hrun.sealRun)
    rw [getSealedL1BatchNumber_eq hinv.tables (history_ne_nil hrun.sealRun)] at hlatest
    cases hlatest
    rw [hsynced.number] at hcount
    exact ⟨n + count, by omega, hsynced.updateBatches hinv.tables (by omega)⟩
  | update hrun hupdate ih =>
    obtain ⟨n, hn, hsynced⟩ := ih
    obtain ⟨bound, hinv⟩ := hrun.sealRun.inv
    obtain ⟨cache', hrun', hsynced'⟩ :=
      hsynced.updateFromPostgres hinv.tables (history_ne_nil hrun.sealRun) hn
    rw [hupdate] at hrun'
    cases hrun'
    exact ⟨_, le_rfl, hsynced'⟩

/-- The table of initial writes has the hashed keys of the keys that have changed. -/
theorem mem_initialWrites_iff (h : TablesInv hash t history bound pending) (hashedKey : H256) :
    hashedKey ∈ t.initialWrites.map InitialWriteRow.hashedKey ↔
      ∃ key, key.hashedKey hash = hashedKey ∧ Changed history history.length key := by
  have hkeys := h.dedup.hashedKeys history.length le_rfl
  rw [List.take_length, List.filter_eq_self.mpr fun row hrow => by
    simpa using h.dedup.writes_lt row hrow] at hkeys
  rw [hkeys, Enumerate.mem_enumerate]
  simp only [List.not_mem_nil, false_or, List.mem_flatMap, writtenHashes, List.mem_map,
    List.mem_filter]
  have hlists {i : ℕ} (hi : i < history.length) : ListsChanges history[i].queries
      history[i].before history[i].slots history[i].deduplicated := by
    obtain ⟨sorted, hsorted⟩ := h.dedup.sorted history[i] (List.getElem_mem hi)
    exact listsChanges_of_ok (h.consistent i hi).replay_eq hsorted
  constructor
  · rintro ⟨batch, hbatch, q, ⟨hq, hrw⟩, rfl⟩
    obtain ⟨i, hi, rfl⟩ := List.getElem_of_mem hbatch
    have hshard := ((h.consistent i hi).exists_query (hlists hi) hq).1
    refine ⟨q.storageKey, rfl, i, hi, hi, ?_⟩
    rw [LogQuery.slot_storageKey hshard]
    exact ((hlists hi).changed_iff q.slot).mpr ⟨q, hq, rfl, hrw⟩
  · rintro ⟨key, rfl, i, hi, -, hne⟩
    obtain ⟨q, hq, hslot, hrw⟩ := ((hlists hi).changed_iff key.slot).mp hne
    have hshard := ((h.consistent i hi).exists_query (hlists hi) hq).1
    refine ⟨history[i], List.getElem_mem hi, q, ⟨hq, hrw⟩, ?_⟩
    rw [(LogQuery.storageKey_eq_iff hshard).mpr hslot]

/-- The cache holds the sealed state. -/
structure HoldsSealedState (hash : List UInt8 → H256) (storage : StorageTables)
    (history : List SealedBatch) (cache : RocksdbStorage) : Prop where
  value : ∀ key, Set.InjOn (StorageKey.hashedKey hash) (insert key (usedKeys history)) →
    cache.readValue hash key = u256ToH256 (storeAfter history key.slot)
  isWriteInitial_iff : ∀ key, cache.isWriteInitial hash key = true ↔
    key.hashedKey hash ∉ storage.initialWrites.map InitialWriteRow.hashedKey
  number : ∃ latestL1BatchNumber, storage.getSealedL1BatchNumber = .ok latestL1BatchNumber ∧
    cache.l1BatchNumber = latestL1BatchNumber + 1

/-- In every run of the sequencer and its cache, whatever calls were cut off before, a call of
`update_from_postgres` returns and leaves the sealed state in the cache: the value of every key, the
keys of `initial_writes`, and the number of the next batch. -/
theorem updateFromPostgres_holdsSealedState (hash : List UInt8 → H256) (io : SequencerIo)
    (history : List SealedBatch) (cache : RocksdbStorage) (h : CacheRun hash io history cache) :
    ∃ cache', cache.updateFromPostgres hash io.storage = .ok cache' ∧
      HoldsSealedState hash io.storage history cache' := by
  obtain ⟨n, hn, hsynced⟩ := h.inv
  obtain ⟨bound, hinv⟩ := h.sealRun.inv
  have hne := history_ne_nil h.sealRun
  obtain ⟨cache', hupdate, hsynced'⟩ := hsynced.updateFromPostgres hinv.tables hne hn
  refine ⟨cache', hupdate, ?_, ?_, ?_⟩
  · intro key hinj
    have hvalue := hsynced'.value key hinj
    rwa [List.take_length] at hvalue
  · intro key
    rw [mem_initialWrites_iff hinv.tables, ← hsynced'.present_iff, RocksdbStorage.isWriteInitial,
      RocksdbStorage.readValueInner, Option.isNone_iff_eq_none, Option.not_isSome_iff_eq_none]
  · refine ⟨history.length - 1, getSealedL1BatchNumber_eq hinv.tables hne, ?_⟩
    have hlen := List.length_pos_iff.mpr hne
    rw [hsynced'.number]
    omega

/-- A cache whose first call was cut off after one batch. -/
theorem updateFromPostgres_holdsSealedState_sample : ∃ io cache,
    CacheRun sampleHash io sampleHistory cache ∧ cache.l1BatchNumber = 1 ∧
    ∃ cache', cache.updateFromPostgres sampleHash io.storage = .ok cache' ∧
      HoldsSealedState sampleHash io.storage sampleHistory cache' := by
  obtain ⟨io, hrun⟩ := sealRun_sampleHistory
  obtain ⟨bound, hinv⟩ := hrun.inv
  have hcrash : CacheRun sampleHash io sampleHistory
      (RocksdbStorage.updateBatches sampleHash io.storage {} 1) :=
    .crash 1 (.start hrun) (getSealedL1BatchNumber_eq hinv.tables (history_ne_nil hrun)) (by decide)
  exact ⟨io, _, hcrash, rfl,
    updateFromPostgres_holdsSealedState sampleHash io sampleHistory _ hcrash⟩

end CacheRun

end OlaOs
