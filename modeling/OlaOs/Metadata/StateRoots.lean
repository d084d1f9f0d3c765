import OlaOs.Metadata.Indices
import OlaOs.Tree.Filtering
import OlaOs.Tree.Published

/-! The leaves of the tree over the sealed batches: they hold the values of the store. -/
namespace OlaOs

open Enumerate AccountTree BatchOps

variable {Row : Type}

namespace SealedBatch

/-- The logs of a batch, as `get_logs_for_l1_batch` returns them. -/
def witnessLogs (batch : SealedBatch) : List WitnessStorageLog :=
  batch.deduplicated.map batch.witnessLog

theorem key_witnessLog (batch : SealedBatch) (q : LogQuery) :
    (batch.witnessLog q).storageLog.key = q.storageKey := by
  unfold witnessLog
  split_ifs <;> rfl

theorem value_witnessLog {batch : SealedBatch} {q : LogQuery}
    (hread : (batch.witnessLog q).storageLog.kind = .read) :
    (batch.witnessLog q).storageLog.value = u256ToH256 (batch.before q.slot) := by
  unfold witnessLog at hread ⊢
  split_ifs at hread ⊢
  · cases hread
  · rfl

/-- What the calculator makes of a batch. -/
def treeOps (env : TreeEnv Row) (batch : SealedBatch) : List (TreeKey × TreeOperation) :=
  TreeUpdater.batchOps env batch.witnessLogs

theorem treeOps_eq (env : TreeEnv Row) (batch : SealedBatch) :
    batch.treeOps env = (batch.deduplicated.filter LogQuery.rwFlag).map fun q =>
      (env.treeKeyOf q.storageKey, .write (h256ToTreeValue (u256ToH256 (batch.after q.slot)))
        (h256ToTreeValue (u256ToH256 (batch.before q.slot)))) := by
  rw [treeOps, TreeUpdater.batchOps, witnessLogs, filterBlockLogs_witnessLog, blockOps,
    List.map_map]
  apply List.map_congr_left
  intro q hq
  have hrw : q.rwFlag = true := (List.mem_filter.mp hq).2
  rw [Function.comp_apply, witnessLog, if_pos hrw]
  rfl

theorem mem_writesOf_treeOps {env : TreeEnv Row} {batch : SealedBatch} {w : TreeKey × TreeValue} :
    w ∈ writesOf (batch.treeOps env) ↔ ∃ q ∈ batch.deduplicated, q.rwFlag = true ∧
      w = (env.treeKeyOf q.storageKey, h256ToTreeValue (u256ToH256 (batch.after q.slot))) := by
  rw [mem_writesOf, treeOps_eq]
  constructor
  · rintro ⟨previousValue, hop⟩
    obtain ⟨q, hq, heq⟩ := List.mem_map.mp hop
    obtain ⟨hq, hrw⟩ := List.mem_filter.mp hq
    obtain ⟨hkey, hvalue⟩ := Prod.mk.inj heq
    exact ⟨q, hq, hrw, Prod.ext hkey.symm (TreeOperation.write.inj hvalue).1.symm⟩
  · rintro ⟨q, hq, hrw, rfl⟩
    exact ⟨_, List.mem_map.mpr ⟨q, List.mem_filter.mpr ⟨hq, hrw⟩, rfl⟩⟩

/-- The leaves that the logs of a batch are about, reads included. -/
theorem map_leafAssignments (env : TreeEnv Row) (batch : SealedBatch) :
    (leafAssignments env.hasher (blockOps env batch.witnessLogs)).map Prod.fst =
      batch.deduplicated.map fun q => treeKeyToU256 (env.treeKeyOf q.storageKey) := by
  rw [leafAssignments, witnessLogs, blockOps, List.map_map, List.map_map, List.map_map]
  apply List.map_congr_left
  intro q _
  change treeKeyToU256 (env.treeKeyOf (batch.witnessLog q).storageLog.key) = _
  rw [key_witnessLog]

end SealedBatch

/-- The leaves after the first `n` batches. -/
def leavesAt (env : TreeEnv Row) (history : List SealedBatch) (n : ℕ) : ℕ → TreeValue :=
  (history.take n).foldl (fun m batch =>
    leavesAfter env.hasher m (batch.treeOps env) (batch.treeOps env).length) fun _ => treeKeyDefault

/-- The leaves in the order of their first writes. -/
def orderAt (env : TreeEnv Row) (history : List SealedBatch) (n : ℕ) : List TreeKey :=
  (history.take n).foldl (fun order batch => enumerate order (writtenBy (batch.treeOps env))) []

/-- The root after the first `n` batches. -/
def stateRoot (env : TreeEnv Row) (history : List SealedBatch) (n : ℕ) : H256 :=
  treeKeyToH256 (referenceRoot env.hasher (leavesAt env history n))

section Runs

variable {env : TreeEnv Row} {history history' : List SealedBatch} {n : ℕ}

theorem leavesAt_succ (hn : n < history.length) : leavesAt env history (n + 1) =
    leavesAfter env.hasher (leavesAt env history n) (history[n].treeOps env)
      (history[n].treeOps env).length := by
  rw [leavesAt, List.take_succ_eq_append_getElem hn, List.foldl_append]
  rfl

theorem orderAt_succ (hn : n < history.length) : orderAt env history (n + 1) =
    enumerate (orderAt env history n) (writtenBy (history[n].treeOps env)) := by
  rw [orderAt, List.take_succ_eq_append_getElem hn, List.foldl_append]
  rfl

theorem take_of_longer (h : history <+: history') (hn : n ≤ history.length) :
    history'.take n = history.take n := by
  obtain ⟨later, rfl⟩ := h
  exact List.take_append_of_le_length hn

theorem leavesAt_of_longer (h : history <+: history') (hn : n ≤ history.length) :
    leavesAt env history' n = leavesAt env history n := by
  rw [leavesAt, leavesAt, take_of_longer h hn]

theorem orderAt_of_longer (h : history <+: history') (hn : n ≤ history.length) :
    orderAt env history' n = orderAt env history n := by
  rw [orderAt, orderAt, take_of_longer h hn]

theorem stateRoot_of_longer (h : history <+: history') (hn : n ≤ history.length) :
    stateRoot env history' n = stateRoot env history n := by
  rw [stateRoot, stateRoot, leavesAt_of_longer h hn]

end Runs

/-- The leaves that belong to the store after the first `n` batches: the leaf of a used key holds
the value of its slot, and the other leaves are empty. -/
structure HoldsStore (env : TreeEnv Row) (history : List SealedBatch) (n : ℕ)
    (leaves : ℕ → TreeValue) : Prop where
  used : ∀ key ∈ usedKeys history, leaves (treeKeyToU256 (env.treeKeyOf key)) =
    h256ToTreeValue (u256ToH256 (storeAfter (history.take n) key.slot))
  rest : ∀ k, (∀ key ∈ usedKeys history, treeKeyToU256 (env.treeKeyOf key) ≠ k) →
    leaves k = treeKeyDefault

/-- There is one such map of leaves. -/
theorem HoldsStore.unique {env : TreeEnv Row} {history : List SealedBatch} {n : ℕ}
    {leaves leaves' : ℕ → TreeValue} (h : HoldsStore env history n leaves)
    (h' : HoldsStore env history n leaves') : leaves = leaves' := by
  funext k
  by_cases hk : ∃ key ∈ usedKeys history, treeKeyToU256 (env.treeKeyOf key) = k
  · obtain ⟨key, hkey, rfl⟩ := hk
    rw [h.used key hkey, h'.used key hkey]
  · push Not at hk
    rw [h.rest k hk, h'.rest k hk]

/-- What the tables say about the batches that the leaves depend on. -/
structure SealedStore (hash : List UInt8 → H256) (history : List SealedBatch) : Prop where
  consistent : ConsistentHistory history
  sorted : ∀ batch ∈ history, ∃ sorted,
    sortStorageAccessQueries batch.queries = .ok (sorted, batch.deduplicated)
  hashed : Set.InjOn (StorageKey.hashedKey hash) (usedKeys history)

theorem SealRun.sealedStore {hash : List UInt8 → H256} {io : SequencerIo}
    {history : List SealedBatch} (h : SealRun hash io history)
    (hinj : Set.InjOn (StorageKey.hashedKey hash) (usedKeys history)) :
    SealedStore hash history := by
  obtain ⟨bound, hinv⟩ := h.inv
  exact ⟨hinv.tables.consistent, hinv.tables.dedup.sorted, hinj⟩

namespace SealedStore

variable {env : TreeEnv Row} {history : List SealedBatch} {n : ℕ}

theorem listsChanges {hash : List UInt8 → H256} (h : SealedStore hash history)
    (hn : n < history.length) : ListsChanges history[n].queries history[n].before history[n].slots
      history[n].deduplicated := by
  obtain ⟨sorted, hsorted⟩ := h.sorted _ (List.getElem_mem hn)
  exact listsChanges_of_ok (h.consistent n hn).replay_eq hsorted

variable (h : SealedStore env.poseidonHashBytes history)

include h

theorem mem_usedKeys (hn : n < history.length) {q : LogQuery}
    (hq : q ∈ history[n].deduplicated) : q.storageKey ∈ usedKeys history := by
  obtain ⟨-, q', hq', hsame⟩ := (h.consistent n hn).exists_query (h.listsChanges hn) hq
  exact ⟨history[n], List.getElem_mem hn, q', hq', hsame⟩

/-- Used storage keys have leaves of their own. -/
theorem treeKeyOf_inj {key key' : StorageKey} (hkey : key ∈ usedKeys history)
    (hkey' : key' ∈ usedKeys history) (heq : env.treeKeyOf key = env.treeKeyOf key') : key = key' :=
  h.hashed hkey hkey' (h256ToTreeKey_injective heq)

/-- A batch has one query for a leaf. -/
theorem nodup_keys (hn : n < history.length) :
    (history[n].deduplicated.map fun q => env.treeKeyOf q.storageKey).Nodup := by
  have hlists := h.listsChanges hn
  have hcons := h.consistent n hn
  rw [List.Nodup, List.pairwise_map]
  refine hlists.increasing.imp_of_mem fun {q q'} hq hq' hlt heq => ?_
  have hkey := h.treeKeyOf_inj (h.mem_usedKeys hn hq) (h.mem_usedKeys hn hq') heq
  have hslot := (LogQuery.storageKey_eq_iff (hcons.exists_query hlists hq).1).mp hkey
  rw [LogQuery.slot_storageKey (hcons.exists_query hlists hq').1] at hslot
  exact hlt.ne hslot

theorem nodup_leaves (hn : n < history.length) :
    (history[n].deduplicated.map fun q =>
      treeKeyToU256 (env.treeKeyOf q.storageKey)).Nodup := by
  have hnodup : (history[n].deduplicated.map fun q => env.treeKeyOf q.storageKey).Nodup :=
    h.nodup_keys hn
  rw [List.Nodup, List.pairwise_map] at hnodup ⊢
  exact hnodup.imp fun hne heq => hne (treeKeyToU256_injective heq)

theorem distinctOps (hn : n < history.length) (m : ℕ → TreeValue) :
    DistinctOps env m (history[n].treeOps env) := by
  rw [SealedBatch.treeOps_eq]
  refine ⟨?_, ?_, ?_, ?_⟩
  · rw [List.map_map]
    exact (h.nodup_keys hn).sublist ((List.filter_sublist (p := LogQuery.rwFlag)).map _)
  · intro leaf value hop
    obtain ⟨q, -, hq⟩ := List.mem_map.mp hop
    cases hq
  · intro op hop
    obtain ⟨q, -, rfl⟩ := List.mem_map.mp hop
    exact ⟨q.storageKey, rfl⟩
  · intro op hop
    obtain ⟨q, -, rfl⟩ := List.mem_map.mp hop
    exact TreeOperation.noConfusion

/-- The leaf of every key that the batches use holds the value of its slot in the store. -/
theorem leavesAt_eq (hn : n ≤ history.length) {key : StorageKey} (hkey : key ∈ usedKeys history) :
    leavesAt env history n (treeKeyToU256 (env.treeKeyOf key)) =
      h256ToTreeValue (u256ToH256 (storeAfter (history.take n) key.slot)) := by
  induction n with
  | zero =>
    rw [List.take_zero, storeAfter]
    change treeKeyDefault = h256ToTreeValue (u256ToH256 0)
    decide
  | succ n ih =>
    have hlt : n < history.length := hn
    have hlists := h.listsChanges hlt
    have hcons := h.consistent n hlt
    have hops := h.distinctOps hlt (leavesAt env history n)
    rw [leavesAt_succ hlt, List.take_succ_eq_append_getElem hlt, storeAfter_concat]
    by_cases hchanged : history[n].after key.slot ≠ history[n].before key.slot
    · obtain ⟨q, hq, hslot, hrw⟩ := (hlists.changed_iff key.slot).mp hchanged
      have hsame := (LogQuery.storageKey_eq_iff (hcons.exists_query hlists hq).1).mpr hslot
      have hw := @SealedBatch.mem_writesOf_treeOps _ env _ _ |>.mpr ⟨q, hq, hrw, rfl⟩
      rw [← hsame, hops.leavesAfter_write hw, hslot, hsame]
    · rw [not_not] at hchanged
      rw [hops.leavesAfter_rest, ih hlt.le, hchanged, hcons.before_eq]
      intro value hw
      obtain ⟨q, hq, hrw, heq⟩ := SealedBatch.mem_writesOf_treeOps.mp hw
      have hsame := h.treeKeyOf_inj hkey (h.mem_usedKeys hlt hq) (Prod.mk.inj heq).1
      have hslot := (LogQuery.storageKey_eq_iff (hcons.exists_query hlists hq).1).mp hsame.symm
      exact (hlists.changed_iff key.slot).mpr ⟨q, hq, hslot, hrw⟩ hchanged

theorem leavesAt_rest (hn : n ≤ history.length) {k : ℕ}
    (hk : ∀ key ∈ usedKeys history, treeKeyToU256 (env.treeKeyOf key) ≠ k) :
    leavesAt env history n k = treeKeyDefault := by
  induction n with
  | zero => rfl
  | succ n ih =>
    have hlt : n < history.length := hn
    have hfree : k ∉ (history[n].treeOps env).map fun op => treeKeyToU256 op.1 := by
      rw [SealedBatch.treeOps_eq, List.map_map]
      intro hmem
      obtain ⟨q, hq, heq⟩ := List.mem_map.mp hmem
      rw [Function.comp_apply] at heq
      exact hk _ (h.mem_usedKeys hlt (List.mem_filter.mp hq).1) heq
    rw [leavesAt_succ hlt, TreeUpdater.leavesAfter_of_notMem hfree, ih hlt.le]

theorem holdsStore (hn : n ≤ history.length) : HoldsStore env history n (leavesAt env history n) :=
  ⟨fun _ hkey => h.leavesAt_eq hn hkey, fun _ hk => h.leavesAt_rest hn hk⟩

/-- A slot that no batch uses stays zero. -/
theorem storeAfter_unused (hn : n ≤ history.length) {key : StorageKey}
    (hkey : key ∉ usedKeys history) : storeAfter (history.take n) key.slot = 0 := by
  induction n with
  | zero => rfl
  | succ n ih =>
    have hlt : n < history.length := hn
    have hlists := h.listsChanges hlt
    have hcons := h.consistent n hlt
    have hsame : history[n].after key.slot = history[n].before key.slot := by
      by_contra hchanged
      obtain ⟨q, hq, hslot, -⟩ := (hlists.changed_iff key.slot).mp hchanged
      have heq := (LogQuery.storageKey_eq_iff (hcons.exists_query hlists hq).1).mpr hslot
      exact hkey (heq ▸ h.mem_usedKeys hlt hq)
    rw [List.take_succ_eq_append_getElem hlt, storeAfter_concat, hsame, hcons.before_eq,
      ih hlt.le]

/-- The leaf of any key that shares it with no other key in use. -/
theorem value_eq (hn : n ≤ history.length) {leaves : ℕ → TreeValue}
    (hleaves : HoldsStore env history n leaves) {key : StorageKey}
    (hkey : ∀ key' ∈ usedKeys history, env.treeKeyOf key' = env.treeKeyOf key → key' = key) :
    leaves (treeKeyToU256 (env.treeKeyOf key)) =
      h256ToTreeValue (u256ToH256 (storeAfter (history.take n) key.slot)) := by
  by_cases hused : key ∈ usedKeys history
  · exact hleaves.used key hused
  · rw [h.storeAfter_unused hn hused, hleaves.rest]
    · decide
    · intro key' hkey' heq
      have hsame := hkey key' hkey' (treeKeyToU256_injective heq)
      exact hused (hsame ▸ hkey')

/-- The protective reads of a batch carry the values of the leaves. -/
theorem readsCurrent (hn : n < history.length) :
    ReadsCurrent env (leavesAt env history n) history[n].witnessLogs := by
  intro i log hlog hread
  obtain ⟨hi, hget⟩ := List.getElem?_eq_some_iff.mp hlog
  have hi' : i < history[n].deduplicated.length := by
    rwa [SealedBatch.witnessLogs, List.length_map] at hi
  obtain ⟨q, hq, rfl⟩ : ∃ q, history[n].deduplicated[i] = q ∧ history[n].witnessLog q = log :=
    ⟨_, rfl, by rw [← hget]; exact (List.getElem_map _).symm⟩
  have hmem : q ∈ history[n].deduplicated := hq ▸ List.getElem_mem hi'
  have hslot := LogQuery.slot_storageKey
    ((h.consistent n hn).exists_query (h.listsChanges hn) hmem).1
  rw [WitnessStorageLog.treeKey, SealedBatch.key_witnessLog, SealedBatch.value_witnessLog hread,
    (h.consistent n hn).before_eq, ← hslot, ← h.leavesAt_eq hn.le (h.mem_usedKeys hn hmem)]
  -- the queries before this one are about other leaves
  have hkeys : (history[n].deduplicated.map fun q =>
      treeKeyToU256 (env.treeKeyOf q.storageKey)).Nodup := h.nodup_leaves hn
  have hfresh : treeKeyToU256 (env.treeKeyOf q.storageKey) ∉
      ((leafAssignments env.hasher (blockOps env history[n].witnessLogs)).take i).map
        Prod.fst := by
    rw [List.map_take, SealedBatch.map_leafAssignments]
    intro hbefore
    refine List.disjoint_take_drop hkeys le_rfl hbefore (List.mem_drop_iff_getElem.mpr ⟨0, ?_, ?_⟩)
    · simpa using hi'
    · simp [hq]
  rw [leavesAfter, SparseMerkle.after, ← SparseMerkle.after_length,
    SparseMerkle.after_of_notMem _ hfresh]

end SealedStore

end OlaOs
