import OlaOs.Tree.Enumeration
import OlaOs.Tree.Updater

/-! Blocks with reads, and without: what the filter of `process_l1_batch` leaves of a block, and
when there is enough left of it to be processed. -/
namespace OlaOs

open Enumerate BatchOps Storage AccountTree

variable {Row : Type}

/-- Every read carries the value that its leaf has at its position. -/
def ReadsCurrent (env : TreeEnv Row) (m : ℕ → TreeValue) (logs : List WitnessStorageLog) : Prop :=
  ∀ i log, logs[i]? = some log → log.storageLog.kind = .read →
    h256ToTreeValue log.storageLog.value =
      leavesAfter env.hasher m (blockOps env logs) i (treeKeyToU256 (log.treeKey env))

/-- `MetadataCalculator::process_genesis_batch`: the block is processed by a new tree, as it is. -/
def MetadataCalculator.processGenesisBatch (env : TreeEnv Row) (sched : Schedule Row)
    (storageLogs : List WitnessStorageLog) : Except Fault (TreeMetadata Row) := do
  let tree ← newWithDb env .empty
  let (metadata, _) ← processBlock env sched tree storageLogs
  return metadata

/-- Two databases describe the same tree: every node, an absent one standing for the empty hash of
its level, the index of every leaf and the next index. -/
structure SameContents (env : TreeEnv Row) (tree tree' : AccountTree) : Prop where
  nodes : ∀ lvlIdx, InTree lvlIdx →
    hashByLvlIdx env tree.storage lvlIdx = hashByLvlIdx env tree'.storage lvlIdx
  leafIndex : ∀ key, tree.leafIndex (env.treeKeyOf key) = tree'.leafIndex (env.treeKeyOf key)
  currentIndex : tree.storage.currentIndex = tree'.storage.currentIndex

variable {env : TreeEnv Row} {m : ℕ → TreeValue} {order : List TreeKey}

section Leaves

theorem leavesAfter_length (hasher : Hasher Row) (m : ℕ → TreeValue)
    (ops : List (TreeKey × TreeOperation)) : leavesAfter hasher m ops ops.length =
      (leafAssignments hasher ops).foldl (fun m' op => Function.update m' op.1 op.2) m := by
  rw [← SparseMerkle.after_length, leavesAfter, leafAssignments, List.length_map]

theorem leavesAfter_append_left (hasher : Hasher Row) (m : ℕ → TreeValue)
    (ops ops' : List (TreeKey × TreeOperation)) {t : ℕ} (ht : t ≤ ops.length) :
    leavesAfter hasher m (ops ++ ops') t = leavesAfter hasher m ops t := by
  rw [leavesAfter, leavesAfter, SparseMerkle.after, SparseMerkle.after, leafAssignments,
    leafAssignments, List.map_append, List.take_append_of_le_length (by rwa [List.length_map])]

theorem leavesAfter_concat (hasher : Hasher Row) (m : ℕ → TreeValue)
    (ops : List (TreeKey × TreeOperation)) (op : TreeKey × TreeOperation) :
    leavesAfter hasher m (ops ++ [op]) (ops ++ [op]).length =
      Function.update (leavesAfter hasher m ops ops.length) (treeKeyToU256 op.1)
        (op.2.leafHash hasher) := by
  rw [leavesAfter_length, leavesAfter_length, leafAssignments, List.map_append, List.foldl_append]
  rfl

theorem ReadsCurrent.of_concat {logs : List WitnessStorageLog} {log : WitnessStorageLog}
    (h : ReadsCurrent env m (logs ++ [log])) : ReadsCurrent env m logs := by
  intro i log' hlog' hread
  have hi := (List.getElem?_eq_some_iff.mp hlog').1
  have hcurrent := h i log' (by rw [List.getElem?_append_left hi, hlog']) hread
  rwa [blockOps, List.map_append, leavesAfter_append_left _ _ _ _ (by
    rw [List.length_map]
    exact hi.le)] at hcurrent

/-- Reads of current values leave the leaves as the writes alone do. -/
theorem ReadsCurrent.leavesAfter_filter {logs : List WitnessStorageLog}
    (h : ReadsCurrent env m logs) :
    leavesAfter env.hasher m (blockOps env (filterBlockLogs logs))
        (blockOps env (filterBlockLogs logs)).length =
      leavesAfter env.hasher m (blockOps env logs) (blockOps env logs).length := by
  induction logs using List.reverseRecOn with
  | nil => rfl
  | append_singleton logs log ih =>
    have hfirst := ih h.of_concat
    have hops : blockOps env (logs ++ [log]) = blockOps env logs ++ [treeOperation env log] := by
      rw [blockOps, List.map_append, List.map_singleton]
    cases hkind : log.storageLog.kind with
    | write =>
      have hfilter : filterBlockLogs (logs ++ [log]) = filterBlockLogs logs ++ [log] := by
        rw [filterBlockLogs, List.filter_append, List.filter_singleton, hkind]
        rfl
      have hops' : blockOps env (filterBlockLogs logs ++ [log]) =
          blockOps env (filterBlockLogs logs) ++ [treeOperation env log] := by
        rw [blockOps, List.map_append, List.map_singleton]
      rw [hfilter, hops, hops', leavesAfter_concat, leavesAfter_concat, hfirst]
    | read =>
      have hfilter : filterBlockLogs (logs ++ [log]) = filterBlockLogs logs := by
        rw [filterBlockLogs, List.filter_append, List.filter_singleton, hkind]
        exact List.append_nil _
      have hcurrent := h logs.length log (by simp) hkind
      rw [hops, leavesAfter_append_left _ _ _ _ (length_blockOps env logs).ge] at hcurrent
      have hvalue : (treeOperation env log).2.leafHash env.hasher =
          h256ToTreeValue log.storageLog.value := by
        rw [treeOperation, hkind]
        rfl
      rw [hfilter, hops, leavesAfter_concat, hfirst, hvalue, hcurrent, ← length_blockOps env logs]
      exact (Function.update_eq_self _ _).symm

/-- The writes of a block are those of its filtered logs. -/
theorem writesOf_filter (env : TreeEnv Row) (logs : List WitnessStorageLog) :
    writesOf (blockOps env (filterBlockLogs logs)) = writesOf (blockOps env logs) := by
  induction logs with
  | nil => rfl
  | cons log logs ih =>
    have hops (logs : List WitnessStorageLog) : writesOf (blockOps env (log :: logs)) =
        writesOf [treeOperation env log] ++ writesOf (blockOps env logs) := by
      rw [writesOf, writesOf, writesOf, ← List.filterMap_append]
      rfl
    cases hkind : log.storageLog.kind with
    | write =>
      have hfilter : filterBlockLogs (log :: logs) = log :: filterBlockLogs logs := by
        rw [filterBlockLogs, List.filter_cons, hkind]
        rfl
      rw [hfilter, hops, hops, ih]
    | read =>
      have hfilter : filterBlockLogs (log :: logs) = filterBlockLogs logs := by
        rw [filterBlockLogs, List.filter_cons, hkind]
        rfl
      have hread : writesOf [treeOperation env log] = [] := by
        rw [treeOperation, hkind]
        rfl
      rw [hfilter, hops, hread, ih, List.nil_append]

theorem filterBlockLogs_ne_nil {logs : List WitnessStorageLog} :
    filterBlockLogs logs ≠ [] ↔ ∃ log ∈ logs, log.storageLog.kind = .write := by
  simp [filterBlockLogs]

/-- What is reported for a block is reported for its filtered logs. -/
theorem ReadsCurrent.blockReport_filter {logs : List WitnessStorageLog}
    (h : ReadsCurrent env m logs) :
    blockReport env m order (blockOps env (filterBlockLogs logs)) =
      blockReport env m order (blockOps env logs) := by
  simp only [blockReport, h.leavesAfter_filter, writesOf_filter, writtenBy]

end Leaves

/-- Saved trees over one leaf map and one numbering describe the same tree. -/
theorem AccountTree.SavedInv.sameContents {tree tree' : AccountTree} (h : SavedInv env m order tree)
    (h' : SavedInv env m order tree') : SameContents env tree tree' where
  nodes := by
    rintro ⟨level, i⟩ ⟨hlevel, hi⟩
    rw [hashByLvlIdx_eq h.db.nodes hlevel hi, hashByLvlIdx_eq h'.db.nodes hlevel hi]
  leafIndex key := by rw [h.db.leafIndex_eq, h'.db.leafIndex_eq]
  currentIndex := by rw [h.db.current, h'.db.current]

/-- Reads of a block do not influence the tree: the block and its filtered logs give the same
metadata but for the witness, and after a save the same tree. -/
def ReadsInvisible (env : TreeEnv Row) (sched sched' : Schedule Row) (tree : AccountTree)
    (logs : List WitnessStorageLog) : Prop :=
  ∃ metadata metadata' tree₁ tree₂ saved saved',
    processBlock env sched tree logs = .ok (metadata, tree₁) ∧
    processBlock env sched' tree (filterBlockLogs logs) = .ok (metadata', tree₂) ∧
    metadata.rootHash = metadata'.rootHash ∧
    metadata.initialWrites = metadata'.initialWrites ∧
    metadata.repeatedWrites = metadata'.repeatedWrites ∧
    metadata.rollupLastLeafIndex = metadata'.rollupLastLeafIndex ∧
    tree₁.save true = .ok saved ∧ tree₂.save true = .ok saved' ∧ SameContents env saved saved'

theorem AccountTree.SavedInv.readsInvisible (hout : env.hasher.TraceOutput)
    (hkeys : env.CanonicalKeys)
    (hsep : env.SeparateKeys) (sched sched' : Schedule Row) {tree : AccountTree}
    (h : SavedInv env m order tree) {logs : List WitnessStorageLog}
    (hreads : ReadsCurrent env m logs) (hwrite : ∃ log ∈ logs, log.storageLog.kind = .write) :
    ReadsInvisible env sched sched' tree logs := by
  have hne : logs ≠ [] := by
    rintro rfl
    simp at hwrite
  obtain ⟨witness, tree₁, hblock, hsave, hinv⟩ := h.step hout hkeys hsep sched hne
  obtain ⟨witness', tree₂, hblock', hsave', hinv'⟩ :=
    h.step hout hkeys hsep sched' (filterBlockLogs_ne_nil.mpr hwrite)
  rw [hreads.leavesAfter_filter, writtenBy, writesOf_filter] at hinv'
  rw [hreads.blockReport_filter] at hblock'
  exact ⟨_, _, tree₁, tree₂, _, _, hblock, hblock', rfl, rfl, rfl, rfl, hsave, hsave',
    hinv.sameContents hinv'⟩

/-- For every saved tree and every block with a write whose reads are current, the block and its
filtered logs are processed alike; and the root of a genesis block is the one that the tree updater
computes for it. -/
theorem processBlock_readsInvisible (env : TreeEnv Row) (hout : env.hasher.TraceOutput)
    (hkeys : env.CanonicalKeys) (hsep : env.SeparateKeys) (sched sched' : Schedule Row) :
    (∀ m order tree logs, SavedInv env m order tree → ReadsCurrent env m logs →
      (∃ log ∈ logs, log.storageLog.kind = .write) → ReadsInvisible env sched sched' tree logs) ∧
    ∀ logs, ReadsCurrent env (fun _ => treeKeyDefault) logs →
      (∃ log ∈ logs, log.storageLog.kind = .write) → ∃ tree metadata metadata' tree',
        newWithDb env .empty = .ok tree ∧
        MetadataCalculator.processGenesisBatch env sched logs = .ok metadata ∧
        TreeUpdater.processL1Batch env sched' tree logs = .ok (metadata', tree') ∧
        metadata.rootHash = metadata'.rootHash := by
  refine ⟨fun m order tree logs h hreads hwrite => h.readsInvisible hout hkeys hsep sched sched'
    hreads hwrite, fun logs hreads hwrite => ?_⟩
  have hnew := newWithDb_empty env
  have hinvisible := (savedInv_start hnew).readsInvisible hout hkeys hsep sched sched' hreads hwrite
  obtain ⟨metadata, metadata', tree₁, tree₂, -, -, hblock, hblock', hroot, -⟩ := hinvisible
  refine ⟨_, metadata, { metadata' with witness := none }, tree₂, hnew, ?_, ?_, hroot⟩
  · simp only [MetadataCalculator.processGenesisBatch, hnew, hblock, bind, Except.bind, pure,
      Except.pure]
  · simp only [TreeUpdater.processL1Batch, AsyncTree.processL1Batch, hblock', bind, Except.bind,
      pure, Except.pure]

/-- A write and a read behind it. -/
def sampleMixedLogs : List WitnessStorageLog :=
  [⟨⟨.write, ⟨.zero, u256ToH256 1⟩, u256ToH256 7⟩, .zero⟩,
    ⟨⟨.read, ⟨.zero, u256ToH256 1⟩, u256ToH256 7⟩, u256ToH256 7⟩]

theorem readsCurrent_sampleMixedLogs (m : ℕ → TreeValue) :
    ReadsCurrent sampleEnv m sampleMixedLogs := by
  intro i log hlog hread
  match i with
  | 0 =>
    obtain rfl := Option.some.inj hlog
    cases hread
  | 1 =>
    obtain rfl := Option.some.inj hlog
    have hleaves : leavesAfter sampleEnv.hasher m (blockOps sampleEnv sampleMixedLogs) 1 =
        Function.update m (treeKeyToU256 (sampleEnv.treeKeyOf ⟨.zero, u256ToH256 1⟩))
          (h256ToTreeValue (u256ToH256 7)) := by
      simp only [sampleMixedLogs, blockOps, List.map_cons, List.map_nil, leavesAfter,
        SparseMerkle.after, leafAssignments, List.take_succ_cons, List.take_zero, List.foldl_cons,
        List.foldl_nil, treeOperation, TreeOperation.leafHash]
    rw [hleaves, WitnessStorageLog.treeKey, Function.update_self]
  | i + 2 => cases hlog

theorem processBlock_readsInvisible_sample :
    ReadsInvisible sampleEnv sampleSchedule sampleSchedule sampleTree sampleMixedLogs ∧
    ∃ tree metadata metadata' tree', newWithDb sampleEnv .empty = .ok tree ∧
      MetadataCalculator.processGenesisBatch sampleEnv sampleSchedule sampleMixedLogs =
        .ok metadata ∧
      TreeUpdater.processL1Batch sampleEnv sampleSchedule tree sampleMixedLogs =
        .ok (metadata', tree') ∧ metadata.rootHash = metadata'.rootHash := by
  obtain ⟨hall, hgenesis⟩ := processBlock_readsInvisible sampleEnv sampleEnv_traceOutput
    sampleEnv_canonicalKeys sampleEnv_separateKeys sampleSchedule sampleSchedule
  exact ⟨hall _ _ _ _ TreeUpdater.sampleTree_saved (readsCurrent_sampleMixedLogs _) (by decide),
    hgenesis _ (readsCurrent_sampleMixedLogs _) (by decide)⟩

/-- `process_l1_batch` returns with the tree over the updated leaves, one block further. -/
def Processed (env : TreeEnv Row) (sched : Schedule Row) (m : ℕ → TreeValue) (tree : AccountTree)
    (logs : List WitnessStorageLog) : Prop :=
  ∃ metadata tree', AsyncTree.processL1Batch env sched tree logs = .ok (metadata, tree') ∧
    tree'.rootHash = referenceRoot env.hasher (leavesAfter env.hasher m
      (TreeUpdater.batchOps env logs) (TreeUpdater.batchOps env logs).length) ∧
    tree'.blockNumber = tree.blockNumber + 1

/-- A batch is processed exactly when it has a write and the block number does not overflow. -/
theorem processL1Batch_processed_iff (env : TreeEnv Row) (hout : env.hasher.TraceOutput)
    (hkeys : env.CanonicalKeys) (sched : Schedule Row) (m : ℕ → TreeValue) (tree : AccountTree)
    (htree : ConsistentTree env m tree) (logs : List WitnessStorageLog) :
    Processed env sched m tree logs ↔
      (∃ log ∈ logs, log.storageLog.kind = .write) ∧ tree.blockNumber + 1 < 2 ^ 32 := by
  rw [← filterBlockLogs_ne_nil]
  by_cases hnil : filterBlockLogs logs = []
  · refine iff_of_false ?_ fun h => h.1 hnil
    rintro ⟨metadata, tree', hprocess, -⟩
    rw [AsyncTree.processL1Batch, hnil, processBlock_nil sched htree.nodes] at hprocess
    cases hprocess
  · obtain ⟨branches, poseidon, -, hblock⟩ := processBlock_eq hout hkeys sched htree.nodes hnil
    have hlength : (filterBlockLogs logs).length ≠ 0 := by simpa using hnil
    constructor
    · rintro ⟨metadata, tree', hprocess, -, hnumber⟩
      rw [AsyncTree.processL1Batch, hblock] at hprocess
      cases hprocess
      exact ⟨hnil, hnumber ▸ Nat.mod_lt _ (Nat.two_pow_pos 32)⟩
    · rintro ⟨-, hlt⟩
      refine ⟨_, _, hblock, ?_, Nat.mod_eq_of_lt hlt⟩
      rw [rootBefore, if_neg hlength, TreeUpdater.batchOps, length_blockOps]

theorem processL1Batch_processed_sample :
    Processed sampleEnv sampleSchedule (fun _ => treeKeyDefault) sampleTree sampleMixedLogs :=
  (processL1Batch_processed_iff sampleEnv sampleEnv_traceOutput sampleEnv_canonicalKeys
    sampleSchedule _ sampleTree sampleTree_consistent sampleMixedLogs).mpr (by decide)

/-- A batch that only reads makes `process_block` panic. -/
theorem processL1Batch_processed_counterexample :
    ConsistentTree sampleEnv (fun _ => treeKeyDefault) sampleTree ∧
    AsyncTree.processL1Batch sampleEnv sampleSchedule sampleTree
      [⟨⟨.read, ⟨.zero, u256ToH256 1⟩, .zero⟩, .zero⟩] =
        .error (.panic "Storage log and tree metadata not match!") ∧
    ¬Processed sampleEnv sampleSchedule (fun _ => treeKeyDefault) sampleTree
      [⟨⟨.read, ⟨.zero, u256ToH256 1⟩, .zero⟩, .zero⟩] := by
  have hpanic : AsyncTree.processL1Batch sampleEnv sampleSchedule sampleTree
      [⟨⟨.read, ⟨.zero, u256ToH256 1⟩, .zero⟩, .zero⟩] =
        .error (.panic "Storage log and tree metadata not match!") :=
    processBlock_nil sampleSchedule sampleTree_consistent.nodes
  refine ⟨sampleTree_consistent, hpanic, ?_⟩
  rintro ⟨metadata, tree', hprocess, -⟩
  rw [hpanic] at hprocess
  cases hprocess

end OlaOs
