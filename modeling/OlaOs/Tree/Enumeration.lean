import Mathlib.Data.List.Dedup
import OlaOs.Tree.ProofChain
import OlaOs.Tree.SavedTree

/-! Leaf indices over whole runs: blocks that are processed and saved in turn, from an empty
database on. -/
namespace OlaOs

open Enumerate BatchOps Storage

variable {Row : Type}

/-- The tree keys written by the blocks of a run. -/
def writtenKeys (env : TreeEnv Row) (blocks : List (List WitnessStorageLog)) : List TreeKey :=
  blocks.flatMap fun logs => writtenBy (AccountTree.blockOps env logs)

/-- The number of leaves written. -/
def leafCount (env : TreeEnv Row) (blocks : List (List WitnessStorageLog)) : ℕ :=
  (writtenKeys env blocks).dedup.length

namespace AccountTree

variable {env : TreeEnv Row} {m : ℕ → TreeValue} {order : List TreeKey}

/-- The index record of a leaf in the database. -/
def leafIndex (tree : AccountTree) (leaf : TreeKey) : Option ℕ :=
  (tree.storage.db.leafIndices (serializeTreeLeaf leaf)).map deserializeLeafIndex

/-- The trees reached from an empty database by processing a block and saving it, again and
again. -/
inductive SaveRun (env : TreeEnv Row) : List (List WitnessStorageLog) → AccountTree → Prop where
  | start {tree : AccountTree} : newWithDb env .empty = .ok tree → SaveRun env [] tree
  | block {blocks : List (List WitnessStorageLog)} {tree tree' saved : AccountTree}
      {logs : List WitnessStorageLog} {metadata : TreeMetadata Row} (sched : Schedule Row) :
      SaveRun env blocks tree → logs ≠ [] →
      processBlock env sched tree logs = .ok (metadata, tree') → tree'.save true = .ok saved →
      SaveRun env (blocks ++ [logs]) saved

/-- The index records after the blocks of a run. -/
structure LeavesEnumerated (env : TreeEnv Row) (blocks : List (List WitnessStorageLog))
    (tree : AccountTree) : Prop where
  indexed_iff : ∀ key, (tree.leafIndex (env.treeKeyOf key)).isSome ↔
    env.treeKeyOf key ∈ writtenKeys env blocks
  range : ∀ i, (1 ≤ i ∧ i ≤ leafCount env blocks) ↔
    ∃ key, tree.leafIndex (env.treeKeyOf key) = some i
  injective : ∀ key key' i, tree.leafIndex (env.treeKeyOf key) = some i →
    tree.leafIndex (env.treeKeyOf key') = some i → env.treeKeyOf key = env.treeKeyOf key'
  /-- An index once given never changes, however the run goes on. -/
  kept : ∀ later tree', SaveRun env (blocks ++ later) tree' → ∀ key i,
    tree.leafIndex (env.treeKeyOf key) = some i → tree'.leafIndex (env.treeKeyOf key) = some i

/-- What is reported for the block `logs` after the blocks `blocks`. -/
structure BlockEnumerated (env : TreeEnv Row) (sched : Schedule Row)
    (blocks : List (List WitnessStorageLog)) (tree : AccountTree) (logs : List WitnessStorageLog)
    (metadata : TreeMetadata Row) (saved : AccountTree) : Prop where
  initialWrites : metadata.initialWrites =
    ((firstWrites (writtenKeys env blocks) (writesOf (blockOps env logs))).zipIdx
      (leafCount env blocks + 1)).map fun e => ⟨e.2, treeKeyToU256 e.1.1, treeValueToH256 e.1.2⟩
  initialIndex : ∀ e ∈ (firstWrites (writtenKeys env blocks) (writesOf (blockOps env logs))).zipIdx
    (leafCount env blocks + 1), saved.leafIndex e.1.1 = some e.2
  repeatedWrites : List.Forall₂
    (fun w write => saved.leafIndex w.1 = some write.index ∧ write.value = treeValueToH256 w.2)
    (laterWrites (writtenKeys env blocks) (writesOf (blockOps env logs))) metadata.repeatedWrites
  rollupLastLeafIndex : metadata.rollupLastLeafIndex = leafCount env (blocks ++ [logs]) + 1
  firstWrite : ∃ run, runBatch env sched tree (logsWithBlocks [blockOps env logs]) = .ok run ∧
    run.patchMetadata.length = logs.length ∧ ∀ i (hi : i < logs.length),
      (tree.leafIndex (logs[i].treeKey env)).isSome →
      ∀ md, run.patchMetadata[i]? = some md → md.firstWrite = false

/-- Processing a block and saving it, from a saved tree. -/
theorem SavedInv.step (hout : env.hasher.TraceOutput) (hkeys : env.CanonicalKeys)
    (hsep : env.SeparateKeys) (sched : Schedule Row) {tree : AccountTree}
    (h : SavedInv env m order tree) {logs : List WitnessStorageLog} (hne : logs ≠ []) :
    ∃ witness tree', processBlock env sched tree logs =
        .ok ({ blockReport env m order (blockOps env logs) with witness := some witness }, tree') ∧
      tree'.save true = .ok tree'.saved ∧
      SavedInv env (leavesAfter env.hasher m (blockOps env logs) (blockOps env logs).length)
        (enumerate order (writtenBy (blockOps env logs))) tree'.saved := by
  obtain ⟨witness, tree', hblock, hdb, hdel, hpending, hroot, -⟩ :=
    processBlock_step hout hkeys hsep sched h.db hne
  obtain ⟨hsave, -, hinv⟩ := h.save hsep hdb hdel hpending hroot
  exact ⟨witness, tree', hblock, hsave, hinv⟩

theorem writtenKeys_concat (blocks : List (List WitnessStorageLog))
    (logs : List WitnessStorageLog) :
    writtenKeys env (blocks ++ [logs]) =
      writtenKeys env blocks ++ writtenBy (blockOps env logs) := by
  rw [writtenKeys, List.flatMap_append, List.flatMap_singleton]
  rfl

/-- Every run ends in a saved tree whose numbering lists the keys in the order of their first
write. -/
theorem SaveRun.savedInv (hout : env.hasher.TraceOutput) (hkeys : env.CanonicalKeys)
    (hsep : env.SeparateKeys) {blocks : List (List WitnessStorageLog)} {tree : AccountTree}
    (hrun : SaveRun env blocks tree) :
    ∃ m, SavedInv env m (enumerate [] (writtenKeys env blocks)) tree := by
  induction hrun with
  | start h => exact ⟨_, savedInv_start h⟩
  | block sched _ hne hblock hsave ih =>
    obtain ⟨m, hinv⟩ := ih
    obtain ⟨witness, tree', hblock', hsave', hinv'⟩ := hinv.step hout hkeys hsep sched hne
    rw [hblock] at hblock'
    cases hblock'
    rw [hsave] at hsave'
    cases hsave'
    rw [writtenKeys_concat, enumerate_append]
    exact ⟨_, hinv'⟩

theorem length_enumerate_writtenKeys (env : TreeEnv Row) (blocks : List (List WitnessStorageLog)) :
    (enumerate [] (writtenKeys env blocks)).length = leafCount env blocks := by
  apply List.Perm.length_eq
  rw [List.perm_ext_iff_of_nodup (enumerate_nodup List.nodup_nil _) (List.nodup_dedup _)]
  intro key
  rw [mem_enumerate, List.mem_dedup, List.mem_nil_iff, false_or]

theorem DbInv.leafIndex_eq {tree : AccountTree} (h : DbInv env m order tree.storage)
    (key : StorageKey) : tree.leafIndex (env.treeKeyOf key) =
      if env.treeKeyOf key ∈ order then some (order.idxOf (env.treeKeyOf key) + 1) else none := by
  rw [leafIndex, h.numbers _ ⟨key, rfl⟩]
  split_ifs <;> rfl

theorem DbInv.leafIndex_eq_some {tree : AccountTree} (h : DbInv env m order tree.storage)
    {key : StorageKey} {i : ℕ} : tree.leafIndex (env.treeKeyOf key) = some i ↔
      env.treeKeyOf key ∈ order ∧ i = order.idxOf (env.treeKeyOf key) + 1 := by
  rw [h.leafIndex_eq]
  split_ifs with hmem
  · rw [Option.some.injEq, eq_comm]
    exact (and_iff_right hmem).symm
  · simp [hmem]

/-- A leaf with a number keeps it in the map of the block, so its write is not a first write. -/
theorem leafIndexOf_known (hkeys : env.CanonicalKeys) {s : Storage} (hdb : DbInv env m order s)
    {logs : List WitnessStorageLog} {log : WitnessStorageLog} (hlog : log ∈ logs)
    (hknown : log.treeKey env ∈ order) :
    s.leafIndexOf (blockOps env logs) (log.treeKey env) = order.idxOf (log.treeKey env) + 1 := by
  have hscan := blockScan_inv hkeys hdb logs
  have hop : treeOperation env log ∈ blockOps env logs := List.mem_map.mpr ⟨log, hlog, rfl⟩
  have hlook := s.blockIndices_lookup hop
  obtain ⟨e, he, heq⟩ := List.mem_map.mp (KeyedMap.mem_of_lookup_ofList hlook)
  obtain ⟨hkey, hindex⟩ := Prod.mk.inj heq
  have hcanon : e.1.Canonical := by
    have hleaves := scanBlock_leaves s.db s.startScan (oneBlock (blockOps env logs))
    have hmem : e.1 ∈ (oneBlock (blockOps env logs)).map fun l => l.2.1 := by
      rw [← hleaves]
      exact List.mem_map.mpr ⟨e, he, rfl⟩
    rw [List.map_map] at hmem
    obtain ⟨op, hop', heq'⟩ := List.mem_map.mp hmem
    rw [← heq']
    exact blockOps_canonical hkeys logs op hop'
  have hkey' : e.1 = log.treeKey env := by
    rw [TreeKey.canonical_eq hcanon] at hkey
    rw [hkey]
    exact TreeKey.canonical_eq (hkeys _)
  have hknown' := hscan.known e he (by rwa [hkey'])
  rw [hkey'] at hknown'
  exact hindex.symm.trans hknown'

theorem SaveRun.leavesEnumerated (hout : env.hasher.TraceOutput) (hkeys : env.CanonicalKeys)
    (hsep : env.SeparateKeys) {blocks : List (List WitnessStorageLog)} {tree : AccountTree}
    (hrun : SaveRun env blocks tree) : LeavesEnumerated env blocks tree := by
  obtain ⟨m, hinv⟩ := hrun.savedInv hout hkeys hsep
  have hnodup := enumerate_nodup List.nodup_nil (writtenKeys env blocks)
  have hlen := length_enumerate_writtenKeys env blocks
  have hsome {key : StorageKey} {i : ℕ} : tree.leafIndex (env.treeKeyOf key) = some i ↔
      env.treeKeyOf key ∈ enumerate [] (writtenKeys env blocks) ∧
        i = (enumerate [] (writtenKeys env blocks)).idxOf (env.treeKeyOf key) + 1 :=
    hinv.db.leafIndex_eq_some
  have hhashed {leaf : TreeKey} (h : leaf ∈ enumerate [] (writtenKeys env blocks)) :
      ∃ key, leaf = env.treeKeyOf key := by
    rw [mem_enumerate, List.mem_nil_iff, false_or] at h
    obtain ⟨logs, -, hmem⟩ := List.mem_flatMap.mp h
    obtain ⟨op, hop, rfl⟩ := mem_writtenBy hmem
    exact blockOps_hashed hop
  constructor
  · intro key
    rw [hinv.db.leafIndex_eq]
    simp [mem_enumerate]
  · intro i
    constructor
    · rintro ⟨hpos, hle⟩
      have hi : i - 1 < (enumerate [] (writtenKeys env blocks)).length := by omega
      obtain ⟨key, hkey⟩ := hhashed (List.getElem_mem hi)
      refine ⟨key, hsome.mpr ⟨hkey ▸ List.getElem_mem hi, ?_⟩⟩
      rw [← hkey, hnodup.idxOf_getElem]
      omega
    · rintro ⟨key, hkey⟩
      obtain ⟨hmem, rfl⟩ := hsome.mp hkey
      have := List.idxOf_lt_length_of_mem hmem
      omega
  · intro key key' i h h'
    obtain ⟨hmem, rfl⟩ := hsome.mp h
    obtain ⟨hmem', heq⟩ := hsome.mp h'
    exact (List.idxOf_inj hmem).mp (Nat.succ.inj heq)
  · intro later tree' hrun' key i h
    obtain ⟨m', hinv'⟩ := hrun'.savedInv hout hkeys hsep
    obtain ⟨hmem, rfl⟩ := hsome.mp h
    have happend : writtenKeys env (blocks ++ later) =
        writtenKeys env blocks ++ writtenKeys env later := List.flatMap_append
    rw [happend, enumerate_append] at hinv'
    refine hinv'.db.leafIndex_eq_some.mpr ⟨mem_enumerate.mpr (.inl hmem), ?_⟩
    rw [idxOf_enumerate hmem]

theorem SavedInv.blockEnumerated (hkeys : env.CanonicalKeys) (sched : Schedule Row)
    {blocks : List (List WitnessStorageLog)} {tree saved : AccountTree}
    (h : SavedInv env m (enumerate [] (writtenKeys env blocks)) tree)
    {logs : List WitnessStorageLog} (hne : logs ≠ []) {m' : ℕ → TreeValue}
    (h' : SavedInv env m' (enumerate (enumerate [] (writtenKeys env blocks))
      (writtenBy (blockOps env logs))) saved) (witness : Option (StorageUpdateTrace Row)) :
    BlockEnumerated env sched blocks tree logs
      { blockReport env m (enumerate [] (writtenKeys env blocks)) (blockOps env logs) with witness }
      saved := by
  have hlen := length_enumerate_writtenKeys env blocks
  have hfresh : isFresh (V := TreeValue) (writtenKeys env blocks) =
      isFresh (enumerate [] (writtenKeys env blocks)) := by
    funext writes
    apply isFresh_congr
    simp [mem_enumerate]
  have hfirst : firstWrites (writtenKeys env blocks) (writesOf (blockOps env logs)) =
      firstWrites (enumerate [] (writtenKeys env blocks)) (writesOf (blockOps env logs)) := by
    rw [firstWrites, hfresh]
    rfl
  have hlater : laterWrites (writtenKeys env blocks) (writesOf (blockOps env logs)) =
      laterWrites (enumerate [] (writtenKeys env blocks)) (writesOf (blockOps env logs)) := by
    rw [laterWrites, hfresh]
    rfl
  -- every write of the block has its number in the saved database
  have hindex {w : TreeKey × TreeValue} (hw : w ∈ writesOf (blockOps env logs)) :
      saved.leafIndex w.1 = some ((enumerate (enumerate [] (writtenKeys env blocks))
        (writtenBy (blockOps env logs))).idxOf w.1 + 1) := by
    have hmem : w.1 ∈ writtenBy (blockOps env logs) := List.mem_map.mpr ⟨w, hw, rfl⟩
    obtain ⟨op, hop, hkey⟩ := mem_writtenBy hmem
    obtain ⟨key, hhash⟩ := blockOps_hashed hop
    rw [← hkey, hhash] at hmem ⊢
    exact h'.db.leafIndex_eq_some.mpr ⟨mem_enumerate.mpr (.inr hmem), rfl⟩
  constructor
  · rw [hfirst, ← hlen]
    rfl
  · rw [hfirst, ← hlen]
    intro e he
    rw [hindex (mem_of_mem_firstWrites (List.fst_mem_of_mem_zipIdx he))]
    exact congrArg some (idxOf_of_mem_zipIdx_firstWrites (enumerate_nodup List.nodup_nil _) he)
  · rw [hlater]
    simp only [blockReport, List.forall₂_map_right_iff, List.forall₂_same]
    intro w hw
    exact ⟨hindex (mem_of_mem_laterWrites hw), trivial⟩
  · rw [← length_enumerate_writtenKeys, writtenKeys_concat, enumerate_append]
    rfl
  · have hne' : blockOps env logs ≠ [] := by simpa using hne
    obtain ⟨branches, hrun, -⟩ := runBatch_eq sched h.db.nodes hne' (blockOps_canonical hkeys logs)
    rw [logsWithBlocks_single]
    refine ⟨_, hrun, by simp, ?_⟩
    intro i hi hknown md hmd
    have hi' : i < (blockOps env logs).length := by rwa [length_blockOps]
    rw [List.getElem?_map, List.getElem?_range hi'] at hmd
    obtain rfl := Option.some.inj hmd
    rw [WitnessStorageLog.treeKey, h.db.leafIndex_eq] at hknown
    have hmem : env.treeKeyOf logs[i].storageLog.key ∈ enumerate [] (writtenKeys env blocks) := by
      by_contra hnot
      rw [if_neg hnot] at hknown
      cases hknown
    have hkey : (ofLogs env.hasher (blockOps env logs)).key i = logs[i].treeKey env :=
      treeKey_eq hi
    have hlt : (enumerate [] (writtenKeys env blocks)).idxOf (logs[i].treeKey env) <
        (enumerate [] (writtenKeys env blocks)).length := List.idxOf_lt_length_of_mem hmem
    simp only [blockLogMetadata, metadataAt, hkey,
      leafIndexOf_known hkeys h.db (List.getElem_mem hi) hmem, h.db.current]
    rw [Bool.and_eq_false_iff, decide_eq_false_iff_not]
    right
    omega

/-- In every run from an empty database, the leaves written carry the indices from one on in the
order of their first write, and every further block can be processed and saved, with its first
and later writes reported under these indices. -/
theorem saveRun_enumerates (env : TreeEnv Row) (hout : env.hasher.TraceOutput)
    (hkeys : env.CanonicalKeys) (hsep : env.SeparateKeys) (blocks : List (List WitnessStorageLog))
    (tree : AccountTree) (hrun : SaveRun env blocks tree) :
    LeavesEnumerated env blocks tree ∧
    ∀ (sched : Schedule Row) (logs : List WitnessStorageLog), logs ≠ [] →
      ∃ metadata tree' saved, processBlock env sched tree logs = .ok (metadata, tree') ∧
        tree'.save true = .ok saved ∧ SaveRun env (blocks ++ [logs]) saved ∧
        BlockEnumerated env sched blocks tree logs metadata saved := by
  refine ⟨hrun.leavesEnumerated hout hkeys hsep, ?_⟩
  intro sched logs hne
  obtain ⟨m, hinv⟩ := hrun.savedInv hout hkeys hsep
  obtain ⟨witness, tree', hblock, hsave, hinv'⟩ := hinv.step hout hkeys hsep sched hne
  exact ⟨_, tree', tree'.saved, hblock, hsave, .block sched hrun hne hblock hsave,
    hinv.blockEnumerated hkeys sched hne hinv' _⟩

theorem saveRun_enumerates_sample : ∃ saved, SaveRun sampleEnv [sampleWitnessLogs] saved ∧
    LeavesEnumerated sampleEnv [sampleWitnessLogs] saved := by
  obtain ⟨-, hnext⟩ := saveRun_enumerates sampleEnv sampleEnv_traceOutput sampleEnv_canonicalKeys
    sampleEnv_separateKeys [] _ (.start (newWithDb_empty sampleEnv))
  obtain ⟨_, _, saved, -, -, hrun, -⟩ := hnext sampleSchedule sampleWitnessLogs (by decide)
  exact ⟨saved, hrun, (saveRun_enumerates sampleEnv sampleEnv_traceOutput sampleEnv_canonicalKeys
    sampleEnv_separateKeys _ _ hrun).1⟩

end AccountTree

end OlaOs
