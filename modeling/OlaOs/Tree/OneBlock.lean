import OlaOs.Tree.ApplyPatch

/-! One block of logs through `apply_updates_batch`. -/
namespace OlaOs

variable {Row : Type}

namespace Storage

/-- The logs of a single block, as `process_leaf_indices` takes them. -/
abbrev oneBlock (logs : List (TreeKey × TreeOperation)) : List BlockLog := logs.map (Prod.mk 0)

/-- The scan of a single block. -/
def blockScan (s : Storage) (logs : List (TreeKey × TreeOperation)) :
    LeafScan × List (TreeKey × ℕ) :=
  scanBlock s.db s.startScan (oneBlock logs)

def blockIndices (s : Storage) (logs : List (TreeKey × TreeOperation)) : LeafIndices :=
  LeafScan.leafIndices s.currentIndex (s.blockScan logs)

/-- The index that the block's map holds for a key. -/
def leafIndexOf (s : Storage) (logs : List (TreeKey × TreeOperation)) (key : TreeKey) : ℕ :=
  ((s.blockIndices logs).leafIndices.lookup key.canonical).getD 0

/-- The storage after `process_leaf_indices`. -/
def indexed (s : Storage) (logs : List (TreeKey × TreeOperation)) : Storage :=
  { s with
    putPendingPatch := (s.blockScan logs).1.putBatch.insert leafIndexKey
      (.index (s.blockScan logs).1.currentIndex)
    deletePendingPatch := (s.blockScan logs).1.deleteBatch }

theorem splitBy_oneBlock {logs : List (TreeKey × TreeOperation)} (hne : logs ≠ []) :
    (oneBlock logs).splitBy (fun a b => a.1 == b.1) = [oneBlock logs] := by
  apply List.splitBy_of_isChain (by simpa using hne)
  apply List.Pairwise.isChain
  rw [List.pairwise_map]
  exact List.pairwise_of_forall (by simp)

theorem processLeafIndices_oneBlock (s : Storage) {logs : List (TreeKey × TreeOperation)}
    (hne : logs ≠ []) :
    s.processLeafIndices (oneBlock logs) = (s.indexed logs, [s.blockIndices logs]) := by
  rw [processLeafIndices, splitBy_oneBlock hne]
  rfl

theorem processLeafIndices_nil (s : Storage) :
    s.processLeafIndices (oneBlock []) = (s.indexed [], []) := rfl

theorem scanBlock_leaves (db : Db) (scan : LeafScan) (logs : List BlockLog) :
    (scanBlock db scan logs).2.map Prod.fst = logs.map fun log => log.2.1 := by
  induction logs generalizing scan with
  | nil => rfl
  | cons log logs ih =>
    obtain ⟨block, leaf, operation⟩ := log
    rw [scanBlock, List.map_cons, ih, List.map_cons]

/-- Every key of the block is found in its map. -/
theorem blockIndices_lookup (s : Storage) {logs : List (TreeKey × TreeOperation)}
    {log : TreeKey × TreeOperation} (hlog : log ∈ logs) :
    (s.blockIndices logs).leafIndices.lookup log.1.canonical = some (s.leafIndexOf logs log.1) := by
  have hmem : log.1.canonical ∈ ((s.blockScan logs).2.map fun e =>
      (e.1.canonical, e.2)).map Prod.fst := by
    have hleaves := scanBlock_leaves s.db s.startScan (oneBlock logs)
    rw [List.map_map]
    have : ((s.blockScan logs).2.map (Prod.fst ∘ fun e => (e.1.canonical, e.2))) =
        ((s.blockScan logs).2.map Prod.fst).map TreeKey.canonical := by
      rw [List.map_map]
      rfl
    rw [this, blockScan, hleaves, List.map_map, List.map_map]
    exact List.mem_map.mpr ⟨log, hlog, rfl⟩
  obtain ⟨index, -, hlook⟩ := KeyedMap.lookup_ofList_isSome hmem
  rw [leafIndexOf, blockIndices, LeafScan.leafIndices, hlook]
  rfl

end Storage

namespace AccountTree

open BatchOps Storage

variable {env : TreeEnv Row} {m : ℕ → TreeValue}

/-- The operation of log `t`. -/
def operationAt (logs : List (TreeKey × TreeOperation)) (t : ℕ) : TreeOperation :=
  (logs[t]?.map Prod.snd).getD .delete

theorem oneBlock_eq_range (hasher : Hasher Row) (logs : List (TreeKey × TreeOperation)) :
    oneBlock logs = (List.range (ofLogs hasher logs).count).map fun t =>
      (0, ((ofLogs hasher logs).key t, operationAt logs t)) := by
  apply List.ext_getElem
  · simp [ofLogs]
  · intro t h₁ h₂
    have ht : t < logs.length := by simpa using h₁
    simp [ofLogs_key _ ht, operationAt, ht]

/-- The metadata of the logs of one block. -/
def blockLogMetadata (env : TreeEnv Row) (m : ℕ → TreeValue) (s : Storage)
    (logs : List (TreeKey × TreeOperation)) (t : ℕ) : StorageLogMetadata :=
  metadataAt env.hasher m (ofLogs env.hasher logs) (operationAt logs)
    (fun _ => s.currentIndex)
    (fun t => s.leafIndexOf logs ((ofLogs env.hasher logs).key t)) t

/-- The trace rows of all logs, those of one log together and from the leaf up. -/
def blockTraces (env : TreeEnv Row) (m : ℕ → TreeValue) (logs : List (TreeKey × TreeOperation)) :
    List (HashTrace Row) :=
  (List.range logs.length).flatMap fun i => (List.range rootTreeDepth).map fun level =>
    (ofLogs env.hasher logs).traceAt env.hasher m level i

theorem prepareBatchUpdate_eq (storage : Storage) {logs : List (TreeKey × TreeOperation)}
    (hc : NodesConsistent env.hasher (storage.db.nodes env) m)
    (hcanon : ∀ log ∈ logs, log.1.Canonical) (indexedLogs : List (TreeKey × TreeOperation × ℕ))
    (hlogs : indexedLogs.map (fun log => (log.1, log.2.1)) = logs) :
    ∃ batch, prepareBatchUpdate env storage indexedLogs = .ok batch ∧
      batch.updates.Groups ((ofLogs env.hasher logs).idx 0) (List.range logs.length)
        ((ofLogs env.hasher logs).updateAt env.hasher m true 0) ∧
      batch.preUpdates.Groups ((ofLogs env.hasher logs).idx 0) (List.range logs.length)
        ((ofLogs env.hasher logs).updateAt env.hasher m false 0) := by
  obtain ⟨preMap, hpre, hpreGroups⟩ := updateMap_groups hc false hlogs hcanon
  obtain ⟨map, hmap, hgroups⟩ := updateMap_groups hc true hlogs hcanon
  refine ⟨⟨map, preMap⟩, ?_, hgroups, hpreGroups⟩
  simp only [prepareBatchUpdate, hpre, hmap, bind, Except.bind, pure, Except.pure]

theorem runBatch_ok {sched : Schedule Row} {tree : AccountTree} {logs : List BlockLog}
    {storage : Storage} {leafIndices : List LeafIndices}
    {indexedLogs : List (TreeKey × TreeOperation × ℕ)} {batch : UpdatesBatch} {size : ℕ}
    {patch : TreePatch} {rows : List (ℕ × HashTrace Row)} {hashTrace : List (HashTrace Row)}
    {branches : KeyedMap LevelIndex TreeKey} {patchMetadata : List StorageLogMetadata}
    (hleaf : tree.storage.processLeafIndices logs = (storage, leafIndices))
    (hindexed : logs.mapM (withLeafIndex leafIndices) = .ok indexedLogs)
    (hprep : prepareBatchUpdate env storage indexedLogs = .ok batch)
    (hsize : (batch.updates.toList.map fun update => update.2.length).sum = size)
    (hcalc : batch.calculate env.hasher sched = .ok (patch, rows))
    (htrace : groupTraces size rows = .ok hashTrace)
    (happly : applyPatch patch logs leafIndices = .ok (branches, patchMetadata)) :
    runBatch env sched tree logs =
      .ok ⟨leafIndices, patch, hashTrace, branches, patchMetadata,
        storage.preSave env branches⟩ := by
  simp only [runBatch, hleaf, hindexed, hprep, hsize, hcalc, htrace, happly, bind, Except.bind,
    pure, Except.pure]

theorem mapM_withLeafIndex (s : Storage) (logs : List (TreeKey × TreeOperation)) :
    (oneBlock logs).mapM (withLeafIndex [s.blockIndices logs]) =
      .ok (logs.map fun log => (log.1, log.2, s.leafIndexOf logs log.1)) := by
  rw [List.mapM_map]
  apply Seq.mapM_eq_ok
  intro log hlog
  have hlook := s.blockIndices_lookup hlog
  simp [withLeafIndex, hlook, bind, Except.bind, pure, Except.pure]

/-- All that `apply_updates_batch` computes for a block, from the tree over `m`. -/
theorem runBatch_eq (sched : Schedule Row) {tree : AccountTree}
    (hc : NodesConsistent env.hasher (tree.storage.db.nodes env) m)
    {logs : List (TreeKey × TreeOperation)} (hne : logs ≠ [])
    (hcanon : ∀ log ∈ logs, log.1.Canonical) :
    ∃ branches, runBatch env sched tree (oneBlock logs) = .ok {
        leafIndices := [tree.storage.blockIndices logs]
        patch := (List.range logs.length).map
          ((ofLogs env.hasher logs).changesAt env.hasher m rootTreeDepth)
        hashTrace := blockTraces env m logs
        branches
        patchMetadata := (List.range logs.length).map (blockLogMetadata env m tree.storage logs)
        storage := (tree.storage.indexed logs).preSave env branches } ∧
      (ofLogs env.hasher logs).BranchesAt env.hasher m logs.length branches := by
  obtain ⟨batch, hprep, hupdates, hpaths⟩ := prepareBatchUpdate_eq (tree.storage.indexed logs) hc
    hcanon (logs.map fun log => (log.1, log.2, tree.storage.leafIndexOf logs log.1))
    (by rw [List.map_map]; exact List.map_id _)
  obtain ⟨rows, hcalc, htrace⟩ := calculate_eq sched hupdates hpaths
  obtain ⟨branches, happly, hbranches⟩ := applyPatch_eq env.hasher m
    (ofLogs env.hasher logs) [tree.storage.blockIndices logs] (fun _ => 0) (operationAt logs)
    (fun _ => tree.storage.blockIndices logs)
    (fun t => tree.storage.leafIndexOf logs ((ofLogs env.hasher logs).key t))
    (fun _ _ => rfl) (by
      intro t ht
      rw [ofLogs_key _ ht]
      exact tree.storage.blockIndices_lookup (List.getElem_mem ht))
  rw [← oneBlock_eq_range] at happly
  exact ⟨branches, runBatch_ok (processLeafIndices_oneBlock _ hne) (mapM_withLeafIndex _ _) hprep
    (sum_lengths hupdates) hcalc (groupTraces_eq htrace) happly, hbranches⟩

end AccountTree

end OlaOs
