import OlaOs.Tree.OneBlock

/-! A batched update is the same as updating the leaves one by one. -/
namespace OlaOs

variable {Row : Type}

/-- The leaves that the operations of a block set, in their order: a write sets the written
value, a read the value it carries. -/
def leafAssignments (hasher : Hasher Row) (logs : List (TreeKey × TreeOperation)) :
    List (ℕ × TreeValue) :=
  logs.map fun log => (treeKeyToU256 log.1, log.2.leafHash hasher)

/-- The leaf map after the first `t` operations. -/
def leavesAfter (hasher : Hasher Row) (m : ℕ → TreeValue) (logs : List (TreeKey × TreeOperation))
    (t : ℕ) : ℕ → TreeValue :=
  SparseMerkle.after m (leafAssignments hasher logs) t

/-- The node of height `h` above leaf `k` in the reference tree. -/
def referenceNode (hasher : Hasher Row) (leaves : ℕ → TreeValue) (h k : ℕ) : ZkHash :=
  SparseMerkle.node hasher.combine leaves h (k / 2 ^ h)

def referenceRoot (hasher : Hasher Row) (leaves : ℕ → TreeValue) : ZkHash :=
  SparseMerkle.node hasher.combine leaves rootTreeDepth 0

/-- The neighbours on the path of leaf `k` in the reference tree, from the leaf up. -/
def referenceSiblings (hasher : Hasher Row) (leaves : ℕ → TreeValue) (k : ℕ) : List ZkHash :=
  (List.range rootTreeDepth).map fun h =>
    SparseMerkle.node hasher.combine leaves h (SparseMerkle.sibling (k / 2 ^ h))

theorem ofLogs_node (hasher : Hasher Row) (m : ℕ → TreeValue)
    (logs : List (TreeKey × TreeOperation)) (t h q : ℕ) :
    (BatchOps.ofLogs hasher logs).node hasher m t h q =
      SparseMerkle.node hasher.combine (leavesAfter hasher m logs t) h q := by
  rw [BatchOps.node, BatchOps.ofLogs_assigns]
  rfl

/-- What the values computed for a block have to do with the reference tree. -/
structure AppliesSequentially (env : TreeEnv Row) (nodes : LevelIndex → Option DbValue)
    (m : ℕ → TreeValue) (logs : List (TreeKey × TreeOperation))
    (run : AccountTree.BatchRun Row) : Prop where
  patch_length : run.patch.length = logs.length
  /-- Entry `i` is the path of operation `i` in the tree right after it. -/
  patch_entry : ∀ i (hi : i < logs.length), ∃ entries, run.patch[i]? = some entries ∧
    entries.length = rootTreeDepth + 1 ∧ ∀ h ≤ rootTreeDepth, ∃ e, entries[h]? = some e ∧
      treeKeyToU256 e.1 = treeKeyToU256 logs[i].1 / 2 ^ h ∧
      e.2.hash = referenceNode env.hasher (leavesAfter env.hasher m logs (i + 1)) h
        (treeKeyToU256 logs[i].1)
  metadata_length : run.patchMetadata.length = logs.length
  metadata : ∀ i (hi : i < logs.length), ∃ md, run.patchMetadata[i]? = some md ∧
    md.leafHashedKey = logs[i].1 ∧
    md.rootHash = referenceRoot env.hasher (leavesAfter env.hasher m logs (i + 1)) ∧
    md.merklePaths = referenceSiblings env.hasher (leavesAfter env.hasher m logs (i + 1))
      (treeKeyToU256 logs[i].1)
  consistent : NodesConsistent env.hasher
    (fun lvlIdx => ((run.branches.lookup lvlIdx).map .hash).or (nodes lvlIdx))
    (leavesAfter env.hasher m logs logs.length)

namespace AccountTree

open BatchOps Storage

variable {env : TreeEnv Row} {m : ℕ → TreeValue}

theorem logsWithBlocks_single (logs : List (TreeKey × TreeOperation)) :
    logsWithBlocks [logs] = oneBlock logs := by
  simp [logsWithBlocks, oneBlock]

/-- The metadata of a block whose logs all have number zero. -/
theorem mapM_blockMetadata (Row : Type) (indices : LeafIndices) {n : ℕ} (hn : n ≠ 0)
    (metadata : ℕ → StorageLogMetadata) (log : ℕ → TreeKey × TreeOperation) :
    ((((List.range n).map metadata).zip ((List.range n).map fun t => (0, log t))).splitBy
      fun a b => a.2.1 == b.2.1).mapM
        (blockMetadata [indices] : _ → Except Fault (TreeMetadata Row)) =
      .ok [{ rootHash := (metadata (n - 1)).rootHash
             rollupLastLeafIndex := indices.lastIndex
             initialWrites := indices.initialWrites
             repeatedWrites := indices.repeatedWrites
             witness := none }] := by
  obtain ⟨n, rfl⟩ := Nat.exists_eq_succ_of_ne_zero hn
  rw [Seq.zip_map_range, List.splitBy_of_isChain (by simp)]
  · simp [blockMetadata, List.range_succ, bind, Except.bind, pure, Except.pure]
  · apply List.Pairwise.isChain
    rw [List.pairwise_map]
    exact List.pairwise_of_forall (by simp)

/-- The metadata of a block. -/
def oneBlockMetadata (env : TreeEnv Row) (m : ℕ → TreeValue) (s : Storage)
    (logs : List (TreeKey × TreeOperation)) : TreeMetadata Row where
  rootHash := referenceRoot env.hasher (leavesAfter env.hasher m logs logs.length)
  rollupLastLeafIndex := (s.blockIndices logs).lastIndex
  initialWrites := (s.blockIndices logs).initialWrites
  repeatedWrites := (s.blockIndices logs).repeatedWrites
  witness := none

theorem applyUpdatesBatch_ok {sched : Schedule Row} {tree : AccountTree} {run : BatchRun Row}
    {updatesBatch : List (List (TreeKey × TreeOperation))} {logs : List BlockLog}
    {last : StorageLogMetadata} {treeMetadata : List (TreeMetadata Row)}
    (hlogs : logsWithBlocks updatesBatch = logs) (hrun : runBatch env sched tree logs = .ok run)
    (hlast : run.patchMetadata.getLast? = some last)
    (hmeta : ((run.patchMetadata.zip logs).splitBy fun a b => a.2.1 == b.2.1).mapM
      (blockMetadata run.leafIndices) = .ok treeMetadata) :
    applyUpdatesBatch env sched tree updatesBatch = .ok ((run.hashTrace, treeMetadata),
      ⟨run.storage, last.rootHash, (tree.blockNumber + updatesBatch.length) % 2 ^ 32⟩) := by
  simp only [applyUpdatesBatch, hlogs, hrun, hlast, hmeta, bind, Except.bind, pure, Except.pure,
    Option.map_some, Option.getD_some]

theorem applyUpdatesBatch_eq (sched : Schedule Row) {tree : AccountTree}
    (hc : NodesConsistent env.hasher (tree.storage.db.nodes env) m)
    {logs : List (TreeKey × TreeOperation)} (hne : logs ≠ [])
    (hcanon : ∀ log ∈ logs, log.1.Canonical) :
    ∃ run, runBatch env sched tree (oneBlock logs) = .ok run ∧
      run.storage = (tree.storage.indexed logs).preSave env run.branches ∧
      (ofLogs env.hasher logs).BranchesAt env.hasher m logs.length run.branches ∧
      run.patch = (List.range logs.length).map
        ((ofLogs env.hasher logs).changesAt env.hasher m rootTreeDepth) ∧
      run.patchMetadata = (List.range logs.length).map
        (blockLogMetadata env m tree.storage logs) ∧
      applyUpdatesBatch env sched tree [logs] =
        .ok ((blockTraces env m logs, [oneBlockMetadata env m tree.storage logs]),
          ⟨run.storage, referenceRoot env.hasher (leavesAfter env.hasher m logs logs.length),
            (tree.blockNumber + 1) % 2 ^ 32⟩) := by
  obtain ⟨branches, hrun, hbranches⟩ := runBatch_eq sched hc hne hcanon
  refine ⟨_, hrun, rfl, hbranches, rfl, rfl, ?_⟩
  have hn : logs.length ≠ 0 := by simpa using hne
  have hroot : (blockLogMetadata env m tree.storage logs (logs.length - 1)).rootHash =
      referenceRoot env.hasher (leavesAfter env.hasher m logs logs.length) := by
    rw [blockLogMetadata, metadataAt, ofLogs_node, Nat.sub_add_cancel (by omega)]
    rfl
  have hlast : ((List.range logs.length).map
      (blockLogMetadata env m tree.storage logs)).getLast? =
      some (blockLogMetadata env m tree.storage logs (logs.length - 1)) := by
    obtain ⟨n, hn⟩ := Nat.exists_eq_succ_of_ne_zero hn
    rw [hn, List.range_succ]
    simp
  have hmeta := mapM_blockMetadata Row (tree.storage.blockIndices logs) hn
    (blockLogMetadata env m tree.storage logs)
    (fun t => ((ofLogs env.hasher logs).key t, operationAt logs t))
  have hlogs : oneBlock logs = (List.range logs.length).map fun t =>
      (0, ((ofLogs env.hasher logs).key t, operationAt logs t)) := oneBlock_eq_range env.hasher logs
  rw [hroot, ← hlogs] at hmeta
  refine (applyUpdatesBatch_ok (logsWithBlocks_single logs) hrun hlast hmeta).trans ?_
  rw [hroot]
  rfl

/-- For every database that holds the tree over a leaf map and every block of operations, the
batch is applied as if its operations were applied one at a time. -/
theorem applyUpdatesBatch_sequential (env : TreeEnv Row) (sched : Schedule Row)
    (tree : AccountTree) (m : ℕ → TreeValue)
    (hc : NodesConsistent env.hasher (tree.storage.db.nodes env) m)
    (logs : List (TreeKey × TreeOperation)) (hne : logs ≠ [])
    (hcanon : ∀ log ∈ logs, log.1.Canonical) :
    ∃ run traces metadata rootHash blockNumber,
      runBatch env sched tree (logsWithBlocks [logs]) = .ok run ∧
      applyUpdatesBatch env sched tree [logs] =
        .ok ((traces, metadata), ⟨run.storage, rootHash, blockNumber⟩) ∧
      run.storage = (tree.storage.processLeafIndices (logsWithBlocks [logs])).1.preSave env
        run.branches ∧
      AppliesSequentially env (tree.storage.db.nodes env) m logs run := by
  obtain ⟨run, hrun, hstorage, hbranches, hpatch, hmetadata, happly⟩ :=
    applyUpdatesBatch_eq sched hc hne hcanon
  refine ⟨run, _, _, _, _, logsWithBlocks_single logs ▸ hrun, happly, ?_, ?_, ?_, ?_, ?_, ?_⟩
  · rw [logsWithBlocks_single, processLeafIndices_oneBlock _ hne, hstorage]
  · rw [hpatch]
    simp
  · intro i hi
    have hi' : i < (ofLogs env.hasher logs).count := hi
    refine ⟨(ofLogs env.hasher logs).changesAt env.hasher m rootTreeDepth i, ?_, ?_, ?_⟩
    · rw [hpatch, List.getElem?_map, List.getElem?_range hi, Option.map_some]
    · rw [changesAt_eq_map, List.length_map, List.length_range]
    · intro h hh
      refine ⟨(ofLogs env.hasher logs).changeAt env.hasher m i h, ?_, ?_, ?_⟩
      · rw [changesAt_eq_map, List.getElem?_map, List.getElem?_range (by omega), Option.map_some]
      · rw [changeAt_key, idx, ofLogs_key _ hi]
      · rw [changeAt_hash hi', ofLogs_node, referenceNode, idx, ofLogs_key _ hi]
  · rw [hmetadata]
    simp
  · intro i hi
    refine ⟨blockLogMetadata env m tree.storage logs i, ?_, ofLogs_key env.hasher hi,
      ?_, ?_⟩
    · rw [hmetadata, List.getElem?_map, List.getElem?_range hi, Option.map_some]
    · rw [blockLogMetadata, metadataAt, ofLogs_node]
      rfl
    · simp only [blockLogMetadata, metadataAt, siblingsOf, referenceSiblings, ofLogs_node, idx,
        ofLogs_key _ hi]
  · have hnodes := hbranches.consistent hc
    rwa [ofLogs_assigns] at hnodes

/-- A small instance of the external interfaces: limbs are added crosswise, keys are written in
fixed width, and the byte hash keeps the last four bytes. -/
def sampleEnv : TreeEnv ZkHash where
  hasher :=
    { compress := fun left right _ =>
        let hash : ZkHash := ⟨left.w0.add right.w3, left.w1.add right.w0, left.w2.add right.w1,
          left.w3.add right.w2⟩
        (hash, hash)
      output := id }
  binKey lvlIdx := Bytes.toBE 2 lvlIdx.1 ++ Bytes.toBE 33 lvlIdx.2
  poseidonHashBytes bytes :=
    u256ToH256 ⟨Bytes.ofBE bytes % 2 ^ 32, (Nat.mod_lt _ (by decide)).trans (by decide)⟩

def sampleSchedule : Schedule ZkHash := ⟨fun _ => List.reverse, fun _ => List.reverse_perm⟩

/-- The tree over an empty database. -/
def sampleTree : AccountTree := ⟨.new .empty, treeKeyDefault, 0⟩

/-- A write, a read of another key, and a second write to the first key. -/
def sampleLogs : List (TreeKey × TreeOperation) :=
  [(⟨⟨0⟩, ⟨0⟩, ⟨0⟩, ⟨5⟩⟩, .write ⟨⟨1⟩, ⟨2⟩, ⟨3⟩, ⟨4⟩⟩ treeKeyDefault),
    (⟨⟨7⟩, ⟨0⟩, ⟨0⟩, ⟨4⟩⟩, .read treeKeyDefault),
    (⟨⟨0⟩, ⟨0⟩, ⟨0⟩, ⟨5⟩⟩, .write ⟨⟨9⟩, ⟨9⟩, ⟨9⟩, ⟨9⟩⟩ ⟨⟨1⟩, ⟨2⟩, ⟨3⟩, ⟨4⟩⟩)]

theorem applyUpdatesBatch_sequential_sample : ∃ run,
    runBatch sampleEnv sampleSchedule sampleTree (logsWithBlocks [sampleLogs]) = .ok run ∧
    AppliesSequentially sampleEnv (sampleTree.storage.db.nodes sampleEnv) (fun _ => treeKeyDefault)
      sampleLogs run := by
  obtain ⟨run, _, _, _, _, hrun, -, -, happlies⟩ :=
    applyUpdatesBatch_sequential sampleEnv sampleSchedule sampleTree (fun _ => treeKeyDefault)
      (nodesConsistent_empty sampleEnv) sampleLogs (by decide) (by decide)
  exact ⟨run, hrun, happlies⟩

end AccountTree

end OlaOs
