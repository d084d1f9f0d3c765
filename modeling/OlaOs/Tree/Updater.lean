import OlaOs.Tree.ProofChain
import OlaOs.Tree.SavedTree

/-! The metadata calculator (`metadata_calculator/updater.rs`, `helpers.rs`): several batches are
processed before the tree is saved. -/
namespace OlaOs

open Enumerate BatchOps Storage AccountTree

variable {Row : Type}

def filterBlockLogs (logs : List WitnessStorageLog) : List WitnessStorageLog :=
  logs.filter fun log => log.storageLog.kind = .write

namespace AsyncTree

def processL1Batch (env : TreeEnv Row) (sched : Schedule Row) (tree : AccountTree)
    (storageLogs : List WitnessStorageLog) : Except Fault (TreeMetadata Row × AccountTree) :=
  processBlock env sched tree (filterBlockLogs storageLogs)

/-- `AsyncTree::save` drops the error of the tree's own `save`. -/
def save (tree : AccountTree) (written : Bool) : AccountTree :=
  match tree.save written with
  | .ok tree => tree
  | .error _ => tree

end AsyncTree

namespace TreeUpdater

/-- `TreeUpdater::process_l1_batch` takes the witness out of the metadata. -/
def processL1Batch (env : TreeEnv Row) (sched : Schedule Row) (tree : AccountTree)
    (storageLogs : List WitnessStorageLog) : Except Fault (TreeMetadata Row × AccountTree) := do
  let (metadata, tree) ← AsyncTree.processL1Batch env sched tree storageLogs
  return ({ metadata with witness := none }, tree)

/-- What a run of batches leaves behind: the metadata that it has stored, the database, and the tree
in memory, which a panic takes with it. -/
structure BatchRun (Row : Type) where
  stored : List (TreeMetadata Row)
  db : Db
  tree : Except Fault AccountTree

/-- A run in which the metadata of one more batch was stored first. -/
def BatchRun.after (metadata : TreeMetadata Row) (run : BatchRun Row) : BatchRun Row :=
  { run with stored := metadata :: run.stored }

/-- `process_multiple_batches` stores the metadata of each batch and saves the tree once, at the
end. It returns early, without a save, at a batch whose data is missing. -/
def processMultipleBatches (env : TreeEnv Row) : (ℕ → Schedule Row) → AccountTree →
    List (Option (List WitnessStorageLog)) → BatchRun Row
  | _, tree, [] => ⟨[], (AsyncTree.save tree true).storage.db, .ok (AsyncTree.save tree true)⟩
  | _, tree, none :: _ => ⟨[], tree.storage.db, .ok tree⟩
  | sched, tree, some storageLogs :: rest =>
    match processL1Batch env (sched 0) tree storageLogs with
    | .error fault => ⟨[], tree.storage.db, .error fault⟩
    | .ok (metadata, tree) =>
      (processMultipleBatches env (fun i => sched (i + 1)) tree rest).after metadata

/-- Every batch is saved before the next one, as for the genesis batch. -/
def processAndSaveEach (env : TreeEnv Row) : (ℕ → Schedule Row) → AccountTree →
    List (List WitnessStorageLog) → BatchRun Row
  | _, tree, [] => ⟨[], tree.storage.db, .ok tree⟩
  | sched, tree, storageLogs :: rest =>
    match processL1Batch env (sched 0) tree storageLogs with
    | .error fault => ⟨[], tree.storage.db, .error fault⟩
    | .ok (metadata, tree) => (processAndSaveEach env (fun i => sched (i + 1))
        (AsyncTree.save tree true) rest).after metadata

/-- What is seen of a run: the stored metadata, the contents of the database, and its panic, if it
ended with one. -/
def outcome (run : BatchRun Row) : List (TreeMetadata Row) × Db × Except Fault Unit :=
  (run.stored, run.db, run.tree.map fun _ => ())

/-- The tree operations of a batch. -/
abbrev batchOps (env : TreeEnv Row) (storageLogs : List WitnessStorageLog) :
    List (TreeKey × TreeOperation) :=
  blockOps env (filterBlockLogs storageLogs)

/-- The batches of an iteration do not depend on each other, seen from a saved tree over `m` with
the numbering `order`: all but the last write only to leaves that have a number, and the batches
before a batch leave behind the saved value of every leaf that it does not write. `current` is the
leaf map that the next batch starts from. -/
def Independent (env : TreeEnv Row) (m : ℕ → TreeValue) (order : List TreeKey) :
    (current : ℕ → TreeValue) → List (List (TreeKey × TreeOperation)) → Prop
  | _, [] => True
  | current, ops :: rest =>
    (rest ≠ [] → ∀ key ∈ writtenBy ops, key ∈ order) ∧
    (∀ k, k ∉ ops.map (fun op => treeKeyToU256 op.1) → current k = m k) ∧
    Independent env m order (leavesAfter env.hasher current ops ops.length) rest

/-- The hashes of the trees that the two ways of saving compare do not collide. -/
def NoCollisions (env : TreeEnv Row) (m : ℕ → TreeValue) :
    (current : ℕ → TreeValue) → List (List (TreeKey × TreeOperation)) → Prop
  | _, [] => True
  | current, ops :: rest =>
    SparseMerkle.NoCollision env.hasher.combine (leavesAfter env.hasher m ops ops.length)
      (leavesAfter env.hasher current ops ops.length) ∧
    NoCollisions env m (leavesAfter env.hasher current ops ops.length) rest

/-- The reports of batches that are saved one by one. -/
def reportsEach (env : TreeEnv Row) : (ℕ → TreeValue) → List TreeKey →
    List (List (TreeKey × TreeOperation)) → List (TreeMetadata Row)
  | _, _, [] => []
  | m, order, ops :: rest =>
    blockReport env m order ops :: reportsEach env (leavesAfter env.hasher m ops ops.length)
      (enumerate order (writtenBy ops)) rest

/-- Records laid over each other, the last on top. -/
def layOver (deltas : List (List UInt8 → Option DbValue)) (records : List UInt8 → Option DbValue) :
    List UInt8 → Option DbValue :=
  deltas.foldl (fun acc delta bytes => (delta bytes).or (acc bytes)) records

noncomputable def deltasEach (env : TreeEnv Row) : (ℕ → TreeValue) → List TreeKey →
    List (List (TreeKey × TreeOperation)) → List (List UInt8 → Option DbValue)
  | _, _, [] => []
  | m, order, ops :: rest =>
    blockDelta env m order ops :: deltasEach env (leavesAfter env.hasher m ops ops.length)
      (enumerate order (writtenBy ops)) rest

variable {env : TreeEnv Row} {m : ℕ → TreeValue} {order : List TreeKey}

/-- The panic of a batch without writes. -/
def noWrites : Fault := .panic "Storage log and tree metadata not match!"

theorem outcome_after (metadata : TreeMetadata Row) (run : BatchRun Row) :
    outcome (run.after metadata) = (metadata :: (outcome run).1, (outcome run).2) := rfl

/-- A batch without writes makes `process_block` panic. -/
theorem processL1Batch_nil (sched : Schedule Row) {tree : AccountTree}
    (hdb : DbInv env m order tree.storage) {storageLogs : List WitnessStorageLog}
    (hnil : filterBlockLogs storageLogs = []) :
    processL1Batch env sched tree storageLogs = .error noWrites := by
  simp only [processL1Batch, noWrites, AsyncTree.processL1Batch, hnil,
    processBlock_nil sched hdb.nodes, bind, Except.bind]

theorem processL1Batch_step (hout : env.hasher.TraceOutput) (hkeys : env.CanonicalKeys)
    (hsep : env.SeparateKeys) (sched : Schedule Row) {tree : AccountTree}
    (hdb : DbInv env m order tree.storage) {storageLogs : List WitnessStorageLog}
    (hne : filterBlockLogs storageLogs ≠ []) :
    ∃ tree', processL1Batch env sched tree storageLogs =
        .ok (blockReport env m order (batchOps env storageLogs), tree') ∧
      tree'.storage.db = tree.storage.db ∧
      tree'.storage.deletePendingPatch = tree.storage.deletePendingPatch ∧
      (∀ bytes, tree'.storage.putPendingPatch.lookup bytes =
        (blockDelta env m order (batchOps env storageLogs) bytes).or
          (tree.storage.putPendingPatch.lookup bytes)) ∧
      tree'.rootHash = referenceRoot env.hasher
        (leavesAfter env.hasher m (batchOps env storageLogs) (batchOps env storageLogs).length) ∧
      tree'.blockNumber = (tree.blockNumber + 1) % 2 ^ 32 := by
  obtain ⟨witness, tree', hblock, hrest⟩ := processBlock_step hout hkeys hsep sched hdb hne
  refine ⟨tree', ?_, hrest⟩
  simp only [processL1Batch, AsyncTree.processL1Batch, hblock, bind, Except.bind, pure, Except.pure]
  rfl

/-- All batches of an iteration are computed from the database before it. -/
theorem processMultipleBatches_ok (hout : env.hasher.TraceOutput) (hkeys : env.CanonicalKeys)
    (hsep : env.SeparateKeys) (sched : ℕ → Schedule Row) {tree : AccountTree}
    (hdb : DbInv env m order tree.storage) (hdel : tree.storage.deletePendingPatch = [])
    {batches : List (List WitnessStorageLog)}
    (hcounter : batches ≠ [] ∨ (∃ v, tree.storage.putPendingPatch.lookup leafIndexKey = some v) ∧
      tree.blockNumber < 2 ^ 32)
    (hne : ∀ batch ∈ batches, filterBlockLogs batch ≠ []) :
    outcome (processMultipleBatches env sched tree (batches.map some)) =
      (batches.map fun batch => blockReport env m order (batchOps env batch),
        { leafIndices := layOver (batches.map fun batch => blockDelta env m order
            (batchOps env batch)) fun bytes => (tree.storage.putPendingPatch.lookup bytes).or
              (tree.storage.db.leafIndices bytes)
          blockNumber := some ((tree.blockNumber + batches.length) % 2 ^ 32) }, .ok ()) := by
  induction batches generalizing tree sched with
  | nil =>
    obtain ⟨⟨v, hv⟩, hlt⟩ := hcounter.resolve_left fun h => h rfl
    simp only [List.map_nil, processMultipleBatches, AsyncTree.save, save_eq hv hdel, outcome,
      Except.map, layOver, List.foldl_nil, List.length_nil, Nat.add_zero, Nat.mod_eq_of_lt hlt]
    rfl
  | cons batch batches ih =>
    obtain ⟨tree', hstep, hdb', hdel', hpending, -, hnumber⟩ :=
      processL1Batch_step hout hkeys hsep (sched 0) hdb (hne batch (by simp))
    have hlook := hpending leafIndexKey
    rw [(blockDelta_spec hsep m order _).counter] at hlook
    have hrest := ih (fun i => sched (i + 1)) (hdb.of_db_eq hdb') (hdel'.trans hdel)
      (.inr ⟨⟨_, hlook⟩, hnumber ▸ Nat.mod_lt _ (by decide)⟩)
      (fun b hb => hne b (List.mem_cons_of_mem _ hb))
    have hrecords : (fun bytes => (tree'.storage.putPendingPatch.lookup bytes).or
        (tree'.storage.db.leafIndices bytes)) = fun bytes =>
          (blockDelta env m order (batchOps env batch) bytes).or
            ((tree.storage.putPendingPatch.lookup bytes).or
              (tree.storage.db.leafIndices bytes)) := by
      funext bytes
      rw [hpending bytes, hdb', Option.or_assoc]
    rw [hrecords, hnumber] at hrest
    simp only [List.map_cons, processMultipleBatches, hstep, outcome_after, hrest, layOver,
      List.foldl_cons, List.length_cons]
    congr 4
    rw [Nat.mod_add_mod, Nat.add_right_comm, Nat.add_assoc]

/-- Batches that are saved one by one are computed each from the tree after the one before. -/
theorem processAndSaveEach_ok (hout : env.hasher.TraceOutput) (hkeys : env.CanonicalKeys)
    (hsep : env.SeparateKeys) (sched : ℕ → Schedule Row) {tree : AccountTree}
    (h : SavedInv env m order tree) {batches : List (List WitnessStorageLog)}
    (hne : ∀ batch ∈ batches, filterBlockLogs batch ≠ []) :
    outcome (processAndSaveEach env sched tree batches) =
      (reportsEach env m order (batches.map (batchOps env)),
        { leafIndices := layOver (deltasEach env m order (batches.map (batchOps env)))
            tree.storage.db.leafIndices
          blockNumber := if batches = [] then tree.storage.db.blockNumber
            else some ((tree.blockNumber + batches.length) % 2 ^ 32) }, .ok ()) := by
  induction batches generalizing tree sched m order with
  | nil => rfl
  | cons batch batches ih =>
    obtain ⟨tree', hstep, hdb', hdel', hpending, hroot, hnumber⟩ :=
      processL1Batch_step hout hkeys hsep (sched 0) h.db (hne batch (by simp))
    obtain ⟨hsave, hrecords, hinv⟩ := h.save hsep hdb' hdel' hpending hroot
    have hrest := ih (fun i => sched (i + 1)) hinv (fun b hb => hne b (List.mem_cons_of_mem _ hb))
    simp only [processAndSaveEach, hstep, AsyncTree.save, hsave, outcome_after, hrest,
      List.map_cons, reportsEach, deltasEach, layOver, List.foldl_cons, List.length_cons,
      funext hrecords, reduceCtorEq, ↓reduceIte]
    have hlast : (if batches = [] then tree'.saved.storage.db.blockNumber
        else some ((tree'.saved.blockNumber + batches.length) % 2 ^ 32)) =
          some ((tree.blockNumber + (batches.length + 1)) % 2 ^ 32) := by
      split_ifs with hnil
      · rw [hnil]
        exact congrArg some hnumber
      · have hnumber' : tree'.saved.blockNumber = (tree.blockNumber + 1) % 2 ^ 32 := hnumber
        rw [hnumber', Nat.mod_add_mod, Nat.add_right_comm, Nat.add_assoc]
    rw [hlast]

/-- A panic before the save leaves the database as it was. -/
theorem processMultipleBatches_panic (hout : env.hasher.TraceOutput) (hkeys : env.CanonicalKeys)
    (hsep : env.SeparateKeys) (sched : ℕ → Schedule Row) {tree : AccountTree}
    (hdb : DbInv env m order tree.storage) {batches : List (List WitnessStorageLog)}
    (hnil : ∃ batch ∈ batches, filterBlockLogs batch = []) :
    ∃ stored, outcome (processMultipleBatches env sched tree (batches.map some)) =
      (stored, tree.storage.db, .error noWrites) := by
  induction batches generalizing tree sched with
  | nil => simp at hnil
  | cons batch batches ih =>
    by_cases hbatch : filterBlockLogs batch = []
    · exact ⟨[], by simp [processMultipleBatches, processL1Batch_nil _ hdb hbatch, outcome,
        Except.map]⟩
    · obtain ⟨tree', hstep, hdb', -⟩ := processL1Batch_step hout hkeys hsep (sched 0) hdb hbatch
      obtain ⟨stored, hrest⟩ :=
        ih (fun i => sched (i + 1)) (hdb.of_db_eq hdb') (by simpa [hbatch] using hnil)
      refine ⟨blockReport env m order (batchOps env batch) :: stored, ?_⟩
      simp only [List.map_cons, processMultipleBatches, hstep, outcome_after, hrest, hdb']

/-- The batches before the one that panics are in the database, with their number. -/
theorem processAndSaveEach_panic (hout : env.hasher.TraceOutput) (hkeys : env.CanonicalKeys)
    (hsep : env.SeparateKeys) (sched : ℕ → Schedule Row) {tree : AccountTree}
    (h : SavedInv env m order tree) {batch : List WitnessStorageLog}
    {batches : List (List WitnessStorageLog)} (hwrites : filterBlockLogs batch ≠ [])
    (hnil : ∃ batch ∈ batches, filterBlockLogs batch = []) :
    ∃ saved, 0 < saved ∧ saved ≤ batches.length ∧
      (outcome (processAndSaveEach env sched tree (batch :: batches))).2.1.blockNumber =
        some ((tree.blockNumber + saved) % 2 ^ 32) := by
  obtain ⟨tree', hstep, hdb', hdel', hpending, hroot, hnumber⟩ :=
    processL1Batch_step hout hkeys hsep (sched 0) h.db hwrites
  obtain ⟨hsave, -, hinv⟩ := h.save hsep hdb' hdel' hpending hroot
  have hnumber' : tree'.saved.blockNumber = (tree.blockNumber + 1) % 2 ^ 32 := hnumber
  induction batches generalizing tree batch sched m order tree' with
  | nil => simp at hnil
  | cons next batches ih =>
    simp only [processAndSaveEach, hstep, AsyncTree.save, hsave, outcome_after]
    by_cases hnext : filterBlockLogs next = []
    · refine ⟨1, Nat.one_pos, by simp, ?_⟩
      simp only [processL1Batch_nil _ hinv.db hnext, outcome]
      exact congrArg some hnumber
    · obtain ⟨next', hstep', hdb'', hdel'', hpending', hroot', hnumber''⟩ :=
        processL1Batch_step hout hkeys hsep (sched 1) hinv.db hnext
      obtain ⟨hsave', -, hinv'⟩ := hinv.save hsep hdb'' hdel'' hpending' hroot'
      obtain ⟨saved, hpos, hle, hsaved⟩ := ih (fun i => sched (i + 1)) hinv hnext
        (by simpa [hnext] using hnil) next' hstep' hdb'' hdel'' hpending' hroot' hnumber'' hsave'
        hinv' hnumber''
      refine ⟨saved + 1, Nat.succ_pos _, Nat.succ_le_succ hle, ?_⟩
      rw [hnumber', Nat.mod_add_mod, Nat.add_right_comm, Nat.add_assoc] at hsaved
      simp only [processAndSaveEach, AsyncTree.save] at hsaved
      exact hsaved

theorem leavesAfter_eq_iff (hasher : Hasher Row) {m m' : ℕ → TreeValue}
    {ops : List (TreeKey × TreeOperation)} :
    leavesAfter hasher m ops ops.length = leavesAfter hasher m' ops ops.length ↔
      ∀ k, k ∉ ops.map (fun op => treeKeyToU256 op.1) → m k = m' k := by
  have hlen : ops.length = (leafAssignments hasher ops).length := by
    rw [leafAssignments, List.length_map]
  have hkeys : (leafAssignments hasher ops).map Prod.fst =
      ops.map fun op => treeKeyToU256 op.1 := by
    rw [leafAssignments, List.map_map]
    rfl
  rw [leavesAfter, leavesAfter, hlen, SparseMerkle.after_eq_iff, hkeys]

theorem leavesAfter_of_notMem {hasher : Hasher Row} {m : ℕ → TreeValue}
    {ops : List (TreeKey × TreeOperation)} {k : ℕ}
    (hk : k ∉ ops.map (fun op => treeKeyToU256 op.1)) :
    leavesAfter hasher m ops ops.length k = m k := by
  have hlen : ops.length = (leafAssignments hasher ops).length := by
    rw [leafAssignments, List.length_map]
  rw [leavesAfter, hlen]
  apply SparseMerkle.after_of_notMem
  rw [leafAssignments, List.map_map]
  exact hk

/-- Equal reports for a batch, from two numberings one of which extends the other, give equal
numberings. -/
theorem order_eq_of_report {m m' : ℕ → TreeValue} {order order' : List TreeKey}
    (hext : order <+: order') {ops : List (TreeKey × TreeOperation)}
    (h : blockReport env m order ops = blockReport env m' order' ops) : order' = order := by
  have hinitial := congrArg (fun r => r.initialWrites.length) h
  have hlast := congrArg TreeMetadata.rollupLastLeafIndex h
  simp only [blockReport, List.length_map, List.length_zipIdx] at hinitial hlast
  simp only [writtenBy, enumerate_eq_append, List.length_append, List.length_map] at hlast
  exact (hext.eq_of_length (by omega)).symm

/-- The batches but the last of an iteration whose reports are right write known leaves. -/
theorem known_of_reports {m' : ℕ → TreeValue} {ops : List (TreeKey × TreeOperation)}
    {rest : List (List (TreeKey × TreeOperation))} (hrest : rest ≠ [])
    (h : (rest.map fun ops => blockReport env m order ops) =
      reportsEach env m' (enumerate order (writtenBy ops)) rest) :
    enumerate order (writtenBy ops) = order := by
  obtain ⟨next, rest, rfl⟩ := List.exists_cons_of_ne_nil hrest
  rw [List.map_cons, reportsEach] at h
  exact order_eq_of_report (prefix_enumerate _ _) (List.cons.inj h).1

theorem independent_of_reports {current : ℕ → TreeValue}
    {batches : List (List (TreeKey × TreeOperation))}
    (hcollision : NoCollisions env m current batches)
    (hfar : ∀ k, 2 ^ rootTreeDepth ≤ k → current k = m k)
    (h : (batches.map fun ops => blockReport env m order ops) =
      reportsEach env current order batches) : Independent env m order current batches := by
  induction batches generalizing current with
  | nil => trivial
  | cons ops rest ih =>
    rw [List.map_cons, reportsEach] at h
    obtain ⟨hhead, htail⟩ := List.cons.inj h
    have hroot : referenceRoot env.hasher (leavesAfter env.hasher m ops ops.length) =
        referenceRoot env.hasher (leavesAfter env.hasher current ops ops.length) :=
      congrArg TreeMetadata.rootHash hhead
    have hleaf (k : ℕ) (hk : k < 2 ^ rootTreeDepth) :=
      hcollision.1.leaf_eq hroot k (Nat.div_eq_of_lt hk)
    have hkeys (k : ℕ) (hk : k ∉ ops.map (fun op => treeKeyToU256 op.1)) : current k = m k := by
      by_cases hlt : k < 2 ^ rootTreeDepth
      · have hleaf := hleaf k hlt
        rwa [leavesAfter_of_notMem hk, leavesAfter_of_notMem hk, eq_comm] at hleaf
      · exact hfar k (Nat.not_lt.mp hlt)
    have hsame := (leavesAfter_eq_iff env.hasher).mpr hkeys
    refine ⟨fun hrest => enumerate_eq_self_iff.mp (known_of_reports hrest htail), hkeys, ?_⟩
    by_cases hrest : rest = []
    · rw [hrest]
      trivial
    · rw [known_of_reports hrest htail] at htail
      refine ih hcollision.2 ?_ htail
      intro k hk
      rw [hsame]
      apply leavesAfter_of_notMem
      intro hmem
      obtain ⟨op, -, rfl⟩ := List.mem_map.mp hmem
      have := treeKeyToU256_lt op.1
      rw [rootTreeDepth_eq] at hk
      omega

/-- Independent batches give the same reports and the same records both ways. -/
theorem Independent.agree {current : ℕ → TreeValue}
    {batches : List (List (TreeKey × TreeOperation))}
    (h : Independent env m order current batches) :
    (batches.map fun ops => blockReport env m order ops) = reportsEach env current order batches ∧
    (batches.map fun ops => blockDelta env m order ops) = deltasEach env current order batches := by
  induction batches generalizing current with
  | nil => exact ⟨rfl, rfl⟩
  | cons ops rest ih =>
    obtain ⟨hknown, hkeys, hrest⟩ := h
    have hsame := (leavesAfter_eq_iff env.hasher).mpr hkeys
    have hreport : blockReport env m order ops = blockReport env current order ops := by
      rw [blockReport, blockReport, hsame]
    have hdelta : blockDelta env m order ops = blockDelta env current order ops := by
      funext bytes
      simp only [blockDelta, hsame]
    rw [List.map_cons, List.map_cons, reportsEach, deltasEach, hreport, hdelta]
    by_cases hnil : rest = []
    · subst hnil
      exact ⟨rfl, rfl⟩
    · rw [enumerate_eq_self_iff.mpr (hknown hnil)]
      exact ⟨congrArg _ (ih hrest).1, congrArg _ (ih hrest).2⟩

/-- The two ways of saving, when every batch has a write. -/
theorem outcome_eq_iff_of_writes (hout : env.hasher.TraceOutput) (hkeys : env.CanonicalKeys)
    (hsep : env.SeparateKeys) (sched sched' : ℕ → Schedule Row) {tree : AccountTree}
    (h : SavedInv env m order tree) {batches : List (List WitnessStorageLog)} (hne : batches ≠ [])
    (hwrites : ∀ batch ∈ batches, filterBlockLogs batch ≠ []) :
    outcome (processMultipleBatches env sched tree (batches.map some)) =
        outcome (processAndSaveEach env sched' tree batches) ↔
      ((batches.map (batchOps env)).map fun ops => blockReport env m order ops) =
          reportsEach env m order (batches.map (batchOps env)) ∧
      layOver ((batches.map (batchOps env)).map fun ops => blockDelta env m order ops)
          tree.storage.db.leafIndices =
        layOver (deltasEach env m order (batches.map (batchOps env)))
          tree.storage.db.leafIndices := by
  have hrecords : (fun bytes => (tree.storage.putPendingPatch.lookup bytes).or
      (tree.storage.db.leafIndices bytes)) = tree.storage.db.leafIndices := by
    funext bytes
    cases hold : tree.storage.putPendingPatch.lookup bytes with
    | none => rfl
    | some value => rw [h.pending bytes value hold, Option.some_or]
  rw [processMultipleBatches_ok hout hkeys hsep sched h.db h.deletes (.inl hne) hwrites,
    processAndSaveEach_ok hout hkeys hsep sched' h hwrites, hrecords, if_neg hne]
  simp only [Prod.mk.injEq, Db.mk.injEq, and_true, List.map_map, Function.comp_def]

/-- A panic over a batch that is not the first: only the batches that are saved one by one are in
the database. -/
theorem outcome_ne_of_panic (hout : env.hasher.TraceOutput) (hkeys : env.CanonicalKeys)
    (hsep : env.SeparateKeys) (sched sched' : ℕ → Schedule Row) {tree : AccountTree}
    (h : SavedInv env m order tree)
    (hnumber : tree.storage.db.blockNumber.getD 0 = tree.blockNumber)
    {batch : List WitnessStorageLog} {batches : List (List WitnessStorageLog)}
    (hlength : batches.length < 2 ^ 32) (hwrites : filterBlockLogs batch ≠ [])
    (hnil : ∃ batch ∈ batches, filterBlockLogs batch = []) :
    outcome (processMultipleBatches env sched tree ((batch :: batches).map some)) ≠
      outcome (processAndSaveEach env sched' tree (batch :: batches)) := by
  intro heq
  have hnil' : ∃ b ∈ batch :: batches, filterBlockLogs b = [] := by
    obtain ⟨b, hb, hempty⟩ := hnil
    exact ⟨b, List.mem_cons_of_mem _ hb, hempty⟩
  obtain ⟨stored, hmultiple⟩ :=
    processMultipleBatches_panic hout hkeys hsep sched h.db hnil'
  obtain ⟨saved, hpos, hle, heach⟩ :=
    processAndSaveEach_panic hout hkeys hsep sched' h hwrites hnil
  rw [← heq, hmultiple] at heach
  rw [heach, Option.getD_some] at hnumber
  omega

/-- One save at the end of an iteration leaves behind what a save after every batch leaves behind
exactly when the first batch has no write, which makes both panic at once, or when all batches have
writes and do not depend on each other. -/
theorem processMultipleBatches_saveFrequency (env : TreeEnv Row) (hout : env.hasher.TraceOutput)
    (hkeys : env.CanonicalKeys) (hsep : env.SeparateKeys) (sched sched' : ℕ → Schedule Row)
    (m : ℕ → TreeValue) (order : List TreeKey) (tree : AccountTree)
    (h : SavedInv env m order tree)
    (hnumber : tree.storage.db.blockNumber.getD 0 = tree.blockNumber)
    (batches : List (List WitnessStorageLog)) (hne : batches ≠ [])
    (hlength : batches.length ≤ 2 ^ 32)
    (hcollision : NoCollisions env m m (batches.map (batchOps env))) :
    outcome (processMultipleBatches env sched tree (batches.map some)) =
        outcome (processAndSaveEach env sched' tree batches) ↔
      (∃ batch, batches.head? = some batch ∧ filterBlockLogs batch = []) ∨
        (∀ batch ∈ batches, filterBlockLogs batch ≠ []) ∧
          Independent env m order m (batches.map (batchOps env)) := by
  obtain ⟨first, rest, rfl⟩ := List.exists_cons_of_ne_nil hne
  simp only [List.head?_cons, Option.some.injEq, exists_eq_left']
  by_cases hfirst : filterBlockLogs first = []
  · refine iff_of_true ?_ (.inl hfirst)
    simp only [List.map_cons, processMultipleBatches, processAndSaveEach,
      processL1Batch_nil _ h.db hfirst, outcome]
  · rw [or_iff_right hfirst]
    by_cases hnil : ∃ batch ∈ rest, filterBlockLogs batch = []
    · refine iff_of_false (outcome_ne_of_panic hout hkeys hsep sched sched' h hnumber
        (Nat.lt_of_succ_le hlength) hfirst hnil) fun ⟨hwrites, _⟩ => ?_
      obtain ⟨batch, hbatch, hempty⟩ := hnil
      exact hwrites batch (List.mem_cons_of_mem _ hbatch) hempty
    · have hwrites : ∀ batch ∈ first :: rest, filterBlockLogs batch ≠ [] := by
        intro batch hbatch hempty
        rcases List.mem_cons.mp hbatch with rfl | hbatch
        · exact hfirst hempty
        · exact hnil ⟨batch, hbatch, hempty⟩
      rw [outcome_eq_iff_of_writes hout hkeys hsep sched sched' h hne hwrites,
        and_iff_right hwrites]
      constructor
      · rintro ⟨hreports, -⟩
        exact independent_of_reports hcollision (fun _ _ => rfl) hreports
      · intro hind
        obtain ⟨hreports, hdeltas⟩ := hind.agree
        rw [hdeltas]
        exact ⟨hreports, rfl⟩

/-- A batch that writes one slot of the zero address. -/
def sampleBatch (slot value : U256) : List WitnessStorageLog :=
  [⟨⟨.write, ⟨.zero, u256ToH256 slot⟩, u256ToH256 value⟩, .zero⟩]

theorem sampleBatch_keys (slot value value' : U256) :
    ((batchOps sampleEnv (sampleBatch slot value)).map fun op => treeKeyToU256 op.1) =
      (batchOps sampleEnv (sampleBatch slot value')).map fun op => treeKeyToU256 op.1 := by
  simp [sampleBatch, filterBlockLogs, treeOperation]

theorem sampleTree_saved : SavedInv sampleEnv (fun _ => treeKeyDefault) [] sampleTree where
  db := dbInv_empty sampleEnv
  root := sampleTree_consistent.root
  pending _ _ h := by cases h
  deletes := rfl

/-- Two batches that write different new slots: the second one is numbered as if the first had
not been processed. -/
theorem processMultipleBatches_saveFrequency_counterexample :
    SavedInv sampleEnv (fun _ => treeKeyDefault) [] sampleTree ∧
    sampleTree.storage.db.blockNumber.getD 0 = sampleTree.blockNumber ∧
    outcome (processMultipleBatches sampleEnv (fun _ => sampleSchedule) sampleTree
        ([sampleBatch 1 7, sampleBatch 2 8].map some)) ≠
      outcome (processAndSaveEach sampleEnv (fun _ => sampleSchedule) sampleTree
        [sampleBatch 1 7, sampleBatch 2 8]) := by
  refine ⟨sampleTree_saved, rfl, fun heq => ?_⟩
  obtain ⟨hreports, -⟩ := (outcome_eq_iff_of_writes sampleEnv_traceOutput sampleEnv_canonicalKeys
    sampleEnv_separateKeys _ _ sampleTree_saved (by simp) (by decide)).mp heq
  rw [List.map_cons, List.map_cons, reportsEach] at hreports
  have hknown := known_of_reports (by simp) (List.cons.inj hreports).2
  exact absurd (enumerate_eq_self_iff.mp hknown _ (List.mem_cons_self)) (List.not_mem_nil)

/-- Two batches that write a slot which an earlier, saved batch has written. -/
theorem processMultipleBatches_saveFrequency_sample : ∃ m order tree,
    SavedInv sampleEnv m order tree ∧
    outcome (processMultipleBatches sampleEnv (fun _ => sampleSchedule) tree
        ([sampleBatch 1 8, sampleBatch 1 9].map some)) =
      outcome (processAndSaveEach sampleEnv (fun _ => sampleSchedule) tree
        [sampleBatch 1 8, sampleBatch 1 9]) := by
  obtain ⟨tree', -, hdb, hdel, hpending, hroot, -⟩ := processL1Batch_step sampleEnv_traceOutput
    sampleEnv_canonicalKeys sampleEnv_separateKeys sampleSchedule sampleTree_saved.db
    (by decide : filterBlockLogs (sampleBatch 1 7) ≠ [])
  obtain ⟨-, -, hinv⟩ := sampleTree_saved.save sampleEnv_separateKeys hdb hdel hpending hroot
  have hkeys (k : ℕ) (m : ℕ → TreeValue) (hk : k ∉ (batchOps sampleEnv (sampleBatch 1 9)).map
      fun op => treeKeyToU256 op.1) : leavesAfter sampleEnv.hasher m
        (batchOps sampleEnv (sampleBatch 1 8)) (batchOps sampleEnv (sampleBatch 1 8)).length k =
          m k := leavesAfter_of_notMem (sampleBatch_keys 1 9 8 ▸ hk)
  refine ⟨_, _, _, hinv, (processMultipleBatches_saveFrequency sampleEnv sampleEnv_traceOutput
    sampleEnv_canonicalKeys sampleEnv_separateKeys _ _ _ _ _ hinv rfl _ (by simp) (by decide)
    ?_).mpr (.inr ⟨by decide, ?_⟩)⟩
  · refine ⟨SparseMerkle.NoCollision.refl _ _, ?_, trivial⟩
    rw [(leavesAfter_eq_iff _).mpr fun k hk => (hkeys k _ hk).symm]
    exact SparseMerkle.NoCollision.refl _ _
  · refine ⟨fun _ key hkey => ?_, fun _ _ => rfl, fun h => absurd rfl h, fun k hk => hkeys k _ hk,
      trivial⟩
    exact mem_enumerate.mpr (.inr hkey)

end TreeUpdater

end OlaOs
