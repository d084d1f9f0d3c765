import OlaOs.Tree.Updater

/-! Iterations of one batch each, in which the write of a save may fail: the next batch is then
computed from the database without the batches before it. -/
namespace OlaOs

open Enumerate BatchOps Storage AccountTree

variable {Row : Type}

namespace TreeUpdater

/-- An iteration of one batch; `written` is the outcome of the write in its save. -/
def processIteration (env : TreeEnv Row) (sched : Schedule Row) (tree : AccountTree)
    (storageLogs : List WitnessStorageLog) (written : Bool) :
    Except Fault (TreeMetadata Row × AccountTree) := do
  let (metadata, tree) ← processL1Batch env sched tree storageLogs
  return (metadata, AsyncTree.save tree written)

/-- The metadata that a sequence of iterations stores, until one of them panics. -/
def storedMetadata (env : TreeEnv Row) : (ℕ → Schedule Row) → AccountTree →
    List (List WitnessStorageLog × Bool) → List (TreeMetadata Row)
  | _, _, [] => []
  | sched, tree, (storageLogs, written) :: rest =>
    match processIteration env (sched 0) tree storageLogs written with
    | .error _ => []
    | .ok (metadata, tree) => metadata :: storedMetadata env (fun i => sched (i + 1)) tree rest

theorem processMultipleBatches_singleton (env : TreeEnv Row) (sched : ℕ → Schedule Row)
    (tree : AccountTree) (storageLogs : List WitnessStorageLog) :
    (processMultipleBatches env sched tree [some storageLogs]).stored =
        storedMetadata env sched tree [(storageLogs, true)] ∧
      (processMultipleBatches env sched tree [some storageLogs]).tree =
        (processIteration env (sched 0) tree storageLogs true).map Prod.snd := by
  simp only [processMultipleBatches, storedMetadata, processIteration]
  cases processL1Batch env (sched 0) tree storageLogs with
  | error e => exact ⟨rfl, rfl⟩
  | ok result => exact ⟨rfl, rfl⟩

/-- The same batches with writes that all succeed. -/
def allWritten (batches : List (List WitnessStorageLog × Bool)) :
    List (List WitnessStorageLog × Bool) :=
  batches.map fun batch => (batch.1, true)

/-- The failed writes do no harm: while batches are not saved, they have given no leaf its first
number, and the next batch writes every leaf that they changed. `m` and `order` are the leaf map and
the numbering in the database, `current` and `currentOrder` those after all batches so far. An empty
batch stops the updater. -/
def Harmless (env : TreeEnv Row) : (m : ℕ → TreeValue) → (order : List TreeKey) →
    (current : ℕ → TreeValue) → (currentOrder : List TreeKey) →
    List (List (TreeKey × TreeOperation) × Bool) → Prop
  | _, _, _, _, [] => True
  | m, order, current, currentOrder, (ops, written) :: rest =>
    ops = [] ∨ (currentOrder = order ∧
      (∀ k, k ∉ ops.map (fun op => treeKeyToU256 op.1) → current k = m k) ∧
      let next := leavesAfter env.hasher current ops ops.length
      let nextOrder := enumerate currentOrder (writtenBy ops)
      if written then Harmless env next nextOrder next nextOrder rest
      else Harmless env m order next nextOrder rest)

/-- The hashes of the trees that the two runs compare do not collide. -/
def NoCollisionsAlong (env : TreeEnv Row) : (m current : ℕ → TreeValue) →
    List (List (TreeKey × TreeOperation) × Bool) → Prop
  | _, _, [] => True
  | m, current, (ops, written) :: rest =>
    let next := leavesAfter env.hasher current ops ops.length
    SparseMerkle.NoCollision env.hasher.combine (leavesAfter env.hasher m ops ops.length) next ∧
    NoCollisionsAlong env (if written then next else m) next rest

variable {env : TreeEnv Row} {m current : ℕ → TreeValue} {order currentOrder : List TreeKey}

/-- A tree with unsaved batches beside the tree in which they are saved: the pending records make
the difference between the two databases. -/
structure Unsaved (env : TreeEnv Row) (m : ℕ → TreeValue) (order : List TreeKey)
    (current : ℕ → TreeValue) (currentOrder : List TreeKey) (tree reference : AccountTree) :
    Prop where
  db : DbInv env m order tree.storage
  deletes : tree.storage.deletePendingPatch = []
  saved : SavedInv env current currentOrder reference
  records : ∀ bytes, (tree.storage.putPendingPatch.lookup bytes).or
    (tree.storage.db.leafIndices bytes) = reference.storage.db.leafIndices bytes
  number : tree.blockNumber = reference.blockNumber
  numbering : order <+: currentOrder
  far : ∀ k, 2 ^ rootTreeDepth ≤ k → current k = m k

theorem SavedInv.unsaved {tree : AccountTree} (h : SavedInv env m order tree) :
    Unsaved env m order m order tree tree where
  db := h.db
  deletes := h.deletes
  saved := h
  records bytes := by
    cases hold : tree.storage.putPendingPatch.lookup bytes with
    | none => rfl
    | some value => rw [h.pending bytes value hold, Option.some_or]
  number := rfl
  numbering := List.prefix_rfl
  far _ _ := rfl

theorem leavesAfter_far (hasher : Hasher Row) (m : ℕ → TreeValue)
    (ops : List (TreeKey × TreeOperation)) {k : ℕ} (hk : 2 ^ rootTreeDepth ≤ k) :
    leavesAfter hasher m ops ops.length k = m k := by
  apply leavesAfter_of_notMem
  intro hmem
  obtain ⟨op, -, rfl⟩ := List.mem_map.mp hmem
  have := treeKeyToU256_lt op.1
  rw [rootTreeDepth_eq] at hk
  omega

/-- What processing `ops` leaves of a tree over `m` and `order`, before its save. -/
structure Processed (env : TreeEnv Row) (m : ℕ → TreeValue) (order : List TreeKey)
    (ops : List (TreeKey × TreeOperation)) (tree tree' : AccountTree) : Prop where
  db : tree'.storage.db = tree.storage.db
  deletes : tree'.storage.deletePendingPatch = tree.storage.deletePendingPatch
  pending : ∀ bytes, tree'.storage.putPendingPatch.lookup bytes =
    (blockDelta env m order ops bytes).or (tree.storage.putPendingPatch.lookup bytes)
  root : tree'.rootHash = referenceRoot env.hasher (leavesAfter env.hasher m ops ops.length)
  number : tree'.blockNumber = (tree.blockNumber + 1) % 2 ^ 32

/-- A batch that both trees process with the same records. -/
theorem Unsaved.step (hsep : env.SeparateKeys) {tree reference tree' reference' : AccountTree}
    (h : Unsaved env m order current currentOrder tree reference)
    {ops : List (TreeKey × TreeOperation)} (horder : currentOrder = order)
    (hkeys : ∀ k, k ∉ ops.map (fun op => treeKeyToU256 op.1) → current k = m k)
    (hstep : Processed env m order ops tree tree')
    (hstep' : Processed env current currentOrder ops reference reference') :
    Unsaved env m order (leavesAfter env.hasher current ops ops.length)
      (enumerate currentOrder (writtenBy ops)) tree' reference'.saved := by
  obtain ⟨-, hrecords, hsaved⟩ := h.saved.save hsep hstep'.db hstep'.deletes hstep'.pending
    hstep'.root
  have hdelta : blockDelta env m order ops = blockDelta env current currentOrder ops := by
    subst horder
    funext bytes
    simp only [blockDelta, (leavesAfter_eq_iff env.hasher).mpr hkeys]
  constructor
  · exact h.db.of_db_eq hstep.db
  · exact hstep.deletes.trans h.deletes
  · exact hsaved
  · intro bytes
    rw [hstep.pending, hstep.db, Option.or_assoc, h.records, hrecords, hdelta]
  · exact hstep.number.trans ((congrArg (fun n => (n + 1) % 2 ^ 32) h.number).trans
      hstep'.number.symm)
  · exact h.numbering.trans (prefix_enumerate _ _)
  · intro k hk
    rw [leavesAfter_far env.hasher current ops hk, h.far k hk]

/-- A write that succeeds saves all pending records. -/
theorem Unsaved.save {tree reference : AccountTree}
    (h : Unsaved env m order current currentOrder tree reference.saved) {value : DbValue}
    (hcounter : tree.storage.putPendingPatch.lookup leafIndexKey = some value) :
    AsyncTree.save tree true = tree.saved ∧
      Unsaved env current currentOrder current currentOrder tree.saved reference.saved := by
  have hindices : tree.saved.storage.db.leafIndices = reference.saved.storage.db.leafIndices :=
    funext h.records
  have hdb : tree.saved.storage.db = reference.saved.storage.db := by
    have hnumber : tree.saved.storage.db.blockNumber = reference.saved.storage.db.blockNumber :=
      congrArg some h.number
    generalize tree.saved.storage.db = db at hindices hnumber ⊢
    cases db
    cases hindices
    cases hnumber
    rfl
  constructor
  · unfold AsyncTree.save
    rw [save_eq hcounter h.deletes]
  · refine ⟨h.saved.db.of_db_eq hdb, h.deletes, h.saved, fun bytes => ?_, h.number,
      List.prefix_rfl, fun _ _ => rfl⟩
    rw [← hindices, saved_leafIndices, ← Option.or_assoc]
    have hsame : (tree.saved.storage.putPendingPatch.lookup bytes).or
        (tree.storage.putPendingPatch.lookup bytes) = tree.storage.putPendingPatch.lookup bytes :=
      Option.or_self
    rw [hsame]

/-- A write that fails leaves the tree as it is. -/
theorem asyncSave_false (tree : AccountTree) : AsyncTree.save tree false = tree := by
  have herror : ∃ e, tree.save false = .error e := by
    unfold AccountTree.save Storage.save
    simp only [Bool.false_eq_true, if_false]
    split_ifs
    · exact ⟨_, rfl⟩
    · exact ⟨_, rfl⟩
  obtain ⟨e, herror⟩ := herror
  unfold AsyncTree.save
  rw [herror]

theorem processIteration_nil (sched : Schedule Row) {tree : AccountTree}
    (hdb : DbInv env m order tree.storage) {storageLogs : List WitnessStorageLog}
    (hnil : filterBlockLogs storageLogs = []) (written : Bool) :
    processIteration env sched tree storageLogs written = .error noWrites := by
  simp only [processIteration, processL1Batch_nil sched hdb hnil, bind, Except.bind]

theorem processIteration_step (hout : env.hasher.TraceOutput) (hkeys : env.CanonicalKeys)
    (hsep : env.SeparateKeys) (sched : Schedule Row) {tree : AccountTree}
    (hdb : DbInv env m order tree.storage) {storageLogs : List WitnessStorageLog}
    (hne : filterBlockLogs storageLogs ≠ []) (written : Bool) :
    ∃ tree', processIteration env sched tree storageLogs written =
        .ok (blockReport env m order (batchOps env storageLogs), AsyncTree.save tree' written) ∧
      Processed env m order (batchOps env storageLogs) tree tree' := by
  obtain ⟨tree', hstep, hdb', hdel, hpending, hroot, hnumber⟩ :=
    processL1Batch_step hout hkeys hsep sched hdb hne
  refine ⟨tree', ?_, hdb', hdel, hpending, hroot, hnumber⟩
  simp only [processIteration, hstep, bind, Except.bind, pure, Except.pure]

theorem storedMetadata_cons (sched : ℕ → Schedule Row) {tree tree' : AccountTree}
    {storageLogs : List WitnessStorageLog} {written : Bool} {metadata : TreeMetadata Row}
    (h : processIteration env (sched 0) tree storageLogs written = .ok (metadata, tree'))
    (rest : List (List WitnessStorageLog × Bool)) :
    storedMetadata env sched tree ((storageLogs, written) :: rest) =
      metadata :: storedMetadata env (fun i => sched (i + 1)) tree' rest := by
  rw [storedMetadata, h]

/-- Reports of one batch from the database and from the tree in which all batches are saved. -/
theorem Unsaved.report_eq_iff {tree reference : AccountTree}
    (h : Unsaved env m order current currentOrder tree reference)
    {ops : List (TreeKey × TreeOperation)}
    (hcollision : SparseMerkle.NoCollision env.hasher.combine
      (leavesAfter env.hasher m ops ops.length) (leavesAfter env.hasher current ops ops.length)) :
    blockReport env m order ops = blockReport env current currentOrder ops ↔
      currentOrder = order ∧
        ∀ k, k ∉ ops.map (fun op => treeKeyToU256 op.1) → current k = m k := by
  constructor
  · intro hreport
    refine ⟨order_eq_of_report h.numbering hreport, fun k hk => ?_⟩
    by_cases hlt : k < 2 ^ rootTreeDepth
    · have hleaf := hcollision.leaf_eq (congrArg TreeMetadata.rootHash hreport) k
        (Nat.div_eq_of_lt hlt)
      rwa [leavesAfter_of_notMem hk, leavesAfter_of_notMem hk, eq_comm] at hleaf
    · exact h.far k (Nat.not_lt.mp hlt)
  · rintro ⟨rfl, hkeys⟩
    rw [blockReport, blockReport, (leavesAfter_eq_iff env.hasher).mpr hkeys]

/-- The two runs from a tree with unsaved batches on. -/
theorem Unsaved.stored_iff (hout : env.hasher.TraceOutput) (hkeys : env.CanonicalKeys)
    (hsep : env.SeparateKeys) {batches : List (List WitnessStorageLog × Bool)}
    (sched sched' : ℕ → Schedule Row) {tree reference : AccountTree}
    (h : Unsaved env m order current currentOrder tree reference)
    (hcollision : NoCollisionsAlong env m current
      (batches.map fun batch => (batchOps env batch.1, batch.2))) :
    storedMetadata env sched tree batches <+:
        storedMetadata env sched' reference (allWritten batches) ↔
      Harmless env m order current currentOrder
        (batches.map fun batch => (batchOps env batch.1, batch.2)) := by
  induction batches generalizing m order current currentOrder tree reference sched sched' with
  | nil => exact ⟨fun _ => trivial, fun _ => List.nil_prefix⟩
  | cons batch batches ih =>
    obtain ⟨storageLogs, written⟩ := batch
    by_cases hnil : filterBlockLogs storageLogs = []
    · have hops : batchOps env storageLogs = [] := by
        rw [← List.length_eq_zero_iff, length_blockOps, hnil]
        rfl
      simp only [storedMetadata, processIteration_nil _ h.db hnil, List.map_cons, hops]
      exact ⟨fun _ => .inl rfl, fun _ => List.nil_prefix⟩
    · have hops : batchOps env storageLogs ≠ [] := by
        rw [← List.length_pos_iff, length_blockOps, List.length_pos_iff]
        exact hnil
      obtain ⟨tree', hrun, hstep⟩ :=
        processIteration_step hout hkeys hsep (sched 0) h.db hnil written
      obtain ⟨reference', hrun', hstep'⟩ :=
        processIteration_step hout hkeys hsep (sched' 0) h.saved.db hnil true
      have hcons : allWritten ((storageLogs, written) :: batches) =
        (storageLogs, true) :: allWritten batches := rfl
      rw [hcons, storedMetadata_cons sched hrun, storedMetadata_cons sched' hrun',
        List.cons_prefix_cons]
      simp only [List.map_cons, Harmless, hops, false_or, h.report_eq_iff hcollision.1, and_assoc]
      refine and_congr_right fun horder => and_congr_right fun hsame => ?_
      have hnext := h.step hsep horder hsame hstep hstep'
      have hsaved : AsyncTree.save reference' true = reference'.saved := by
        unfold AsyncTree.save
        rw [(h.saved.save hsep hstep'.db hstep'.deletes hstep'.pending hstep'.root).1]
      rw [hsaved]
      cases written with
      | false =>
        rw [asyncSave_false]
        exact ih _ _ hnext hcollision.2
      | true =>
        have hcounter := hstep.pending leafIndexKey
        rw [(blockDelta_spec hsep m order _).counter, Option.some_or] at hcounter
        obtain ⟨hsave, hnext⟩ := hnext.save hcounter
        rw [hsave]
        exact ih _ _ hnext hcollision.2

/-- The metadata stored in a run in which writes fail are those of the run in which all writes
succeed exactly when the failed writes do no harm. -/
theorem storedMetadata_prefix_iff (env : TreeEnv Row) (hout : env.hasher.TraceOutput)
    (hkeys : env.CanonicalKeys) (hsep : env.SeparateKeys) (sched sched' : ℕ → Schedule Row)
    (m : ℕ → TreeValue) (order : List TreeKey) (tree : AccountTree)
    (h : SavedInv env m order tree) (batches : List (List WitnessStorageLog × Bool))
    (hcollision : NoCollisionsAlong env m m
      (batches.map fun batch => (batchOps env batch.1, batch.2))) :
    storedMetadata env sched tree batches <+:
        storedMetadata env sched' tree (allWritten batches) ↔
      Harmless env m order m order
        (batches.map fun batch => (batchOps env batch.1, batch.2)) :=
  (SavedInv.unsaved h).stored_iff hout hkeys hsep sched sched' hcollision

/-- A batch that gives a leaf its first number and is not saved spoils the next one. -/
theorem not_prefix_of_new (hout : env.hasher.TraceOutput) (hkeys : env.CanonicalKeys)
    (hsep : env.SeparateKeys) (sched sched' : ℕ → Schedule Row) {tree : AccountTree}
    (h : SavedInv env m order tree) {batch next : List WitnessStorageLog}
    (hbatch : filterBlockLogs batch ≠ []) (hnext : filterBlockLogs next ≠ []) {key : TreeKey}
    (hwritten : key ∈ writtenBy (batchOps env batch)) (hnew : key ∉ order)
    (rest : List (List WitnessStorageLog × Bool)) :
    ¬ storedMetadata env sched tree ((batch, false) :: (next, true) :: rest) <+:
      storedMetadata env sched' tree (allWritten ((batch, false) :: (next, true) :: rest)) := by
  intro hprefix
  have hunsaved := SavedInv.unsaved h
  obtain ⟨tree₁, hrun₁, hstep₁⟩ :=
    processIteration_step hout hkeys hsep (sched 0) h.db hbatch false
  obtain ⟨tree₁', hrun₁', hstep₁'⟩ :=
    processIteration_step hout hkeys hsep (sched' 0) h.db hbatch true
  have hafter := hunsaved.step hsep rfl (fun _ _ => rfl) hstep₁ hstep₁'
  obtain ⟨hsave, -⟩ := h.save hsep hstep₁'.db hstep₁'.deletes hstep₁'.pending hstep₁'.root
  have hsave' : AsyncTree.save tree₁' true = tree₁'.saved := by
    unfold AsyncTree.save
    rw [hsave]
  rw [asyncSave_false] at hrun₁
  rw [hsave'] at hrun₁'
  obtain ⟨tree₂, hrun₂, -⟩ := processIteration_step hout hkeys hsep (sched 1) hafter.db hnext true
  obtain ⟨tree₂', hrun₂', -⟩ :=
    processIteration_step hout hkeys hsep (sched' 1) hafter.saved.db hnext true
  have hcons : allWritten ((batch, false) :: (next, true) :: rest) =
    (batch, true) :: (next, true) :: allWritten rest := rfl
  rw [hcons, storedMetadata_cons sched hrun₁, storedMetadata_cons sched' hrun₁',
    List.cons_prefix_cons, storedMetadata_cons (fun i => sched (i + 1)) hrun₂,
    storedMetadata_cons (fun i => sched' (i + 1)) hrun₂', List.cons_prefix_cons] at hprefix
  have horder := order_eq_of_report (prefix_enumerate _ _) hprefix.2.1
  exact hnew (enumerate_eq_self_iff.mp horder key hwritten)

/-- The first of two batches that write different new slots is not saved: the second one is
numbered, and hashed, as if the first had not been processed. -/
theorem storedMetadata_prefix_counterexample :
    SavedInv sampleEnv (fun _ => treeKeyDefault) [] sampleTree ∧
    ¬ storedMetadata sampleEnv (fun _ => sampleSchedule) sampleTree
        [(sampleBatch 1 7, false), (sampleBatch 2 8, true)] <+:
      storedMetadata sampleEnv (fun _ => sampleSchedule) sampleTree
        (allWritten [(sampleBatch 1 7, false), (sampleBatch 2 8, true)]) :=
  ⟨sampleTree_saved, not_prefix_of_new sampleEnv_traceOutput sampleEnv_canonicalKeys
    sampleEnv_separateKeys _ _ sampleTree_saved (by decide) (by decide) List.mem_cons_self
    List.not_mem_nil []⟩

/-- A failed write between two batches that write a slot which an earlier, saved batch has
written. -/
theorem storedMetadata_prefix_sample : ∃ m order tree,
    SavedInv sampleEnv m order tree ∧
    storedMetadata sampleEnv (fun _ => sampleSchedule) tree
        [(sampleBatch 1 8, false), (sampleBatch 1 9, true)] <+:
      storedMetadata sampleEnv (fun _ => sampleSchedule) tree
        (allWritten [(sampleBatch 1 8, false), (sampleBatch 1 9, true)]) := by
  obtain ⟨tree', -, hstep⟩ := processIteration_step sampleEnv_traceOutput
    sampleEnv_canonicalKeys sampleEnv_separateKeys sampleSchedule sampleTree_saved.db
    (by decide : filterBlockLogs (sampleBatch 1 7) ≠ []) true
  obtain ⟨-, -, hinv⟩ := sampleTree_saved.save sampleEnv_separateKeys hstep.db hstep.deletes
    hstep.pending hstep.root
  have hkeys (k : ℕ) (m : ℕ → TreeValue) (hk : k ∉ (batchOps sampleEnv (sampleBatch 1 9)).map
      fun op => treeKeyToU256 op.1) : leavesAfter sampleEnv.hasher m
        (batchOps sampleEnv (sampleBatch 1 8)) (batchOps sampleEnv (sampleBatch 1 8)).length k =
          m k := leavesAfter_of_notMem (sampleBatch_keys 1 9 8 ▸ hk)
  refine ⟨_, _, _, hinv, (storedMetadata_prefix_iff sampleEnv sampleEnv_traceOutput
    sampleEnv_canonicalKeys sampleEnv_separateKeys _ _ _ _ _ hinv _ ?_).mpr ?_⟩
  · refine ⟨SparseMerkle.NoCollision.refl _ _, ?_, trivial⟩
    change SparseMerkle.NoCollision _ (leavesAfter _ _ (batchOps sampleEnv (sampleBatch 1 9)) _)
      (leavesAfter _ _ (batchOps sampleEnv (sampleBatch 1 9)) _)
    rw [(leavesAfter_eq_iff _).mpr fun k hk => (hkeys k _ hk).symm]
    exact SparseMerkle.NoCollision.refl _ _
  · refine .inr ⟨rfl, fun _ _ => rfl, .inr ⟨?_, fun k hk => hkeys k _ hk, trivial⟩⟩
    exact enumerate_eq_self_iff.mpr fun key hkey => mem_enumerate.mpr (.inr hkey)

end TreeUpdater

end OlaOs
