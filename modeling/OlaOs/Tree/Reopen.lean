import OlaOs.Tree.Enumeration

/-! Dropping the tree after a save and opening its database again. -/
namespace OlaOs

open Enumerate BatchOps Storage

variable {Row : Type}

/-- Two patches that make the same records of the database `db`. -/
def SameAhead (db : List UInt8 → Option DbValue) (p q : PendingPatch) : Prop :=
  ∀ bytes, (p.lookup bytes).or (db bytes) = (q.lookup bytes).or (db bytes)

theorem SameAhead.insert {db : List UInt8 → Option DbValue} {p q : PendingPatch}
    (h : SameAhead db p q) (key : List UInt8) (value : DbValue) :
    SameAhead db (p.insert key value) (q.insert key value) := by
  intro bytes
  rw [KeyedMap.lookup_insert_eq, KeyedMap.lookup_insert_eq]
  split_ifs
  · rfl
  · exact h bytes

theorem SameAhead.extend {db : List UInt8 → Option DbValue} {p q : PendingPatch}
    (h : SameAhead db p q) (records : List (List UInt8 × DbValue)) :
    SameAhead db (p.extend records) (q.extend records) := by
  intro bytes
  rw [KeyedMap.lookup_extend, KeyedMap.lookup_extend, Option.or_assoc, Option.or_assoc, h bytes]

/-- Two storages that read the same database and make the same records of it. -/
structure Storage.Alike (a b : Storage) : Prop where
  db : a.db = b.db
  deletes : a.deletePendingPatch = []
  deletes' : b.deletePendingPatch = []
  ahead : SameAhead a.db.leafIndices a.putPendingPatch b.putPendingPatch

namespace Storage

/-- Two scans that differ in their patches only. -/
def ScanAlike (db : List UInt8 → Option DbValue) (a b : LeafScan) : Prop :=
  ∃ put, b = { a with putBatch := put } ∧ SameAhead db a.putBatch put

theorem ScanAlike.scanLog {db : List UInt8 → Option DbValue} {a b : LeafScan}
    (h : ScanAlike db a b) (rawData : Option DbValue) (leaf : TreeKey) (op : TreeOperation) :
    ScanAlike db (scanLog rawData a leaf op).1 (scanLog rawData b leaf op).1 ∧
      (Storage.scanLog rawData a leaf op).2 = (Storage.scanLog rawData b leaf op).2 := by
  obtain ⟨put, rfl, hahead⟩ := h
  cases op with
  | delete =>
    unfold Storage.scanLog
    cases rawData with
    | none =>
      dsimp only
      exact ⟨⟨put, rfl, hahead⟩, rfl⟩
    | some bytes =>
      dsimp only
      exact ⟨⟨put, rfl, hahead⟩, rfl⟩
  | read value =>
    cases rawData with
    | none => exact ⟨⟨put, rfl, hahead⟩, rfl⟩
    | some bytes => exact ⟨⟨put, rfl, hahead⟩, rfl⟩
  | write value previousValue =>
    cases rawData with
    | some bytes => exact ⟨⟨put, rfl, hahead⟩, rfl⟩
    | none =>
      unfold Storage.scanLog
      dsimp only
      cases a.newWrites.lookup leaf.canonical with
      | some index => exact ⟨⟨put, rfl, hahead⟩, rfl⟩
      | none => exact ⟨⟨_, rfl, hahead.insert _ _⟩, rfl⟩

theorem ScanAlike.scanBlock {db : Db} {a b : LeafScan} (h : ScanAlike db.leafIndices a b)
    (logs : List BlockLog) :
    ScanAlike db.leafIndices (scanBlock db a logs).1 (scanBlock db b logs).1 ∧
      (Storage.scanBlock db a logs).2 = (Storage.scanBlock db b logs).2 := by
  induction logs generalizing a b with
  | nil => exact ⟨h, rfl⟩
  | cons log logs ih =>
    obtain ⟨block, leaf, op⟩ := log
    obtain ⟨hstep, hindex⟩ := h.scanLog (db.leafIndices (serializeTreeLeaf leaf)) leaf op
    obtain ⟨hrest, hindices⟩ := ih hstep
    refine ⟨hrest, ?_⟩
    simp only [Storage.scanBlock, hindex, hindices]

/-- What is reported of a block does not show the patch. -/
theorem ScanAlike.leafIndices {db : List UInt8 → Option DbValue}
    {x y : LeafScan × List (TreeKey × ℕ)} (h : ScanAlike db x.1 y.1) (hindices : x.2 = y.2)
    (previousIndex : ℕ) :
    LeafScan.leafIndices previousIndex x = LeafScan.leafIndices previousIndex y := by
  obtain ⟨put, hput, -⟩ := h
  unfold LeafScan.leafIndices
  rw [hput, hindices]

theorem ScanAlike.scanBlocks {db : Db} {a b : LeafScan} (h : ScanAlike db.leafIndices a b)
    (groups : List (List BlockLog)) :
    ScanAlike db.leafIndices (scanBlocks db a groups).1 (scanBlocks db b groups).1 ∧
      (Storage.scanBlocks db a groups).2 = (Storage.scanBlocks db b groups).2 := by
  induction groups generalizing a b with
  | nil => exact ⟨h, rfl⟩
  | cons group groups ih =>
    have hstart : ScanAlike db.leafIndices { a with initialWrites := [], repeatedWrites := [] }
        { b with initialWrites := [], repeatedWrites := [] } := by
      obtain ⟨put, rfl, hahead⟩ := h
      exact ⟨put, rfl, hahead⟩
    have hcurrent : a.currentIndex = b.currentIndex := by
      obtain ⟨put, rfl, -⟩ := h
      rfl
    obtain ⟨hblock, hindices⟩ := hstart.scanBlock group
    obtain ⟨hrest, hblocks⟩ := ih hblock
    refine ⟨hrest, ?_⟩
    have hhead := hblock.leafIndices hindices a.currentIndex
    simp only [Storage.scanBlocks, hblocks, hhead, ← hcurrent]

/-- Logs without a deletion leave the list of deletions alone. -/
theorem scanBlock_deleteBatch (db : Db) (scan : LeafScan) (logs : List BlockLog)
    (hdelete : ∀ log ∈ logs, log.2.2 ≠ .delete) :
    (scanBlock db scan logs).1.deleteBatch = scan.deleteBatch := by
  induction logs generalizing scan with
  | nil => rfl
  | cons log logs ih =>
    obtain ⟨block, leaf, op⟩ := log
    have hrest := ih (scanLog (db.leafIndices (serializeTreeLeaf leaf)) scan leaf op).1
      fun log hlog => hdelete log (List.mem_cons_of_mem _ hlog)
    refine hrest.trans ?_
    have hop : op ≠ .delete := hdelete _ List.mem_cons_self
    cases op with
    | delete => exact absurd rfl hop
    | read value => cases db.leafIndices (serializeTreeLeaf leaf) <;> rfl
    | write value previousValue =>
      cases db.leafIndices (serializeTreeLeaf leaf) with
      | some bytes => rfl
      | none =>
        unfold scanLog
        dsimp only
        cases scan.newWrites.lookup leaf.canonical <;> rfl

theorem scanBlocks_deleteBatch (db : Db) (scan : LeafScan) (groups : List (List BlockLog))
    (hdelete : ∀ group ∈ groups, ∀ log ∈ group, log.2.2 ≠ .delete) :
    (scanBlocks db scan groups).1.deleteBatch = scan.deleteBatch := by
  induction groups generalizing scan with
  | nil => rfl
  | cons group groups ih =>
    have hrest := ih (scanBlock db { scan with initialWrites := [], repeatedWrites := [] } group).1
      fun group' hgroup => hdelete group' (List.mem_cons_of_mem _ hgroup)
    exact hrest.trans (scanBlock_deleteBatch db _ group (hdelete group List.mem_cons_self))

/-- The leaf indices of a block do not depend on what is pending. -/
theorem Alike.processLeafIndices {a b : Storage} (h : Alike a b) (logs : List BlockLog)
    (hdelete : ∀ log ∈ logs, log.2.2 ≠ .delete) :
    Alike (a.processLeafIndices logs).1 (b.processLeafIndices logs).1 ∧
      (a.processLeafIndices logs).2 = (b.processLeafIndices logs).2 := by
  have hgroups : ∀ group ∈ logs.splitBy (fun a b => a.1 == b.1), ∀ log ∈ group,
      log.2.2 ≠ .delete := by
    intro group hgroup log hlog
    have hflatten := List.flatten_splitBy (fun a b : BlockLog => a.1 == b.1) logs
    exact hdelete log (hflatten ▸ List.mem_flatten.mpr ⟨group, hgroup, hlog⟩)
  have hcurrent : a.currentIndex = b.currentIndex := by
    unfold currentIndex
    rw [h.db]
  have hstart : ScanAlike a.db.leafIndices a.startScan b.startScan := by
    refine ⟨b.putPendingPatch, ?_, h.ahead⟩
    simp only [startScan, hcurrent, h.deletes, h.deletes']
  obtain ⟨hscan, hindices⟩ := hstart.scanBlocks (logs.splitBy fun a b => a.1 == b.1)
  have hdel := scanBlocks_deleteBatch a.db a.startScan _ hgroups
  have hdel' := scanBlocks_deleteBatch b.db b.startScan _ hgroups
  refine ⟨⟨h.db, hdel.trans h.deletes, hdel'.trans h.deletes', ?_⟩, ?_⟩
  · obtain ⟨put, hput, hahead⟩ := hscan
    unfold Storage.processLeafIndices
    rw [← h.db]
    dsimp only
    rw [hput]
    exact hahead.insert _ _
  · unfold Storage.processLeafIndices
    rw [← h.db]
    exact hindices

/-- There is something to save: the counter of the leaves. -/
def HasPending (s : Storage) : Prop := ∃ value, s.putPendingPatch.lookup leafIndexKey = some value

theorem hasPending_preSave (env : TreeEnv Row) (s : Storage) (logs : List BlockLog)
    (branches : KeyedMap LevelIndex TreeKey) :
    HasPending ((s.processLeafIndices logs).1.preSave env branches) := by
  apply Option.isSome_iff_exists.mp
  show (((s.processLeafIndices logs).1.putPendingPatch.extend _).lookup leafIndexKey).isSome = true
  rw [KeyedMap.lookup_extend, Option.isSome_or, Bool.or_eq_true]
  right
  show ((AList.insert leafIndexKey _ _).lookup leafIndexKey).isSome = true
  rw [KeyedMap.lookup_insert_eq, if_pos rfl]
  rfl

theorem Alike.preSave {env : TreeEnv Row} {a b : Storage} (h : Alike a b)
    (branches : KeyedMap LevelIndex TreeKey) :
    Alike (a.preSave env branches) (b.preSave env branches) :=
  ⟨h.db, h.deletes, h.deletes', h.ahead.extend _⟩

end Storage

namespace AccountTree

variable {env : TreeEnv Row}

/-- Only the database is read for the paths of a batch. -/
theorem prepareBatchUpdate_congr {s s' : Storage} (h : s.db = s'.db)
    (logs : List (TreeKey × TreeOperation × ℕ)) :
    prepareBatchUpdate env s logs = prepareBatchUpdate env s' logs := by
  have hhash : hashByLvlIdx env s = hashByLvlIdx env s' := by
    funext lvlIdx
    unfold hashByLvlIdx Storage.hash
    rw [h]
  unfold prepareBatchUpdate updateMap hashPathsToLeaves getLeavesPaths
  rw [hhash]

/-- Two trees that show the same to every reader and write the same. -/
structure Alike (a b : AccountTree) : Prop where
  storage : Storage.Alike a.storage b.storage
  rootHash : a.rootHash = b.rootHash
  blockNumber : a.blockNumber = b.blockNumber

/-- Two results of processing a block: the same fault, or the same value and trees that are alike
and can be saved. -/
def AlikeResults {α : Type} (x y : Except Fault (α × AccountTree)) : Prop :=
  (∃ fault, x = .error fault ∧ y = .error fault) ∨
    ∃ value a b, x = .ok (value, a) ∧ y = .ok (value, b) ∧ Alike a b ∧ a.storage.HasPending ∧
      b.storage.HasPending

theorem Alike.runBatch {a b : AccountTree} (h : Alike a b) (sched : Schedule Row)
    (logs : List BlockLog) (hdelete : ∀ log ∈ logs, log.2.2 ≠ .delete) :
    (∃ fault, runBatch env sched a logs = .error fault ∧ runBatch env sched b logs = .error fault) ∨
      ∃ run run', runBatch env sched a logs = .ok run ∧ runBatch env sched b logs = .ok run' ∧
        run' = { run with storage := run'.storage } ∧ Storage.Alike run.storage run'.storage ∧
        run.storage.HasPending ∧ run'.storage.HasPending := by
  obtain ⟨hstorage, hindices⟩ := h.storage.processLeafIndices logs hdelete
  unfold AccountTree.runBatch
  simp only [← hindices, ← prepareBatchUpdate_congr hstorage.db, bind, Except.bind, pure,
    Except.pure]
  cases logs.mapM (withLeafIndex (a.storage.processLeafIndices logs).2) with
  | error fault => exact .inl ⟨fault, rfl, rfl⟩
  | ok indexed =>
    dsimp only
    cases prepareBatchUpdate env (a.storage.processLeafIndices logs).1 indexed with
    | error fault => exact .inl ⟨fault, rfl, rfl⟩
    | ok prepared =>
      dsimp only
      cases prepared.calculate env.hasher sched with
      | error fault => exact .inl ⟨fault, rfl, rfl⟩
      | ok updates =>
        dsimp only
        cases groupTraces (prepared.updates.toList.map fun update => update.2.length).sum
            updates.2 with
        | error fault => exact .inl ⟨fault, rfl, rfl⟩
        | ok hashTrace =>
          dsimp only
          cases applyPatch updates.1 logs (a.storage.processLeafIndices logs).2 with
          | error fault => exact .inl ⟨fault, rfl, rfl⟩
          | ok patched =>
            exact .inr ⟨_, _, rfl, rfl, rfl, hstorage.preSave _, hasPending_preSave env _ logs _,
              hasPending_preSave env _ logs _⟩

theorem Alike.applyUpdatesBatch {a b : AccountTree} (h : Alike a b) (sched : Schedule Row)
    (updatesBatch : List (List (TreeKey × TreeOperation)))
    (hdelete : ∀ ops ∈ updatesBatch, ∀ op ∈ ops, op.2 ≠ .delete) :
    AlikeResults (applyUpdatesBatch env sched a updatesBatch)
      (applyUpdatesBatch env sched b updatesBatch) := by
  have hlogs : ∀ log ∈ logsWithBlocks updatesBatch, log.2.2 ≠ .delete := by
    intro log hlog
    obtain ⟨⟨ops, i⟩, hops, hmap⟩ := List.mem_flatMap.mp hlog
    obtain ⟨op, hop, rfl⟩ := List.mem_map.mp hmap
    exact hdelete ops (List.fst_mem_of_mem_zipIdx hops) op hop
  unfold AccountTree.applyUpdatesBatch
  simp only [bind, Except.bind, pure, Except.pure]
  rcases h.runBatch sched _ hlogs with ⟨fault, hrun, hrun'⟩ |
    ⟨run, run', hrun, hrun', hsame, hstorage, hpending, hpending'⟩
  · rw [hrun, hrun']
    exact .inl ⟨fault, rfl, rfl⟩
  · rw [hrun, hrun', hsame]
    dsimp only
    cases ((run.patchMetadata.zip (logsWithBlocks updatesBatch)).splitBy fun a b =>
        a.2.1 == b.2.1).mapM (blockMetadata run.leafIndices) with
    | error fault => exact .inl ⟨fault, rfl, rfl⟩
    | ok metadata =>
      refine .inr ⟨_, _, ⟨run'.storage, _, _⟩, rfl, rfl, ⟨hstorage, ?_, ?_⟩, hpending, hpending'⟩
      · dsimp only
        rw [h.rootHash]
      · dsimp only
        rw [h.blockNumber]

theorem treeOperation_ne_delete (log : WitnessStorageLog) :
    (treeOperation env log).2 ≠ .delete := by
  unfold treeOperation
  cases log.storageLog.kind <;> simp

theorem Alike.processBlock {a b : AccountTree} (h : Alike a b) (sched : Schedule Row)
    (logs : List WitnessStorageLog) :
    AlikeResults (processBlock env sched a logs) (processBlock env sched b logs) := by
  have hdelete : ∀ ops ∈ [logs].map (fun logs => logs.map (treeOperation env)), ∀ op ∈ ops,
      op.2 ≠ .delete := by
    intro ops hops op hop
    obtain rfl : ops = logs.map (treeOperation env) := by simpa using hops
    obtain ⟨log, -, rfl⟩ := List.mem_map.mp hop
    exact treeOperation_ne_delete log
  unfold AccountTree.processBlock processBlocks
  simp only [List.length_map, List.length_singleton, ↓reduceIte, bind, Except.bind]
  rcases h.applyUpdatesBatch sched _ hdelete with ⟨fault, hrun, hrun'⟩ |
    ⟨⟨hashTraces, treeMetadata⟩, a', b', hrun, hrun', halike⟩
  · rw [hrun, hrun']
    exact .inl ⟨_, rfl, rfl⟩
  · rw [hrun, hrun', h.rootHash]
    dsimp only
    split
    · rename_i metadata
      cases composeWitness env b.rootHash hashTraces logs with
      | error fault => exact .inl ⟨_, rfl, rfl⟩
      | ok witness => exact .inr ⟨_, a', b', rfl, rfl, halike⟩
    · exact .inl ⟨_, rfl, rfl⟩

/-- After a successful save nothing is pending that the database does not have. -/
theorem Alike.saved {a b : AccountTree} (h : Alike a b) : Alike a.saved b.saved := by
  have hdb : a.saved.storage.db = b.saved.storage.db := by
    have hleaf : a.saved.storage.db.leafIndices = b.saved.storage.db.leafIndices := by
      funext bytes
      rw [saved_leafIndices, saved_leafIndices, ← h.storage.db]
      exact h.storage.ahead bytes
    exact congrArg₂ Db.mk hleaf (congrArg some h.blockNumber)
  have hahead {tree : AccountTree} (bytes : List UInt8) :
      (tree.storage.putPendingPatch.lookup bytes).or (tree.saved.storage.db.leafIndices bytes) =
        tree.saved.storage.db.leafIndices bytes := by
    rw [saved_leafIndices, ← Option.or_assoc, Option.or_self]
  refine ⟨⟨hdb, h.storage.deletes, h.storage.deletes', fun bytes => ?_⟩, h.rootHash, h.blockNumber⟩
  have hright := @hahead b bytes
  rw [← hdb] at hright
  exact (@hahead a bytes).trans hright.symm

/-- The end of a block: a save, which RocksDB accepts or not, or none. A tree whose save fails
stays as it is. -/
def trySave (tree : AccountTree) : (written : Option Bool) → Option TreeError × AccountTree
  | none => (none, tree)
  | some written =>
    match tree.save written with
    | .ok tree => (none, tree)
    | .error e => (some e, tree)

theorem save_false {tree : AccountTree} (h : tree.storage.HasPending) :
    tree.save false = .error .storageIoError := by
  obtain ⟨value, hvalue⟩ := h
  have hne : tree.storage.putPendingPatch.toList.isEmpty = false := by
    rw [List.isEmpty_eq_false_iff_exists_mem]
    exact ⟨_, KeyedMap.mem_toList.mpr hvalue⟩
  simp only [AccountTree.save, Storage.save, hne, Bool.false_and, Bool.false_eq_true, ↓reduceIte,
    bind, Except.bind]

theorem Alike.trySave {a b : AccountTree} (h : Alike a b) (ha : a.storage.HasPending)
    (hb : b.storage.HasPending) (written : Option Bool) :
    (trySave a written).1 = (trySave b written).1 ∧
      Alike (trySave a written).2 (trySave b written).2 := by
  rcases written with _ | _ | _
  · exact ⟨rfl, h⟩
  · unfold AccountTree.trySave
    dsimp only
    rw [save_false ha, save_false hb]
    exact ⟨rfl, h⟩
  · obtain ⟨value, hvalue⟩ := ha
    obtain ⟨value', hvalue'⟩ := hb
    unfold AccountTree.trySave
    dsimp only
    rw [save_eq hvalue h.storage.deletes, save_eq hvalue' h.storage.deletes']
    exact ⟨rfl, h.saved⟩

/-- What is done with an open tree: a block, and its end. -/
structure Further (Row : Type) where
  sched : Schedule Row
  logs : List WitnessStorageLog
  written : Option Bool

/-- The reports and the errors of the saves on the way, and the tree at the end. -/
def continueWith (env : TreeEnv Row) : AccountTree → List (Further Row) →
    Except Fault (List (TreeMetadata Row × Option TreeError) × AccountTree)
  | tree, [] => .ok ([], tree)
  | tree, step :: steps => do
    let (metadata, tree) ← processBlock env step.sched tree step.logs
    let (error, tree) := trySave tree step.written
    (continueWith env tree steps).map fun (reports, tree) => ((metadata, error) :: reports, tree)

/-- What can be seen of a tree from outside. -/
def observed {α : Type} (result : Except Fault (α × AccountTree)) :
    Except Fault (α × ZkHash × ℕ × ℕ × Db) :=
  result.map fun (value, tree) =>
    (value, tree.rootHash, tree.blockNumber, tree.storage.currentIndex, tree.storage.db)

theorem observed_map {α β : Type} (f : α → β) (result : Except Fault (α × AccountTree)) :
    observed (result.map fun (value, tree) => (f value, tree)) =
      (observed result).map fun (value, seen) => (f value, seen) := by
  cases result with
  | error fault => rfl
  | ok result => rfl

/-- Trees that are alike stay alike, whatever is done with both of them. -/
theorem Alike.observed_continueWith {a b : AccountTree} (h : Alike a b)
    (steps : List (Further Row)) :
    observed (continueWith env a steps) = observed (continueWith env b steps) := by
  induction steps generalizing a b with
  | nil =>
    unfold continueWith observed currentIndex
    simp only [Except.map, h.rootHash, h.blockNumber, h.storage.db]
  | cons step steps ih =>
    unfold continueWith
    simp only [bind, Except.bind]
    rcases h.processBlock step.sched step.logs with ⟨fault, hrun, hrun'⟩ |
      ⟨metadata, a', b', hrun, hrun', halike, hpending, hpending'⟩
    · rw [hrun, hrun']
    · rw [hrun, hrun']
      dsimp only
      obtain ⟨herror, hsaved⟩ := halike.trySave hpending hpending' step.written
      rw [herror]
      generalize (AccountTree.trySave b' step.written).1 = error
      rw [observed_map fun reports => (metadata, error) :: reports, ih hsaved,
        observed_map fun reports => (metadata, error) :: reports]

/-- The block number of a saved tree is in its database. -/
theorem SaveRun.blockNumber {blocks : List (List WitnessStorageLog)} {tree : AccountTree}
    (h : SaveRun env blocks tree) : tree.storage.db.blockNumber.getD 0 = tree.blockNumber := by
  cases h with
  | start hnew =>
    rw [newWithDb_empty] at hnew
    cases hnew
    rfl
  | block sched _ _ _ hsave =>
    unfold AccountTree.save Storage.save at hsave
    simp only [bind, Except.bind, pure, Except.pure] at hsave
    split_ifs at hsave
    cases hsave
    rfl

/-- The root that is read back from a database with the tree over `m`. -/
theorem newWithDb_eq {m : ℕ → TreeValue} {db : Db}
    (h : NodesConsistent env.hasher (db.nodes env) m) :
    newWithDb env db = .ok ⟨.new db, referenceRoot env.hasher m, db.blockNumber.getD 0⟩ := by
  have hempty := TreeConfig.emptyEntries_hash env.hasher (Nat.zero_le rootTreeDepth)
  rw [← List.head?_eq_getElem?, Nat.sub_zero] at hempty
  have hnode : (Storage.new db).hash env (0, 0) = db.nodes env (0, 0) := rfl
  cases hroot : db.nodes env (0, 0) with
  | none =>
    have habsent := h.absent 0 (Nat.zero_le _) 0 (by decide) hroot
    rw [← List.head?_eq_getElem?, Nat.sub_zero] at habsent
    have hmeta : (Storage.new db).fetchMetadata env = .ok (none, db.blockNumber.getD 0) := by
      unfold fetchMetadata
      rw [hnode, hroot]
      rfl
    simp only [newWithDb, TreeConfig.emptyTree_eq, hmeta, habsent, bind, Except.bind, orPanic_some,
      pure, Except.pure, Option.getD_none, referenceRoot]
  | some value =>
    have hstored := h.stored 0 (Nat.zero_le _) 0 (by decide) value hroot
    rw [Nat.sub_zero] at hstored
    have hmeta : (Storage.new db).fetchMetadata env =
        .ok (some (referenceRoot env.hasher m), db.blockNumber.getD 0) := by
      unfold fetchMetadata
      rw [hnode, hroot, hstored]
      rfl
    simp only [newWithDb, TreeConfig.emptyTree_eq, hmeta, hempty, bind, Except.bind, orPanic_some,
      pure, Except.pure, Option.getD_some]

theorem SavedInv.reopen {m : ℕ → TreeValue} {order : List TreeKey} {tree : AccountTree}
    (h : SavedInv env m order tree)
    (hnumber : tree.storage.db.blockNumber.getD 0 = tree.blockNumber) :
    ∃ reopened, newWithDb env tree.storage.db = .ok reopened ∧ Alike tree reopened := by
  refine ⟨_, newWithDb_eq h.db.nodes, ⟨rfl, h.deletes, rfl, fun bytes => ?_⟩, h.root, hnumber.symm⟩
  cases hpending : tree.storage.putPendingPatch.lookup bytes with
  | none => rfl
  | some value =>
    rw [h.pending bytes value hpending]
    rfl

/-- A tree and the tree that is opened on its database. -/
structure Persists (env : TreeEnv Row) (tree reopened : AccountTree) : Prop where
  rootHash : reopened.rootHash = tree.rootHash
  blockNumber : reopened.blockNumber = tree.blockNumber
  currentIndex : reopened.storage.currentIndex = tree.storage.currentIndex
  records : ∀ bytes, reopened.storage.db.leafIndices bytes = tree.storage.db.leafIndices bytes
  continued : ∀ steps, observed (continueWith env reopened steps) =
    observed (continueWith env tree steps)
  /-- What is written at the next save is written by the block, or in the database already. -/
  rewritten : ∀ sched logs metadata next, processBlock env sched tree logs = .ok (metadata, next) →
    ∃ fresh, processBlock env sched reopened logs = .ok (metadata, fresh) ∧
      ∀ bytes value, next.storage.putPendingPatch.lookup bytes = some value →
        fresh.storage.putPendingPatch.lookup bytes = some value ∨
          fresh.storage.putPendingPatch.lookup bytes = none ∧
            next.storage.db.leafIndices bytes = some value

theorem Alike.persists {tree reopened : AccountTree} (h : Alike tree reopened) :
    Persists env tree reopened where
  rootHash := h.rootHash.symm
  blockNumber := h.blockNumber.symm
  currentIndex := by
    unfold currentIndex
    rw [h.storage.db]
  records bytes := by rw [h.storage.db]
  continued steps := (h.observed_continueWith steps).symm
  rewritten := by
    intro sched logs metadata next hnext
    rcases @Alike.processBlock _ env _ _ h sched logs with ⟨fault, hrun, -⟩ |
      ⟨metadata', next', fresh, hrun, hrun', halike, -, -⟩
    · rw [hnext] at hrun
      cases hrun
    · rw [hnext] at hrun
      obtain ⟨rfl, rfl⟩ := Prod.mk.inj (Except.ok.inj hrun)
      refine ⟨fresh, hrun', fun bytes value hvalue => ?_⟩
      have hahead := halike.storage.ahead bytes
      rw [hvalue, Option.some_or] at hahead
      cases hfresh : fresh.storage.putPendingPatch.lookup bytes with
      | some value' =>
        rw [hfresh, Option.some_or] at hahead
        exact .inl hahead.symm
      | none =>
        rw [hfresh, Option.none_or] at hahead
        exact .inr ⟨rfl, hahead.symm⟩

/-- A tree that is saved after every block can be dropped and opened again: nothing that is done
with it afterwards shows a difference. -/
theorem saveRun_persists (env : TreeEnv Row) (hout : env.hasher.TraceOutput)
    (hkeys : env.CanonicalKeys) (hsep : env.SeparateKeys) (blocks : List (List WitnessStorageLog))
    (tree : AccountTree) (hrun : SaveRun env blocks tree) :
    ∃ reopened, newWithDb env tree.storage.db = .ok reopened ∧ Persists env tree reopened := by
  obtain ⟨m, hinv⟩ := hrun.savedInv hout hkeys hsep
  obtain ⟨reopened, hnew, halike⟩ := hinv.reopen hrun.blockNumber
  exact ⟨reopened, hnew, halike.persists⟩

theorem saveRun_persists_sample : ∃ saved reopened, SaveRun sampleEnv [sampleWitnessLogs] saved ∧
    newWithDb sampleEnv saved.storage.db = .ok reopened ∧ Persists sampleEnv saved reopened := by
  obtain ⟨m, hinv⟩ := (SaveRun.start (newWithDb_empty sampleEnv)).savedInv sampleEnv_traceOutput
    sampleEnv_canonicalKeys sampleEnv_separateKeys
  obtain ⟨witness, tree', hblock, hsave, -⟩ := hinv.step sampleEnv_traceOutput
    sampleEnv_canonicalKeys sampleEnv_separateKeys sampleSchedule
    (show sampleWitnessLogs ≠ [] by decide)
  have hrun : SaveRun sampleEnv [sampleWitnessLogs] tree'.saved :=
    .block sampleSchedule (.start (newWithDb_empty sampleEnv)) (by decide) hblock hsave
  obtain ⟨reopened, hnew, hpersists⟩ := saveRun_persists sampleEnv sampleEnv_traceOutput
    sampleEnv_canonicalKeys sampleEnv_separateKeys _ _ hrun
  exact ⟨_, reopened, hrun, hnew, hpersists⟩

end AccountTree

end OlaOs
