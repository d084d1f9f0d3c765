import OlaOs.Lib.Recorded
import OlaOs.Tree.PatchSpec

/-! The indices that `u256_to_tree_key` is called with while a batch is prepared, hashed and
applied. Each function here is the one of its name, with the calls that it makes. -/
namespace OlaOs

variable {Row : Type}

namespace IndexCalls

abbrev Calls (α : Type) := Recorded ℕ Fault α

def u256ToTreeKey (value : ℕ) : Calls TreeKey := do
  Recorded.record value
  return OlaOs.u256ToTreeKey value

def hashByLvlIdx (env : TreeEnv Row) (storage : Storage) (lvlIdx : LevelIndex) :
    Calls (TreeKey × TreeKey) := do
  let node ← Recorded.lift (AccountTree.hashByLvlIdx env storage lvlIdx)
  let key ← u256ToTreeKey lvlIdx.2
  return (key, node.2)

def getLeavesPaths (env : TreeEnv Row) (storage : Storage) (ids : List TreeKey) (neiFlag : Bool) :
    Calls (List (List (TreeKey × TreeKey))) :=
  ids.mapM fun idx => (idxToMerklePath (treeKeyToU256 idx) neiFlag).mapM (hashByLvlIdx env storage)

def hashPathsToLeaves (env : TreeEnv Row) (storage : Storage)
    (storageLogs : List (TreeKey × TreeOperation × ℕ)) (neiFlag : Bool) :
    Calls (List (List TreeKey)) := do
  let paths ← getLeavesPaths env storage (storageLogs.map fun log => log.1) neiFlag
  return (paths.zip storageLogs).map fun (currentPath, (_, operation, _)) =>
    currentPath.map Prod.snd ++ [operation.leafHash env.hasher]

def updateMap (env : TreeEnv Row) (storage : Storage)
    (storageLogs : List (TreeKey × TreeOperation × ℕ)) (neiFlag : Bool) : Calls UpdateMap := do
  let paths ← hashPathsToLeaves env storage storageLogs neiFlag
  let updates ← Recorded.lift ((paths.zip storageLogs.zipIdx).mapM AccountTree.keyedUpdate)
  let map := KeyedMap.groupBy (fun e => e.1.canonical) updates
  return .ofList (map.toList.filterMap fun (_, items) =>
    items.head?.map fun first => (treeKeyToU256 first.1, items.map Prod.snd))

def prepareBatchUpdate (env : TreeEnv Row) (storage : Storage)
    (storageLogs : List (TreeKey × TreeOperation × ℕ)) : Calls UpdatesBatch := do
  let preMap ← updateMap env storage storageLogs false
  let map ← updateMap env storage storageLogs true
  return ⟨map, preMap⟩

/-- The key of the parent is computed twice: for the update, and for the entry of `cur_path_map`. -/
def calculateOp (hasher : Hasher Row) (depth : ℕ) (curChanges : KeyedMap ℕ (List TreeKey))
    (nextIdx : ℕ) (curPathMap : UpdateMap) (op : (Bool × Update) × Option (Option NodeEntry)) :
    Calls (Update × UpdateMap × (ℕ × HashTrace Row)) := do
  let result ← Recorded.lift
    (UpdatesBatch.calculateOp hasher depth curChanges nextIdx curPathMap op)
  let _ ← u256ToTreeKey nextIdx
  let _ ← u256ToTreeKey nextIdx
  return result

def calculateOps (hasher : Hasher Row) (depth : ℕ) (curChanges : KeyedMap ℕ (List TreeKey))
    (nextIdx : ℕ) : UpdateMap → List ((Bool × Update) × Option (Option NodeEntry)) →
      Calls (List Update × UpdateMap × List (ℕ × HashTrace Row))
  | curPathMap, [] => return ([], curPathMap, [])
  | curPathMap, op :: ops => do
    let head ← calculateOp hasher depth curChanges nextIdx curPathMap op
    let rest ← calculateOps hasher depth curChanges nextIdx head.2.1 ops
    return (head.1 :: rest.1, rest.2.1, head.2.2 :: rest.2.2)

def calculateParents (hasher : Hasher Row) (depth : ℕ) (curChanges : KeyedMap ℕ (List TreeKey)) :
    UpdateMap → List (ℕ × (Option (List Update) × Option (List Update))) →
      Calls (List (ℕ × List Update) × UpdateMap × List (ℕ × HashTrace Row))
  | curPathMap, [] => return ([], curPathMap, [])
  | curPathMap, (nextIdx, (leftUpdates, rightUpdates)) :: parents => do
    let head ← calculateOps hasher depth curChanges nextIdx curPathMap
      (UpdatesBatch.mergedOps leftUpdates rightUpdates)
    let rest ← calculateParents hasher depth curChanges head.2.1 parents
    return ((nextIdx, head.1) :: rest.1, rest.2.1, head.2.2 ++ rest.2.2)

def calculateLevel (hasher : Hasher Row) (sched : Schedule Row) (s : UpdatesBatch.LevelState Row)
    (depth : ℕ) : Calls (UpdatesBatch.LevelState Row) := do
  let curChanges ← Recorded.lift (UpdatesBatch.curChanges s.curPathMap)
  let level ← calculateParents hasher depth curChanges s.curPathMap
    (UpdatesBatch.childUpdates s.curLvlUpdatesMap)
  return ⟨.ofList level.1, UpdatesBatch.regroupPath level.2.1,
    s.hashTrace ++ sched.order depth level.2.2⟩

def calculate (hasher : Hasher Row) (sched : Schedule Row) (batch : UpdatesBatch) :
    Calls (TreePatch × List (ℕ × HashTrace Row)) := do
  let final ← (List.range rootTreeDepth).foldlM (calculateLevel hasher sched)
    ⟨batch.updates, batch.preUpdates, []⟩
  return (final.curLvlUpdatesMap.toList.flatMap fun e => e.2.map Update.changes, final.hashTrace)

def runBatch (env : TreeEnv Row) (sched : Schedule Row) (tree : AccountTree)
    (storageLogsWithBlocks : List BlockLog) : Calls (AccountTree.BatchRun Row) := do
  let (storage, leafIndices) := tree.storage.processLeafIndices storageLogsWithBlocks
  let storageLogsWithIndices ←
    Recorded.lift (storageLogsWithBlocks.mapM (AccountTree.withLeafIndex leafIndices))
  let preparedUpdates ← prepareBatchUpdate env storage storageLogsWithIndices
  let groupSize := (preparedUpdates.updates.toList.map fun update => update.2.length).sum
  let updates ← calculate env.hasher sched preparedUpdates
  let hashTrace ← Recorded.lift (AccountTree.groupTraces groupSize updates.2)
  let (branches, patchMetadata) ←
    Recorded.lift (AccountTree.applyPatch updates.1 storageLogsWithBlocks leafIndices)
  return ⟨leafIndices, updates.1, hashTrace, branches, patchMetadata,
    storage.preSave env branches⟩

@[simp] theorem result_u256ToTreeKey (value : ℕ) :
    (u256ToTreeKey value).result = .ok (OlaOs.u256ToTreeKey value) := rfl

/-- A node is returned under its index. -/
theorem hashByLvlIdx_key {env : TreeEnv Row} {storage : Storage} {lvlIdx : LevelIndex}
    {node : TreeKey × TreeKey} (h : AccountTree.hashByLvlIdx env storage lvlIdx = .ok node) :
    node.1 = OlaOs.u256ToTreeKey lvlIdx.2 := by
  unfold AccountTree.hashByLvlIdx at h
  split at h
  · cases h
    rfl
  · cases h
  · obtain ⟨emptyTree, -, h⟩ := Seq.bind_eq_ok.mp h
    obtain ⟨value, -, h⟩ := Seq.bind_eq_ok.mp h
    cases h
    rfl

@[simp] theorem result_hashByLvlIdx (env : TreeEnv Row) (storage : Storage) (lvlIdx : LevelIndex) :
    (hashByLvlIdx env storage lvlIdx).result = AccountTree.hashByLvlIdx env storage lvlIdx := by
  simp only [hashByLvlIdx, Recorded.result_bind, Recorded.result_lift]
  cases h : AccountTree.hashByLvlIdx env storage lvlIdx with
  | error e => rfl
  | ok node =>
    obtain ⟨key, value⟩ := node
    obtain rfl : key = OlaOs.u256ToTreeKey lvlIdx.2 := hashByLvlIdx_key h
    rfl

@[simp] theorem result_getLeavesPaths (env : TreeEnv Row) (storage : Storage) (ids : List TreeKey)
    (neiFlag : Bool) : (getLeavesPaths env storage ids neiFlag).result =
      AccountTree.getLeavesPaths env storage ids neiFlag := by
  simp [getLeavesPaths, AccountTree.getLeavesPaths]

@[simp] theorem result_hashPathsToLeaves (env : TreeEnv Row) (storage : Storage)
    (storageLogs : List (TreeKey × TreeOperation × ℕ)) (neiFlag : Bool) :
    (hashPathsToLeaves env storage storageLogs neiFlag).result =
      AccountTree.hashPathsToLeaves env storage storageLogs neiFlag := by
  simp only [hashPathsToLeaves, Recorded.result_bind, result_getLeavesPaths]
  rfl

@[simp] theorem result_updateMap (env : TreeEnv Row) (storage : Storage)
    (storageLogs : List (TreeKey × TreeOperation × ℕ)) (neiFlag : Bool) :
    (updateMap env storage storageLogs neiFlag).result =
      AccountTree.updateMap env storage storageLogs neiFlag := by
  simp only [updateMap, Recorded.result_bind, result_hashPathsToLeaves, Recorded.result_lift]
  rfl

@[simp] theorem result_prepareBatchUpdate (env : TreeEnv Row) (storage : Storage)
    (storageLogs : List (TreeKey × TreeOperation × ℕ)) :
    (prepareBatchUpdate env storage storageLogs).result =
      AccountTree.prepareBatchUpdate env storage storageLogs := by
  simp only [prepareBatchUpdate, Recorded.result_bind, result_updateMap]
  rfl

@[simp] theorem result_calculateOp (hasher : Hasher Row) (depth : ℕ)
    (curChanges : KeyedMap ℕ (List TreeKey)) (nextIdx : ℕ) (curPathMap : UpdateMap)
    (op : (Bool × Update) × Option (Option NodeEntry)) :
    (calculateOp hasher depth curChanges nextIdx curPathMap op).result =
      UpdatesBatch.calculateOp hasher depth curChanges nextIdx curPathMap op := by
  simp only [calculateOp, Recorded.result_bind, Recorded.result_lift]
  exact bind_pure _

@[simp] theorem result_calculateOps (hasher : Hasher Row) (depth : ℕ)
    (curChanges : KeyedMap ℕ (List TreeKey)) (nextIdx : ℕ) (curPathMap : UpdateMap)
    (ops : List ((Bool × Update) × Option (Option NodeEntry))) :
    (calculateOps hasher depth curChanges nextIdx curPathMap ops).result =
      UpdatesBatch.calculateOps hasher depth curChanges nextIdx curPathMap ops := by
  induction ops generalizing curPathMap with
  | nil => rfl
  | cons op ops ih =>
    simp only [calculateOps, Recorded.result_bind, result_calculateOp, ih,
      UpdatesBatch.calculateOps]
    rfl

@[simp] theorem result_calculateParents (hasher : Hasher Row) (depth : ℕ)
    (curChanges : KeyedMap ℕ (List TreeKey)) (curPathMap : UpdateMap)
    (parents : List (ℕ × (Option (List Update) × Option (List Update)))) :
    (calculateParents hasher depth curChanges curPathMap parents).result =
      UpdatesBatch.calculateParents hasher depth curChanges curPathMap parents := by
  induction parents generalizing curPathMap with
  | nil => rfl
  | cons parent parents ih =>
    simp only [calculateParents, Recorded.result_bind, result_calculateOps, ih,
      UpdatesBatch.calculateParents]
    rfl

@[simp] theorem result_calculateLevel (hasher : Hasher Row) (sched : Schedule Row)
    (s : UpdatesBatch.LevelState Row) (depth : ℕ) :
    (calculateLevel hasher sched s depth).result =
      UpdatesBatch.calculateLevel hasher sched s depth := by
  simp only [calculateLevel, Recorded.result_bind, Recorded.result_lift, result_calculateParents]
  rfl

@[simp] theorem result_calculate (hasher : Hasher Row) (sched : Schedule Row)
    (batch : UpdatesBatch) :
    (calculate hasher sched batch).result = batch.calculate hasher sched := by
  simp only [calculate, Recorded.result_bind, Recorded.result_foldlM, result_calculateLevel]
  rfl

/-- Forgetting the calls gives the batch as it runs. -/
theorem result_runBatch (env : TreeEnv Row) (sched : Schedule Row) (tree : AccountTree)
    (storageLogsWithBlocks : List BlockLog) :
    (runBatch env sched tree storageLogsWithBlocks).result =
      AccountTree.runBatch env sched tree storageLogsWithBlocks := by
  simp only [runBatch, Recorded.result_bind, Recorded.result_lift, result_prepareBatchUpdate,
    result_calculate]
  rfl

open UpdatesBatch

/-- A node on the path of one of the keys, or its neighbour. -/
def OnPath (keys : List TreeKey) (value : ℕ) : Prop :=
  ∃ key ∈ keys, ∃ h neiFlag, value = neighborIdx (treeKeyToU256 key / 2 ^ h) neiFlag

variable {P : ℕ → Prop} {keys : List TreeKey}

theorem all_u256ToTreeKey {value : ℕ} (h : P value) : Recorded.All P (u256ToTreeKey value) :=
  (Recorded.all_record h).bind fun _ _ => Recorded.all_pure _

section Prepare

variable {env : TreeEnv Row} {storage : Storage}
  {storageLogs : List (TreeKey × TreeOperation × ℕ)} {neiFlag : Bool}

theorem all_getLeavesPaths :
    Recorded.All (OnPath keys) (getLeavesPaths env storage keys neiFlag) := by
  refine .mapM fun key hkey => .mapM fun lvlIdx hlvlIdx => ?_
  obtain ⟨level, -, rfl⟩ := List.mem_map.mp hlvlIdx
  refine (Recorded.all_lift _).bind fun node _ => ?_
  exact (all_u256ToTreeKey ⟨key, hkey, _, neiFlag, rfl⟩).bind fun _ _ => Recorded.all_pure _

/-- Every node of the path of a key is asked for. -/
theorem mem_getLeavesPaths {paths : List (List (TreeKey × TreeKey))}
    (hpaths : AccountTree.getLeavesPaths env storage keys neiFlag = .ok paths) {key : TreeKey}
    (hkey : key ∈ keys) {h : ℕ} (hh : h < rootTreeDepth) :
    neighborIdx (treeKeyToU256 key / 2 ^ h) neiFlag ∈
      (getLeavesPaths env storage keys neiFlag).calls := by
  rw [← result_getLeavesPaths] at hpaths
  refine Recorded.mem_mapM hpaths hkey ?_
  rw [getLeavesPaths, Recorded.result_mapM] at hpaths
  obtain ⟨path, -, hpath⟩ := (Seq.mem_mapM hpaths).1 key hkey
  have hlvlIdx : (rootTreeDepth - h, neighborIdx (treeKeyToU256 key / 2 ^ h) neiFlag) ∈
      idxToMerklePath (treeKeyToU256 key) neiFlag := by
    refine List.mem_map.mpr ⟨rootTreeDepth - h - 1, List.mem_range.mpr (by omega), ?_⟩
    rw [Nat.sub_add_cancel (by omega), Nat.sub_sub_self hh.le]
  refine Recorded.mem_mapM hpath hlvlIdx ?_
  rw [Recorded.result_mapM] at hpath
  obtain ⟨node, -, hnode⟩ := (Seq.mem_mapM hpath).1 _ hlvlIdx
  rw [result_hashByLvlIdx] at hnode
  exact Recorded.mem_bind_right hnode (Recorded.mem_bind_left _ List.mem_cons_self)

theorem all_updateMap :
    Recorded.All (OnPath (storageLogs.map fun log => log.1))
      (updateMap env storage storageLogs neiFlag) :=
  (all_getLeavesPaths.bind fun _ _ => Recorded.all_pure _).bind fun _ _ =>
    (Recorded.all_lift _).bind fun _ _ => Recorded.all_pure _

theorem all_prepareBatchUpdate :
    Recorded.All (OnPath (storageLogs.map fun log => log.1))
      (prepareBatchUpdate env storage storageLogs) :=
  all_updateMap.bind fun _ _ => all_updateMap.bind fun _ _ => Recorded.all_pure _

theorem mem_updateMap {map : UpdateMap}
    (hmap : AccountTree.updateMap env storage storageLogs neiFlag = .ok map) {key : TreeKey}
    (hkey : key ∈ storageLogs.map fun log => log.1) {h : ℕ} (hh : h < rootTreeDepth) :
    neighborIdx (treeKeyToU256 key / 2 ^ h) neiFlag ∈
      (updateMap env storage storageLogs neiFlag).calls := by
  obtain ⟨leaves, hleaves, -⟩ := Seq.bind_eq_ok.mp hmap
  obtain ⟨paths, hpaths, -⟩ := Seq.bind_eq_ok.mp hleaves
  exact Recorded.mem_bind_left _ (Recorded.mem_bind_left _ (mem_getLeavesPaths hpaths hkey hh))

theorem mem_prepareBatchUpdate {batch : UpdatesBatch}
    (hbatch : AccountTree.prepareBatchUpdate env storage storageLogs = .ok batch) {key : TreeKey}
    (hkey : key ∈ storageLogs.map fun log => log.1) {h : ℕ} (hh : h < rootTreeDepth)
    (neiFlag : Bool) : neighborIdx (treeKeyToU256 key / 2 ^ h) neiFlag ∈
      (prepareBatchUpdate env storage storageLogs).calls := by
  obtain ⟨preMap, hpreMap, hbatch⟩ := Seq.bind_eq_ok.mp hbatch
  obtain ⟨map, hmap, -⟩ := Seq.bind_eq_ok.mp hbatch
  cases neiFlag with
  | false => exact Recorded.mem_bind_left _ (mem_updateMap hpreMap hkey hh)
  | true =>
    rw [← result_updateMap] at hpreMap
    exact Recorded.mem_bind_right hpreMap (Recorded.mem_bind_left _ (mem_updateMap hmap hkey hh))

/-- The prepared updates stand under the keys of the logs. -/
theorem updateMap_keys {map : UpdateMap}
    (hmap : AccountTree.updateMap env storage storageLogs neiFlag = .ok map) {p : ℕ}
    (hp : p ∈ map.toList.map Prod.fst) :
    ∃ key ∈ storageLogs.map fun log => log.1, p = treeKeyToU256 key := by
  obtain ⟨paths, -, hmap⟩ := Seq.bind_eq_ok.mp hmap
  obtain ⟨updates, hupdates, hmap⟩ := Seq.bind_eq_ok.mp hmap
  cases hmap
  obtain ⟨⟨p, items⟩, he, rfl⟩ := List.mem_map.mp hp
  have hmem := KeyedMap.mem_of_lookup_ofList (KeyedMap.mem_toList.mp he)
  obtain ⟨⟨key, group⟩, hgroup, hfirst⟩ := List.mem_filterMap.mp hmem
  obtain ⟨first, hhead, heq⟩ := Option.map_eq_some_iff.mp hfirst
  obtain ⟨rfl, -⟩ := Prod.mk.inj heq
  obtain ⟨-, rfl⟩ := KeyedMap.mem_groupBy.mp hgroup
  have hupdate := List.mem_of_mem_filter (List.mem_of_mem_head? hhead)
  obtain ⟨⟨parentNodes, log, opIdx⟩, hitem, hkeyed⟩ := (Seq.mem_mapM hupdates).2 _ hupdate
  obtain ⟨update, -, hkeyed⟩ := Seq.bind_eq_ok.mp hkeyed
  cases hkeyed
  have hlog := List.fst_mem_of_mem_zipIdx (List.of_mem_zip hitem).2
  exact ⟨log.1, List.mem_map_of_mem hlog, rfl⟩

end Prepare

section Calculate

variable {hasher : Hasher Row} {depth : ℕ} {curChanges : KeyedMap ℕ (List TreeKey)}

theorem all_calculateOps {nextIdx : ℕ} (h : P nextIdx) (curPathMap : UpdateMap)
    (ops : List ((Bool × Update) × Option (Option NodeEntry))) :
    Recorded.All P (calculateOps hasher depth curChanges nextIdx curPathMap ops) := by
  induction ops generalizing curPathMap with
  | nil => exact Recorded.all_pure _
  | cons op ops ih =>
    have hop : Recorded.All P (calculateOp hasher depth curChanges nextIdx curPathMap op) :=
      (Recorded.all_lift _).bind fun _ _ => (all_u256ToTreeKey h).bind fun _ _ =>
        (all_u256ToTreeKey h).bind fun _ _ => Recorded.all_pure _
    exact hop.bind fun head _ => (ih head.2.1).bind fun _ _ => Recorded.all_pure _

theorem all_calculateParents (curPathMap : UpdateMap)
    {parents : List (ℕ × (Option (List Update) × Option (List Update)))}
    (h : ∀ parent ∈ parents, P parent.1) :
    Recorded.All P (calculateParents hasher depth curChanges curPathMap parents) := by
  induction parents generalizing curPathMap with
  | nil => exact Recorded.all_pure _
  | cons parent parents ih =>
    refine (all_calculateOps (h parent List.mem_cons_self) curPathMap _).bind fun head _ => ?_
    exact (ih head.2.1 fun parent' hparent' =>
      h parent' (List.mem_cons_of_mem parent hparent')).bind fun _ _ => Recorded.all_pure _

/-- The new updates stand under the parents. -/
theorem calculateParents_keys {curPathMap : UpdateMap}
    {parents : List (ℕ × (Option (List Update) × Option (List Update)))}
    {level : List (ℕ × List Update) × UpdateMap × List (ℕ × HashTrace Row)}
    (h : UpdatesBatch.calculateParents hasher depth curChanges curPathMap parents = .ok level) :
    level.1.map Prod.fst = parents.map Prod.fst := by
  induction parents generalizing curPathMap level with
  | nil =>
    cases h
    rfl
  | cons parent parents ih =>
    obtain ⟨head, -, h⟩ := Seq.bind_eq_ok.mp h
    obtain ⟨rest, hrest, h⟩ := Seq.bind_eq_ok.mp h
    cases h
    exact congrArg (List.cons parent.1) (ih hrest)

/-- The updates of a level stand under nodes on the paths of the keys. -/
def Above (keys : List TreeKey) (d : ℕ) (s : LevelState Row) : Prop :=
  ∀ p ∈ s.curLvlUpdatesMap.toList.map Prod.fst, ∃ key ∈ keys, p = treeKeyToU256 key / 2 ^ d

variable {sched : Schedule Row} {s s' : LevelState Row} {d : ℕ}

theorem Above.parent (h : Above keys d s) {p : ℕ}
    (hp : p ∈ (childUpdates s.curLvlUpdatesMap).map Prod.fst) :
    ∃ key ∈ keys, p = treeKeyToU256 key / 2 ^ (d + 1) := by
  rw [childUpdates_keys] at hp
  obtain ⟨e, he, rfl⟩ := KeyedMap.mem_keys_groupBy.mp hp
  obtain ⟨key, hkey, hidx⟩ := h e.1 (List.mem_map_of_mem he)
  refine ⟨key, hkey, ?_⟩
  rw [hidx, Nat.div_div_eq_div_mul, pow_succ]

theorem all_calculateLevel (h : Above keys d s) :
    Recorded.All (OnPath keys) (calculateLevel hasher sched s d) := by
  refine (Recorded.all_lift _).bind fun curChanges _ => ?_
  refine (all_calculateParents s.curPathMap fun parent hparent => ?_).bind fun _ _ =>
    Recorded.all_pure _
  obtain ⟨key, hkey, hidx⟩ := h.parent (List.mem_map_of_mem hparent)
  exact ⟨key, hkey, d + 1, false, hidx⟩

theorem Above.step (h : Above keys d s)
    (hlevel : UpdatesBatch.calculateLevel hasher sched s d = .ok s') : Above keys (d + 1) s' := by
  obtain ⟨curChanges, -, hlevel⟩ := Seq.bind_eq_ok.mp hlevel
  obtain ⟨level, hparents, hlevel⟩ := Seq.bind_eq_ok.mp hlevel
  cases hlevel
  intro p hp
  obtain ⟨⟨p, updates⟩, he, rfl⟩ := List.mem_map.mp hp
  have hmem := KeyedMap.mem_of_lookup_ofList (KeyedMap.mem_toList.mp he)
  have hkeys := calculateParents_keys hparents
  exact h.parent (hkeys ▸ List.mem_map_of_mem hmem)

theorem all_calculate {batch : UpdatesBatch}
    (h : ∀ p ∈ batch.updates.toList.map Prod.fst, ∃ key ∈ keys, p = treeKeyToU256 key) :
    Recorded.All (OnPath keys) (calculate hasher sched batch) := by
  have hstart : Above keys 0 (⟨batch.updates, batch.preUpdates, []⟩ : LevelState Row) := by
    intro p hp
    obtain ⟨key, hkey, rfl⟩ := h p hp
    exact ⟨key, hkey, (Nat.div_one _).symm⟩
  have hlevels := Recorded.All.foldlM_range (f := calculateLevel hasher sched) (Above keys)
    (n := rootTreeDepth) (fun _ _ => all_calculateLevel)
    (fun d s s' h hlevel => h.step (result_calculateLevel hasher sched s d ▸ hlevel)) hstart
  exact hlevels.1.bind fun _ _ => Recorded.all_pure _

end Calculate

section Batch

variable {env : TreeEnv Row} {sched : Schedule Row} {tree : AccountTree} {logs : List BlockLog}

theorem withLeafIndex_key {leafIndices : List LeafIndices} (log : BlockLog)
    (indexed : TreeKey × TreeOperation × ℕ)
    (h : AccountTree.withLeafIndex leafIndices log = .ok indexed) : indexed.1 = log.2.1 := by
  obtain ⟨blockIndices, -, h⟩ := Seq.bind_eq_ok.mp h
  obtain ⟨leafIndex, -, h⟩ := Seq.bind_eq_ok.mp h
  cases h
  rfl

/-- In every run, also in one that fails, only nodes on the paths of the keys and their neighbours
are converted. -/
theorem all_runBatch :
    Recorded.All (OnPath (logs.map fun log => log.2.1)) (runBatch env sched tree logs) := by
  refine (Recorded.all_lift _).bind fun indexed hindexed => ?_
  have hkeys : (indexed.map fun log => log.1) = logs.map fun log => log.2.1 :=
    Seq.map_of_mapM withLeafIndex_key hindexed
  rw [← hkeys]
  refine all_prepareBatchUpdate.bind fun batch hbatch => ?_
  rw [result_prepareBatchUpdate] at hbatch
  obtain ⟨preMap, -, hbatch⟩ := Seq.bind_eq_ok.mp hbatch
  obtain ⟨map, hmap, hbatch⟩ := Seq.bind_eq_ok.mp hbatch
  cases hbatch
  refine (all_calculate fun p hp => updateMap_keys hmap hp).bind fun updates _ => ?_
  exact (Recorded.all_lift _).bind fun _ _ => (Recorded.all_lift _).bind fun _ _ =>
    Recorded.all_pure _

/-- A run that returns has converted every node on the path of a key, and its neighbour. -/
theorem mem_runBatch {run : AccountTree.BatchRun Row}
    (hrun : AccountTree.runBatch env sched tree logs = .ok run) {log : BlockLog} (hlog : log ∈ logs)
    {h : ℕ} (hh : h < rootTreeDepth) (neiFlag : Bool) :
    neighborIdx (treeKeyToU256 log.2.1 / 2 ^ h) neiFlag ∈ (runBatch env sched tree logs).calls := by
  obtain ⟨indexed, hindexed, hrun⟩ := Seq.bind_eq_ok.mp hrun
  obtain ⟨batch, hbatch, -⟩ := Seq.bind_eq_ok.mp hrun
  have hkeys : (indexed.map fun log => log.1) = logs.map fun log => log.2.1 :=
    Seq.map_of_mapM withLeafIndex_key hindexed
  have hkey : log.2.1 ∈ indexed.map fun log => log.1 := by
    rw [hkeys]
    exact List.mem_map_of_mem hlog
  exact Recorded.mem_bind_right hindexed
    (Recorded.mem_bind_left _ (mem_prepareBatchUpdate hbatch hkey hh neiFlag))

end Batch

end IndexCalls

end OlaOs
