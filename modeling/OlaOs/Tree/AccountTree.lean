import OlaOs.Tree.Patch
import OlaOs.Tree.Storage
import OlaOs.Types.Log

/-! `AccountTree` (`merkle_tree/src/tree.rs`, `utils.rs`): how a block of storage logs is read
from the database, applied, and turned into metadata and the storage witness. The tree
configuration is a function of the hasher and not part of the state. -/
namespace OlaOs

variable {Row : Type}

def neighborIdx (idx : ℕ) (neiFlag : Bool) : ℕ := if neiFlag then idx ^^^ 1 else idx

def idxToMerklePath (idx : ℕ) (neiFlag : Bool) : List LevelIndex :=
  (List.range rootTreeDepth).map fun level =>
    (level + 1, neighborIdx (idx / 2 ^ (rootTreeDepth - (level + 1))) neiFlag)

/-- Indexing and unwrapping, which panic on a missing value. -/
def orPanic {α : Type} (msg : String) : Option α → Except Fault α
  | some a => .ok a
  | none => .error (.panic msg)

@[simp] theorem orPanic_some {α : Type} (msg : String) (a : α) :
    orPanic msg (some a) = .ok a := rfl

/-- `ok_or(TreeError::LeafIndexNotFound)` -/
def okOrNotFound {α : Type} : Option α → Except Fault α
  | some a => .ok a
  | none => .error (.err .leafIndexNotFound)

@[simp] theorem okOrNotFound_some {α : Type} (a : α) : okOrNotFound (some a) = .ok a := rfl

/-- `StorageLogMetadata` (`types/src/proofs.rs`) -/
structure StorageLogMetadata where
  rootHash : TreeKey
  isWrite : Bool
  firstWrite : Bool
  merklePaths : List TreeKey
  leafHashedKey : TreeKey
  leafEnumerationIndex : ℕ
  valueWritten : TreeValue
  valueRead : TreeValue
  deriving DecidableEq

/-- `StorageHashRow` -/
structure StorageHashRow where
  storageAccessIdx : ℕ
  preRoot : ZkHash
  root : ZkHash
  isWrite : GoldilocksField
  hashType : GoldilocksField
  preHash : ZkHash
  hash : ZkHash
  layer : ℕ
  layerBit : ℕ
  addrAcc : GoldilocksField
  addr : TreeKey
  prePath : TreeKey
  path : TreeKey
  sibling : TreeKey
  deriving DecidableEq

structure StorageUpdateTrace (Row : Type) where
  storageAccesses : List StorageHashRow
  programHashAccess : List StorageHashRow
  storageRelatedPoseidon : List Row

structure TreeMetadata (Row : Type) where
  rootHash : ZkHash
  rollupLastLeafIndex : ℕ
  initialWrites : List InitialStorageWrite
  repeatedWrites : List RepeatedStorageWrite
  witness : Option (StorageUpdateTrace Row)

structure AccountTree where
  storage : Storage
  rootHash : ZkHash
  blockNumber : ℕ

/-- The value that an operation puts on its leaf. -/
def TreeOperation.leafHash (hasher : Hasher Row) : TreeOperation → TreeValue
  | .write value _ => value
  | .read value => value
  | .delete => TreeConfig.emptyLeaf hasher

namespace TreeOperation

def isWrite : TreeOperation → Bool
  | .read _ => false
  | _ => true

def valueWritten : TreeOperation → TreeValue
  | .write value _ => value
  | _ => treeKeyDefault

def valueRead : TreeOperation → TreeValue
  | .write _ previousValue => previousValue
  | .read value => value
  | .delete => treeKeyDefault

end TreeOperation

namespace AccountTree

/-- `AccountTree::new_with_db` -/
def newWithDb (env : TreeEnv Row) (db : Db) : Except Fault AccountTree := do
  let storage := Storage.new db
  let emptyTree ← TreeConfig.emptyTree env.hasher
  let metadata ← storage.fetchMetadata env
  let defaultRootHash ← orPanic "index out of bounds" (emptyTree.head?.map NodeEntry.hash)
  return ⟨storage, metadata.1.getD defaultRootHash, metadata.2⟩

/-- A node as the database has it, or the empty subtree of its level. -/
def hashByLvlIdx (env : TreeEnv Row) (storage : Storage) (lvlIdx : LevelIndex) :
    Except Fault (TreeKey × TreeKey) := do
  let value ← match storage.hash env lvlIdx with
    | some (.hash value) => .ok value
    | some (.index _) => .error (.panic "u8_array len is not equal TreeKey len")
    | none => do
      let emptyTree ← TreeConfig.emptyTree env.hasher
      orPanic "index out of bounds" (emptyTree[lvlIdx.1]?.map NodeEntry.hash)
  return (u256ToTreeKey lvlIdx.2, value)

def getLeavesPaths (env : TreeEnv Row) (storage : Storage) (ids : List TreeKey) (neiFlag : Bool) :
    Except Fault (List (List (TreeKey × TreeKey))) :=
  ids.mapM fun idx => (idxToMerklePath (treeKeyToU256 idx) neiFlag).mapM (hashByLvlIdx env storage)

def hashPathsToLeaves (env : TreeEnv Row) (storage : Storage)
    (storageLogs : List (TreeKey × TreeOperation × ℕ)) (neiFlag : Bool) :
    Except Fault (List (List TreeKey)) := do
  let paths ← getLeavesPaths env storage (storageLogs.map fun log => log.1) neiFlag
  return (paths.zip storageLogs).map fun (currentPath, (_, operation, _)) =>
    currentPath.map Prod.snd ++ [operation.leafHash env.hasher]

/-- The update of one operation under its key. -/
def keyedUpdate (item : List TreeKey × ((TreeKey × TreeOperation × ℕ) × ℕ)) :
    Except Fault (TreeKey × Update) := do
  let (parentNodes, ((key, _, _), opIdx)) := item
  let update ← Update.new opIdx parentNodes key
  return (key, update)

/-- The updates grouped by their key. The hash map compares tree keys by their canonical
representatives and keeps the key it was first given. -/
def updateMap (env : TreeEnv Row) (storage : Storage)
    (storageLogs : List (TreeKey × TreeOperation × ℕ)) (neiFlag : Bool) :
    Except Fault UpdateMap := do
  let paths ← hashPathsToLeaves env storage storageLogs neiFlag
  let updates ← (paths.zip storageLogs.zipIdx).mapM keyedUpdate
  let map := KeyedMap.groupBy (fun e => e.1.canonical) updates
  return .ofList (map.toList.filterMap fun (_, items) =>
    items.head?.map fun first => (treeKeyToU256 first.1, items.map Prod.snd))

def prepareBatchUpdate (env : TreeEnv Row) (storage : Storage)
    (storageLogs : List (TreeKey × TreeOperation × ℕ)) : Except Fault UpdatesBatch := do
  let preMap ← updateMap env storage storageLogs false
  let map ← updateMap env storage storageLogs true
  return ⟨map, preMap⟩

def makeNode (level : ℕ) (key : TreeKey) (node : NodeEntry) : LevelIndex × TreeKey :=
  ((rootTreeDepth - level, treeKeyToU256 key), node.hash)

/-- The neighbours along the path of one operation, read off the branches of its patch. -/
def merklePaths (leafHashedKey : TreeKey) (entries : List (TreeKey × NodeEntry)) : List TreeKey :=
  entries.zipIdx.filterMap fun ((_, node), level) =>
    match node with
    | .branch _ leftHash rightHash =>
      some (if treeKeyToU256 leafHashedKey / 2 ^ (level - 1) % 2 = 0 then rightHash else leftHash)
    | .leaf _ => none

/-- The body of the fold of `apply_patch`. -/
def applyPatchStep (leafIndices : List LeafIndices)
    (acc : KeyedMap LevelIndex TreeKey × List StorageLogMetadata)
    (item : List (TreeKey × NodeEntry) × BlockLog) :
    Except Fault (KeyedMap LevelIndex TreeKey × List StorageLogMetadata) := do
  let (entries, (block, (_, storageLog))) := item
  let first ← okOr "Empty patch apply_patch" entries.head?
  let leafHashedKey := first.1
  let blockIndices ← okOrNotFound leafIndices[block]?
  let leafIndex ← okOrNotFound (blockIndices.leafIndices.lookup leafHashedKey.canonical)
  let branches := acc.1.extend
    (entries.zipIdx.map fun ((key, node), level) => makeNode level key node)
  let rootHash ← okOr "Empty branches apply_patch" (branches.lookup (0, 0))
  return (branches, acc.2 ++ [{
    rootHash, leafHashedKey
    isWrite := storageLog.isWrite
    firstWrite := storageLog.isWrite && decide (blockIndices.previousIndex ≤ leafIndex)
    merklePaths := merklePaths leafHashedKey entries
    leafEnumerationIndex := leafIndex
    valueWritten := storageLog.valueWritten
    valueRead := storageLog.valueRead }])

/-- `apply_patch` up to `pre_save`: the node map and the metadata of each log. -/
def applyPatch (patch : TreePatch) (storageLogs : List BlockLog) (leafIndices : List LeafIndices) :
    Except Fault (KeyedMap LevelIndex TreeKey × List StorageLogMetadata) :=
  (patch.zip storageLogs).foldlM (applyPatchStep leafIndices) (∅, [])

/-- The rows of the trace by operation, each group in the order of the trace. -/
def groupTraces (groupSize : ℕ) (hashTrace : List (ℕ × HashTrace Row)) :
    Except Fault (List (HashTrace Row)) := do
  let groups ← hashTrace.foldlM (fun groups item =>
    if item.1 < groups.length then .ok (groups.modify item.1 fun group => group ++ [item.2])
    else .error (.panic "index out of bounds")) (List.replicate groupSize [])
  return groups.flatten

/-- The values that `apply_updates_batch` computes from the tree before it changes the tree. -/
structure BatchRun (Row : Type) where
  leafIndices : List LeafIndices
  patch : TreePatch
  hashTrace : List (HashTrace Row)
  branches : KeyedMap LevelIndex TreeKey
  patchMetadata : List StorageLogMetadata
  storage : Storage

/-- An operation with the index of its leaf. -/
def withLeafIndex (leafIndices : List LeafIndices) (log : BlockLog) :
    Except Fault (TreeKey × TreeOperation × ℕ) := do
  let (block, (key, operation)) := log
  let blockIndices ← orPanic "index out of bounds" leafIndices[block]?
  let leafIndex ← orPanic "key not found" (blockIndices.leafIndices.lookup key.canonical)
  return (key, operation, leafIndex)

def runBatch (env : TreeEnv Row) (sched : Schedule Row) (tree : AccountTree)
    (storageLogsWithBlocks : List BlockLog) : Except Fault (BatchRun Row) := do
  let (storage, leafIndices) := tree.storage.processLeafIndices storageLogsWithBlocks
  let storageLogsWithIndices ← storageLogsWithBlocks.mapM (withLeafIndex leafIndices)
  let preparedUpdates ← prepareBatchUpdate env storage storageLogsWithIndices
  let groupSize := (preparedUpdates.updates.toList.map fun update => update.2.length).sum
  let updates ← preparedUpdates.calculate env.hasher sched
  let hashTrace ← groupTraces groupSize updates.2
  let (branches, patchMetadata) ← applyPatch updates.1 storageLogsWithBlocks leafIndices
  return ⟨leafIndices, updates.1, hashTrace, branches, patchMetadata,
    storage.preSave env branches⟩

/-- The metadata of one block. -/
def blockMetadata (leafIndices : List LeafIndices) (group : List (StorageLogMetadata × BlockLog)) :
    Except Fault (TreeMetadata Row) := do
  let last ← okOr "Empty matadata in apply_update_batch" group.getLast?
  let blockIndices ← orPanic "index out of bounds" leafIndices[last.2.1]?
  return {
    rootHash := last.1.rootHash
    rollupLastLeafIndex := blockIndices.lastIndex
    initialWrites := blockIndices.initialWrites
    repeatedWrites := blockIndices.repeatedWrites
    witness := none }

/-- The logs of all blocks in order, each with the number of its block. -/
def logsWithBlocks (updatesBatch : List (List (TreeKey × TreeOperation))) : List BlockLog :=
  updatesBatch.zipIdx.flatMap fun (logs, i) => logs.map fun log => (i, log)

def applyUpdatesBatch (env : TreeEnv Row) (sched : Schedule Row) (tree : AccountTree)
    (updatesBatch : List (List (TreeKey × TreeOperation))) :
    Except Fault ((List (HashTrace Row) × List (TreeMetadata Row)) × AccountTree) := do
  let storageLogsWithBlocks := logsWithBlocks updatesBatch
  let run ← runBatch env sched tree storageLogsWithBlocks
  let rootHash := (run.patchMetadata.getLast?.map StorageLogMetadata.rootHash).getD tree.rootHash
  let groups := (run.patchMetadata.zip storageLogsWithBlocks).splitBy fun a b => a.2.1 == b.2.1
  let treeMetadata ← groups.mapM (blockMetadata run.leafIndices)
  return ((run.hashTrace, treeMetadata),
    ⟨run.storage, rootHash, (tree.blockNumber + updatesBatch.length) % 2 ^ 32⟩)

/-- The tree operation of a storage log. -/
def treeOperation (env : TreeEnv Row) (log : WitnessStorageLog) : TreeKey × TreeOperation :=
  (env.treeKeyOf log.storageLog.key,
    match log.storageLog.kind with
    | .write => .write (h256ToTreeValue log.storageLog.value) (h256ToTreeValue log.previousValue)
    | .read => .read (h256ToTreeValue log.storageLog.value))

/-- `process_blocks`; `expect` turns a returned error into a panic. -/
def processBlocks (env : TreeEnv Row) (sched : Schedule Row) (tree : AccountTree)
    (blocks : List (List WitnessStorageLog)) :
    Except Fault ((List (HashTrace Row) × List (TreeMetadata Row)) × AccountTree) :=
  let treeOperations := blocks.map fun logs => logs.map (treeOperation env)
  if treeOperations.length = 1 then
    match applyUpdatesBatch env sched tree treeOperations with
    | .ok result => .ok result
    | .error _ => .error (.panic "Failed to apply logs")
  else
    .error (.panic "Tried to process multiple blocks in lightweight mode")

/-- `slice::chunks` -/
def chunks {α : Type} (size : ℕ) (l : List α) : List (List α) :=
  (List.range ((l.length + size - 1) / size)).map fun i => (l.drop (i * size)).take size

/-- The parts of a row that are the same for all layers of one access. -/
structure AccessContext where
  storageAccessIdx : ℕ
  preRoot : ZkHash
  rootHash : ZkHash
  isWrite : GoldilocksField
  key : ℕ
  addr : TreeKey

/-- The rows of one access from the root down; `item` counts them and `acc` collects the bits
of the current limb of the address. -/
def witnessRows (env : TreeEnv Row) (ctx : AccessContext) :
    ℕ → GoldilocksField → GoldilocksField → List (HashTrace Row) → List StorageHashRow
  | _, _, _, [] => []
  | item, acc, hashType, trace :: traces =>
    let leafLayer := 255
    let layerBit := ctx.key / 2 ^ (leafLayer - item) % 2
    let layer := item + 1
    let hashType := if item = leafLayer then .one else hashType
    let acc := (acc.mul (.fromCanonicalU64 2)).add (.fromCanonicalU64 layerBit)
    { storageAccessIdx := ctx.storageAccessIdx
      preRoot := ctx.preRoot
      root := ctx.rootHash
      isWrite := ctx.isWrite
      hashType
      preHash := env.hasher.output trace.preHash
      hash := env.hasher.output trace.hash
      layer
      layerBit
      addrAcc := acc
      addr := ctx.addr
      prePath := trace.prePath
      path := trace.path
      sibling := trace.sibling } ::
    witnessRows env ctx (item + 1) (if layer % 64 = 0 then .zero else acc) hashType traces

/-- The rows of all accesses, the root of each being the old root of the next. -/
def witnessAccesses (env : TreeEnv Row) : ℕ → ZkHash →
    List (List (HashTrace Row) × WitnessStorageLog) →
      Except Fault (List StorageHashRow × List Row)
  | _, _, [] => .ok ([], [])
  | index, preRoot, (chunk, log) :: rest => do
    let last ← okOr s!"Invalid hash trace at chunk {index}" chunk.getLast?
    let rootHash := env.hasher.output last.hash
    let rows := witnessRows env
      { storageAccessIdx := index + 1
        preRoot
        rootHash
        isWrite := .fromCanonicalU64 log.storageLog.kind.toNat
        key := log.storageLog.key.hashedKeyU256 env.poseidonHashBytes
        addr := h256ToTreeKey (log.storageLog.key.hashedKey env.poseidonHashBytes) }
      0 .zero .zero chunk.reverse
    let tail ← witnessAccesses env (index + 1) rootHash rest
    return (rows ++ tail.1,
      (chunk.reverse.flatMap fun trace => [trace.hash, trace.preHash]) ++ tail.2)

def composeWitness (env : TreeEnv Row) (preRoot : ZkHash) (hashTraces : List (HashTrace Row))
    (storageLogs : List WitnessStorageLog) : Except Fault (StorageUpdateTrace Row) := do
  if hashTraces.length / rootTreeDepth ≠ storageLogs.length then
    throw (.panic "Hash trace does not match storage log")
  let accesses ← witnessAccesses env 0 preRoot
    ((chunks rootTreeDepth hashTraces).zip storageLogs)
  let rowCount := storageLogs.length * rootTreeDepth
  if accesses.1.length < rowCount then
    throw (.panic "range start index out of range")
  return ⟨accesses.1.take rowCount, accesses.1.drop rowCount, accesses.2⟩

/-- `AccountTree::process_block` -/
def processBlock (env : TreeEnv Row) (sched : Schedule Row) (tree : AccountTree)
    (storageLogs : List WitnessStorageLog) : Except Fault (TreeMetadata Row × AccountTree) := do
  let preRoot := tree.rootHash
  let ((hashTraces, treeMetadata), tree) ← processBlocks env sched tree [storageLogs]
  match treeMetadata with
  | [metadata] =>
    match composeWitness env preRoot hashTraces storageLogs with
    | .ok witness => return ({ metadata with witness := some witness }, tree)
    | .error _ => throw (.panic "called `Result::unwrap()` on an `Err` value")
  | _ => throw (.panic "Storage log and tree metadata not match!")

/-- `AccountTree::save` -/
def save (tree : AccountTree) (written : Bool) : Except TreeError AccountTree := do
  let storage ← tree.storage.save tree.blockNumber written
  return { tree with storage }

end AccountTree

end OlaOs
