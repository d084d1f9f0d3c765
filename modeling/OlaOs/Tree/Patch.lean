import OlaOs.Lib.KeyedMap
import OlaOs.Tree.Config
import OlaOs.Tree.MergeJoin

/-! `UpdatesBatch::calculate` (`merkle_tree/src/patch.rs`): new paths for a batch of updates,
level by level from the leaves.

The workers of one level share `cur_path_map` and `hash_trace` under locks. A worker reads the
index and the uncles of an entry of `cur_path_map` and appends to its `changes`, so workers are
run here in the order of the maps; the order in which they append to `hash_trace` is left open
and given by a `Schedule`. -/
namespace OlaOs

variable {Row : Type}

/-- `Update` -/
structure Update where
  index : ℕ
  uncles : List TreeKey
  changes : List (TreeKey × NodeEntry)
  deriving DecidableEq

/-- `ok_or(TreeError::EmptyPatch(..))` -/
def okOr {α : Type*} (msg : String) : Option α → Except Fault α
  | some a => .ok a
  | none => .error (.err (.emptyPatch msg))

@[simp] theorem okOr_some {α : Type*} (msg : String) (a : α) : okOr msg (some a) = .ok a := rfl

def Update.new (index : ℕ) (uncles : List TreeKey) (key : TreeKey) : Except Fault Update := do
  let hash ← okOr "Empty unclues array in Update::new" uncles.getLast?
  return ⟨index, uncles.dropLast, [(key, .leaf hash)]⟩

/-- Maps from a node index of the current level to the updates below that node. -/
abbrev UpdateMap := KeyedMap ℕ (List Update)

structure UpdatesBatch where
  updates : UpdateMap
  preUpdates : UpdateMap

/-- `HashTrace` -/
structure HashTrace (Row : Type) where
  hash : Row
  path : TreeKey
  sibling : TreeKey
  prePath : TreeKey
  preHash : Row

abbrev TreePatch := List (List (TreeKey × NodeEntry))

/-- On each level, some order in which the workers append to the shared trace. -/
structure Schedule (Row : Type) where
  order : ℕ → List (ℕ × HashTrace Row) → List (ℕ × HashTrace Row)
  perm : ∀ depth l, (order depth l).Perm l

/-- `compress_node!` -/
def compressNode (hasher : Hasher Row) (nei current : TreeKey) (odd : Bool) (depth : ℕ) :
    (ZkHash × Row) × NodeEntry :=
  let children := if odd then (nei, current) else (current, nei)
  let hash := hasher.compress children.1 children.2 (TreeConfig.poseidonType depth)
  (hash, .branch hash.1 children.1 children.2)

namespace UpdatesBatch

/-- The hashes that the entries of `cur_path_map` hold when the level starts. -/
def curChanges (curPathMap : UpdateMap) : Except Fault (KeyedMap ℕ (List TreeKey)) := do
  let entries ← curPathMap.toList.mapM fun (key, updates) => do
    let changes ← updates.mapM fun e => do
      let change ← okOr "Empty update array in pre_updates" e.changes.getLast?
      return change.2.hash
    return (key, changes)
  return .ofList entries

/-- Updates grouped by the parent node, as its left and its right child. -/
def childUpdates (curLvlUpdatesMap : UpdateMap) :
    List (ℕ × (Option (List Update) × Option (List Update))) :=
  (KeyedMap.groupBy (fun item => item.1 / 2) curLvlUpdatesMap.toList).toList.map
    fun (nextIdx, items) => (nextIdx, items.foldl (fun acc item =>
      if item.1 % 2 = 1 then (acc.1, some item.2) else (some item.2, acc.2)) (none, none))

/-- The updates of both children in the order of the operations, each with the last entry of its
predecessor in the other child. -/
def mergedOps (leftUpdates rightUpdates : Option (List Update)) :
    List ((Bool × Update) × Option (Option NodeEntry)) :=
  MergeJoinWithMaxPredecessor.collect
    (fun item => item.2.changes.getLast?.map Prod.snd)
    (fun left right => compare left.2.index right.2.index)
    ((leftUpdates.getD []).map fun update => (false, update))
    ((rightUpdates.getD []).map fun update => (true, update))

/-- Position of an operation among the updates of its node. -/
def updateIndex (pathUpdates : List Update) (index : ℕ) : Option ℕ :=
  ((pathUpdates.zipIdx.filter fun e => e.1.index = index).map Prod.snd).head?

/-- What stood at the node before the operation: the database value for the first update of the
node, the hash of the previous update otherwise. -/
def prePath (pathUpdates : List Update) (curChange : List TreeKey) (updateIndex : ℕ) :
    Except Fault TreeKey :=
  if updateIndex = 0 then do
    let update ← okOr s!"No such data at index {updateIndex} in cur_path_map"
      pathUpdates[updateIndex]?
    okOr "Empty uncles array in cur_path_map" update.uncles.getLast?
  else
    okOr s!"No such data at index {updateIndex - 1} in cur_path_map" curChange[updateIndex - 1]?

/-- One worker: the node above the current node of one operation. -/
def calculateOp (hasher : Hasher Row) (depth : ℕ) (curChanges : KeyedMap ℕ (List TreeKey))
    (nextIdx : ℕ) (curPathMap : UpdateMap) (op : (Bool × Update) × Option (Option NodeEntry)) :
    Except Fault (Update × UpdateMap × (ℕ × HashTrace Row)) := do
  let odd := op.1.1
  let update := op.1.2
  let current ← okOr "Empty changes array in merged_ops" update.changes.getLast?
  let siblingHash ← okOr "Empty uncles array in merged_ops" update.uncles.getLast?
  let neiHash := (op.2.join.map NodeEntry.hash).getD siblingHash
  let curKey := treeKeyToU256 current.1
  let pathUpdates ← okOr s!"No such key {curKey} in cur_path_map" (curPathMap.lookup curKey)
  let position ← match updateIndex pathUpdates update.index with
    | some position => .ok position
    | none => .error (.panic "index out of bounds")
  let curChange ← okOr s!"No such key {curKey} in cur_changes" (curChanges.lookup curKey)
  let prePath ← prePath pathUpdates curChange position
  let node := compressNode hasher neiHash current.2.hash odd depth
  let preNode := compressNode hasher neiHash prePath odd depth
  let change := (u256ToTreeKey nextIdx, node.2)
  return ({ update with uncles := update.uncles.dropLast, changes := update.changes ++ [change] },
    curPathMap.insert curKey (pathUpdates.modify position fun u =>
      { u with changes := u.changes ++ [change] }),
    (update.index, ⟨node.1.2, current.2.hash, neiHash, prePath, preNode.1.2⟩))

def calculateOps (hasher : Hasher Row) (depth : ℕ) (curChanges : KeyedMap ℕ (List TreeKey))
    (nextIdx : ℕ) : UpdateMap → List ((Bool × Update) × Option (Option NodeEntry)) →
      Except Fault (List Update × UpdateMap × List (ℕ × HashTrace Row))
  | curPathMap, [] => .ok ([], curPathMap, [])
  | curPathMap, op :: ops => do
    let head ← calculateOp hasher depth curChanges nextIdx curPathMap op
    let rest ← calculateOps hasher depth curChanges nextIdx head.2.1 ops
    return (head.1 :: rest.1, rest.2.1, head.2.2 :: rest.2.2)

def calculateParents (hasher : Hasher Row) (depth : ℕ) (curChanges : KeyedMap ℕ (List TreeKey)) :
    UpdateMap → List (ℕ × (Option (List Update) × Option (List Update))) →
      Except Fault (List (ℕ × List Update) × UpdateMap × List (ℕ × HashTrace Row))
  | curPathMap, [] => .ok ([], curPathMap, [])
  | curPathMap, (nextIdx, (leftUpdates, rightUpdates)) :: parents => do
    let head ← calculateOps hasher depth curChanges nextIdx curPathMap
      (mergedOps leftUpdates rightUpdates)
    let rest ← calculateParents hasher depth curChanges head.2.1 parents
    return ((nextIdx, head.1) :: rest.1, rest.2.1, head.2.2 ++ rest.2.2)

/-- `cur_path_map` for the next level: the entries of both children together, in the order of
the operations, each without its last uncle. -/
def regroupPath (curPathMap : UpdateMap) : UpdateMap :=
  .ofList ((KeyedMap.groupBy (fun e => e.1 / 2) curPathMap.toList).toList.map
    fun (nextIdx, items) =>
      (nextIdx, (items.flatMap fun e => e.2.map fun update =>
        { update with uncles := update.uncles.dropLast }).mergeSort
          fun a b => decide (a.index ≤ b.index)))

structure LevelState (Row : Type) where
  curLvlUpdatesMap : UpdateMap
  curPathMap : UpdateMap
  hashTrace : List (ℕ × HashTrace Row)

def calculateLevel (hasher : Hasher Row) (sched : Schedule Row) (s : LevelState Row)
    (depth : ℕ) : Except Fault (LevelState Row) := do
  let curChanges ← curChanges s.curPathMap
  let level ← calculateParents hasher depth curChanges s.curPathMap
    (childUpdates s.curLvlUpdatesMap)
  return ⟨.ofList level.1, regroupPath level.2.1, s.hashTrace ++ sched.order depth level.2.2⟩

/-- `UpdatesBatch::calculate` -/
def calculate (hasher : Hasher Row) (sched : Schedule Row) (batch : UpdatesBatch) :
    Except Fault (TreePatch × List (ℕ × HashTrace Row)) := do
  let final ← (List.range rootTreeDepth).foldlM (calculateLevel hasher sched)
    ⟨batch.updates, batch.preUpdates, []⟩
  return (final.curLvlUpdatesMap.toList.flatMap fun e => e.2.map Update.changes, final.hashTrace)

end UpdatesBatch

end OlaOs
