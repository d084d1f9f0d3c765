import Mathlib.Data.List.SplitBy
import OlaOs.Lib.KeyedMap
import OlaOs.Tree.Config

/-! `Storage` (`merkle_tree/src/storage.rs`): the wrapper around RocksDB. Node records and leaf
indices share the column family `LeafIndices` under binary keys; a stored value is either the
32 bytes of a hash or the 8 bytes of an index. Reads of the database succeed. -/
namespace OlaOs

variable {Row : Type}

inductive DbValue where
  | hash (value : TreeKey)
  | index (value : ℕ)
  deriving DecidableEq

/-- The contents of the database: the column family `LeafIndices`, and the block number, the
only record of the column family `Tree`. -/
structure Db where
  leafIndices : List UInt8 → Option DbValue
  blockNumber : Option ℕ

def Db.empty : Db := ⟨fun _ => none, none⟩

abbrev PendingPatch := KeyedMap (List UInt8) DbValue

structure Storage where
  db : Db
  putPendingPatch : PendingPatch
  deletePendingPatch : List (List UInt8)

/-- `LEAF_INDEX_KEY`, the bytes of `leaf_index`. -/
def leafIndexKey : List UInt8 := [108, 101, 97, 102, 95, 105, 110, 100, 101, 120]

def serializeTreeLeaf (leaf : TreeValue) : List UInt8 := treeKeyToU8Arr leaf

/-- The tree key of a storage key. -/
def TreeEnv.treeKeyOf (env : TreeEnv Row) (key : StorageKey) : TreeKey :=
  h256ToTreeKey (key.hashedKey env.poseidonHashBytes)

/-- The places of the tree: a level and an index inside it. -/
def InTree (lvlIdx : LevelIndex) : Prop := lvlIdx.1 ≤ rootTreeDepth ∧ lvlIdx.2 < 2 ^ lvlIdx.1

/-- The three kinds of records that share a column family do not meet: bincode tells nodes apart,
and no node key is the counter's key or the hash of a storage key. -/
structure TreeEnv.SeparateKeys (env : TreeEnv Row) : Prop where
  node_injective : ∀ a b, InTree a → InTree b → env.binKey a = env.binKey b → a = b
  node_ne_counter : ∀ a, InTree a → env.binKey a ≠ leafIndexKey
  node_ne_leaf : ∀ a key, InTree a → env.binKey a ≠ serializeTreeLeaf (env.treeKeyOf key)

theorem serializeTreeLeaf_ne_counter (key : TreeKey) : serializeTreeLeaf key ≠ leafIndexKey := by
  intro h
  have hlen := congrArg List.length h
  simp [serializeTreeLeaf, treeKeyToU8Arr, TreeKey.toList, leafIndexKey] at hlen

/-- `deserialize_leaf_index` reads the first eight bytes of the value. -/
def deserializeLeafIndex : DbValue → ℕ
  | .index value => value
  | .hash value => value.w0.inner.toNat

/-- A tree operation with the number of its block. -/
abbrev BlockLog := ℕ × (TreeKey × TreeOperation)

/-- `LeafIndices` -/
structure LeafIndices where
  leafIndices : KeyedMap TreeKey ℕ
  lastIndex : ℕ
  previousIndex : ℕ
  initialWrites : List InitialStorageWrite
  repeatedWrites : List RepeatedStorageWrite

namespace Storage

def new (db : Db) : Storage := ⟨db, ∅, []⟩

/-- `Storage::hash` and one entry of `Storage::hashes`: only the database is read. -/
def hash (env : TreeEnv Row) (s : Storage) (key : LevelIndex) : Option DbValue :=
  s.db.leafIndices (env.binKey key)

def preSave (env : TreeEnv Row) (s : Storage) (branches : KeyedMap LevelIndex TreeKey) : Storage :=
  { s with
    putPendingPatch := s.putPendingPatch.extend
      (branches.toList.map fun (levelIndex, treeKey) => (env.binKey levelIndex, .hash treeKey)) }

/-- The write batch of `save`: all puts, then all deletes. -/
def writeBatch (s : Storage) (blockNumber : ℕ) : Db :=
  { leafIndices := s.deletePendingPatch.foldl (fun f key => Function.update f key none)
      fun key => (s.putPendingPatch.lookup key).or (s.db.leafIndices key)
    blockNumber := some blockNumber }

/-- `Storage::save`; `written` says whether RocksDB accepts the write. The pending patch stays
in memory in either case. -/
def save (s : Storage) (blockNumber : ℕ) (written : Bool) : Except TreeError Storage :=
  if s.putPendingPatch.toList.isEmpty && s.deletePendingPatch.isEmpty then
    .error (.emptyPatch "Empty pending patch in storage")
  else if written then
    .ok { s with db := s.writeBatch blockNumber }
  else
    .error .storageIoError

/-- The mutable state of `process_leaf_indices`. -/
structure LeafScan where
  currentIndex : ℕ
  putBatch : PendingPatch
  deleteBatch : List (List UInt8)
  newWrites : KeyedMap TreeKey ℕ
  initialWrites : List InitialStorageWrite
  repeatedWrites : List RepeatedStorageWrite

def LeafScan.pushRepeated (scan : LeafScan) (index : ℕ) (value : TreeValue) : LeafScan :=
  { scan with repeatedWrites := scan.repeatedWrites ++ [⟨index, treeValueToH256 value⟩] }

/-- A first write: the leaf takes the current index. -/
def LeafScan.pushInitial (scan : LeafScan) (leaf : TreeKey) (value : TreeValue) : LeafScan :=
  { scan with
    currentIndex := scan.currentIndex + 1
    putBatch := scan.putBatch.insert (serializeTreeLeaf leaf) (.index scan.currentIndex)
    newWrites := scan.newWrites.insert leaf.canonical scan.currentIndex
    initialWrites := scan.initialWrites ++
      [⟨scan.currentIndex, treeKeyToU256 leaf, treeValueToH256 value⟩] }

/-- The body of the loop over the logs of a block: the new state and the leaf's index. -/
def scanLog (rawData : Option DbValue) (scan : LeafScan) (leaf : TreeKey)
    (treeOperation : TreeOperation) : LeafScan × ℕ :=
  match rawData, treeOperation with
  -- `current_index -= 1` on a `u64`
  | _, .delete =>
    ({ scan with
        deleteBatch := scan.deleteBatch ++ [serializeTreeLeaf leaf]
        currentIndex := (scan.currentIndex + 2 ^ 64 - 1) % 2 ^ 64 }, 0)
  | some bytes, .write value _ =>
    (scan.pushRepeated (deserializeLeafIndex bytes) value, deserializeLeafIndex bytes)
  | some bytes, .read _ => (scan, deserializeLeafIndex bytes)
  | none, .read _ => (scan, (scan.newWrites.lookup leaf.canonical).getD 0)
  | none, .write value _ =>
    match scan.newWrites.lookup leaf.canonical with
    | some index => (scan.pushRepeated index value, index)
    | none => (scan.pushInitial leaf value, scan.currentIndex)

/-- The logs of one block: the final state, and the index of each log. -/
def scanBlock (db : Db) : LeafScan → List BlockLog → LeafScan × List (TreeKey × ℕ)
  | scan, [] => (scan, [])
  | scan, (_, (leaf, treeOperation)) :: logs =>
    let step := scanLog (db.leafIndices (serializeTreeLeaf leaf)) scan leaf treeOperation
    let rest := scanBlock db step.1 logs
    (rest.1, (leaf, step.2) :: rest.2)

def LeafScan.leafIndices (previousIndex : ℕ) (result : LeafScan × List (TreeKey × ℕ)) :
    LeafIndices :=
  { leafIndices := .ofList (result.2.map fun (leaf, index) => (leaf.canonical, index))
    lastIndex := result.1.currentIndex
    previousIndex
    initialWrites := result.1.initialWrites
    repeatedWrites := result.1.repeatedWrites }

def scanBlocks (db : Db) : LeafScan → List (List BlockLog) → LeafScan × List LeafIndices
  | scan, [] => (scan, [])
  | scan, group :: groups =>
    let result := scanBlock db { scan with initialWrites := [], repeatedWrites := [] } group
    let rest := scanBlocks db result.1 groups
    (rest.1, LeafScan.leafIndices scan.currentIndex result :: rest.2)

/-- The next free leaf index, as the database has it. -/
def currentIndex (s : Storage) : ℕ :=
  ((s.db.leafIndices leafIndexKey).map deserializeLeafIndex).getD 1

def startScan (s : Storage) : LeafScan :=
  ⟨s.currentIndex, s.putPendingPatch, s.deletePendingPatch, ∅, [], []⟩

/-- `Storage::process_leaf_indices`: consecutive logs of one block form a group. -/
def processLeafIndices (s : Storage) (storageLogs : List BlockLog) : Storage × List LeafIndices :=
  let result := scanBlocks s.db s.startScan (storageLogs.splitBy fun a b => a.1 == b.1)
  ({ s with
      putPendingPatch := result.1.putBatch.insert leafIndexKey (.index result.1.currentIndex)
      deletePendingPatch := result.1.deleteBatch }, result.2)

/-- `Storage::fetch_metadata` -/
def fetchMetadata (env : TreeEnv Row) (s : Storage) : Except Fault (Option ZkHash × ℕ) :=
  match s.hash env (0, 0) with
  | some (.hash rootHash) => .ok (some rootHash, s.db.blockNumber.getD 0)
  | some (.index _) => .error (.panic "u8_array len is not equal TreeKey len")
  | none => .ok (none, s.db.blockNumber.getD 0)

end Storage

end OlaOs
