import OlaOs.Lib.SparseMerkle
import OlaOs.Types.MerkleTree

/-! The hasher interface, the code outside the repository that the tree calls, and the
precomputed empty tree (`merkle_tree/src/tree_config.rs`). -/
namespace OlaOs

/-- `ROOT_TREE_DEPTH` -/
@[irreducible] def rootTreeDepth : ℕ := 256

theorem rootTreeDepth_eq : rootTreeDepth = 256 := by unfold rootTreeDepth; rfl

inductive PoseidonType where
  | leaf
  | branch
  deriving DecidableEq

/-- `Hasher<TreeValue>`: the hash of two children with the Poseidon row that computes it;
`output` is the part `output[0..4]` of such a row. -/
structure Hasher (Row : Type) where
  compress : TreeValue → TreeValue → PoseidonType → ZkHash × Row
  output : Row → ZkHash

/-- What the tree takes from other crates: the hasher, the binary key of a node
(`LevelIndex::bin_key`, by bincode) and the byte hash of storage keys. -/
structure TreeEnv (Row : Type) where
  hasher : Hasher Row
  binKey : LevelIndex → List UInt8
  poseidonHashBytes : List UInt8 → H256

inductive TreeError where
  | storageIoError
  | emptyPatch (msg : String)
  | leafIndexNotFound
  deriving DecidableEq

/-- The ways a call can end without a value: an error that is returned, or a panic. -/
inductive Fault where
  | err (e : TreeError)
  | panic (msg : String)
  deriving DecidableEq

variable {Row : Type}

namespace TreeConfig

def emptyLeaf (_hasher : Hasher Row) : ZkHash := treeKeyDefault

/-- `PoseidonType` used when the children stand at height `depth`. -/
def poseidonType (depth : ℕ) : PoseidonType := if depth = 0 then .leaf else .branch

def calcDefaultHashes (depth : ℕ) (hasher : Hasher Row) : Except String (List ZkHash) := do
  let defHashes ← (List.range depth).foldlM (fun defHashes index =>
    match defHashes.getLast? with
    | none => .error "Empty hash arry"
    | some lastHash =>
      .ok (defHashes ++ [(hasher.compress lastHash lastHash (poseidonType index)).1]))
    [emptyLeaf hasher]
  return defHashes.reverse

def calcEmptyTree (hashes : List TreeKey) : List NodeEntry :=
  ((hashes.reverse.zip (none :: hashes.reverse.map some)).map fun (hash, prevHash) =>
    match prevHash with
    | none => .leaf hash
    | some prevHash => .branch hash prevHash prevHash).reverse

/-- `TreeConfig::new`; an error is turned into a panic by its callers. -/
def emptyTree (hasher : Hasher Row) : Except Fault (List NodeEntry) :=
  match calcDefaultHashes rootTreeDepth hasher with
  | .ok hashes => .ok (calcEmptyTree hashes)
  | .error _ => .error (.panic "TreeConfig new failed")

end TreeConfig

/-- The output columns of the row of a hash hold the hash. -/
def Hasher.TraceOutput (hasher : Hasher Row) : Prop :=
  ∀ left right kind, hasher.output (hasher.compress left right kind).2 =
    (hasher.compress left right kind).1

/-- The byte hash of a storage key is made of four canonical field elements. -/
def TreeEnv.CanonicalKeys (env : TreeEnv Row) : Prop :=
  ∀ bytes, (h256ToTreeKey (env.poseidonHashBytes bytes)).Canonical

/-- The combining function of the reference tree: the bottom pair is compressed as a leaf pair
and all others as branches. -/
def Hasher.combine (hasher : Hasher Row) (height : ℕ) (left right : ZkHash) : ZkHash :=
  (hasher.compress left right (TreeConfig.poseidonType height)).1

namespace TreeConfig

theorem foldlM_defaultHashes (hasher : Hasher Row) (depth : ℕ) :
    (List.range depth).foldlM (fun defHashes index =>
      match defHashes.getLast? with
      | none => (.error "Empty hash arry" : Except String (List ZkHash))
      | some lastHash =>
        .ok (defHashes ++ [(hasher.compress lastHash lastHash (poseidonType index)).1]))
      [emptyLeaf hasher] =
    .ok ((List.range (depth + 1)).map (SparseMerkle.empty hasher.combine treeKeyDefault)) := by
  induction depth with
  | zero => rfl
  | succ depth ih =>
    rw [List.range_succ, List.foldlM_append, ih, List.range_succ (n := depth + 1)]
    simp [List.range_succ, SparseMerkle.empty, Hasher.combine, bind, Except.bind, pure, Except.pure]

theorem calcDefaultHashes_eq (hasher : Hasher Row) (depth : ℕ) :
    calcDefaultHashes depth hasher = .ok
      ((List.range (depth + 1)).map
        (SparseMerkle.empty hasher.combine treeKeyDefault)).reverse := by
  rw [calcDefaultHashes, foldlM_defaultHashes]
  rfl

theorem calcEmptyTree_hashes (hashes : List TreeKey) :
    (calcEmptyTree hashes).map NodeEntry.hash = hashes := by
  rw [calcEmptyTree, List.map_reverse, List.map_map, List.reverse_eq_iff]
  have hfst : ∀ e : TreeKey × Option TreeKey, (NodeEntry.hash ∘ fun e : TreeKey × Option TreeKey =>
      match e.2 with
      | none => NodeEntry.leaf e.1
      | some prevHash => .branch e.1 prevHash prevHash) e = e.1 := by
    rintro ⟨hash, _ | prevHash⟩ <;> rfl
  rw [List.map_congr_left fun e _ => hfst e]
  exact List.map_fst_zip (by simp)

/-- The precomputed tree; it exists for every hasher. -/
def emptyEntries (hasher : Hasher Row) : List NodeEntry :=
  calcEmptyTree ((List.range (rootTreeDepth + 1)).map
    (SparseMerkle.empty hasher.combine treeKeyDefault)).reverse

theorem emptyTree_eq (hasher : Hasher Row) : emptyTree hasher = .ok (emptyEntries hasher) := by
  simp only [emptyTree, calcDefaultHashes_eq, emptyEntries]

/-- Entry `level` of the precomputed tree holds the hash of an empty subtree whose root stands
on that level. -/
theorem emptyEntries_hash (hasher : Hasher Row) {level : ℕ} (hl : level ≤ rootTreeDepth) :
    ((emptyEntries hasher)[level]?).map NodeEntry.hash =
      some (SparseMerkle.empty hasher.combine treeKeyDefault (rootTreeDepth - level)) := by
  rw [← List.getElem?_map, emptyEntries, calcEmptyTree_hashes,
    List.getElem?_reverse (by simp; omega)]
  simp only [List.length_map, List.length_range, List.getElem?_map]
  rw [List.getElem?_range (by omega), Option.map_some, Nat.add_sub_cancel]

end TreeConfig

end OlaOs
