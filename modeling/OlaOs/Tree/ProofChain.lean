import OlaOs.Tree.Witness

/-! The rows of the storage witness against the reference tree: the chain of Merkle proofs they
form, and the address bits they carry. -/
namespace OlaOs

open BatchOps

variable {Row : Type}

/-- The row of layer `l` (from one at the root) of access `k`. -/
def StorageUpdateTrace.row (trace : StorageUpdateTrace Row) (k l : ℕ) : Option StorageHashRow :=
  trace.storageAccesses[k * rootTreeDepth + (l - 1)]?

/-- The compression of a node with its neighbour, in the order given by the bit of the tree key
at that layer. -/
def orderedCompress (hasher : Hasher Row) (key layer : ℕ) (sibling current : ZkHash) : ZkHash :=
  let kind := if layer = rootTreeDepth then .leaf else .branch
  if key / 2 ^ (rootTreeDepth - layer) % 2 = 1 then (hasher.compress sibling current kind).1
  else (hasher.compress current sibling kind).1

/-- The tree key of a log. -/
def WitnessStorageLog.treeKey (env : TreeEnv Row) (log : WitnessStorageLog) : TreeKey :=
  env.treeKeyOf log.storageLog.key

/-- A chain of Merkle proofs for the logs of a block, from the tree over `m` with the root
`preRoot`. -/
structure ProofChain (env : TreeEnv Row) (m : ℕ → TreeValue) (preRoot : ZkHash)
    (logs : List WitnessStorageLog) (trace : StorageUpdateTrace Row) : Prop where
  length : trace.storageAccesses.length = logs.length * rootTreeDepth
  rows : ∀ k < logs.length, ∀ l, 1 ≤ l → l ≤ rootTreeDepth → ∃ row, trace.row k l = some row ∧
    row.storageAccessIdx = k + 1 ∧ row.layer = l
  first : ∀ l row, 1 ≤ l → l ≤ rootTreeDepth → trace.row 0 l = some row → row.preRoot = preRoot
  next : ∀ k, k + 1 < logs.length → ∀ l l' row row', 1 ≤ l → l ≤ rootTreeDepth → 1 ≤ l' →
    l' ≤ rootTreeDepth → trace.row k l = some row → trace.row (k + 1) l' = some row' →
    row'.preRoot = row.root
  top : ∀ k < logs.length, ∀ row, trace.row k 1 = some row →
    row.preHash = row.preRoot ∧ row.hash = row.root
  layers : ∀ k < logs.length, ∀ l row below, 1 ≤ l → l < rootTreeDepth →
    trace.row k l = some row → trace.row k (l + 1) = some below →
    row.path = below.hash ∧ row.prePath = below.preHash
  leaf : ∀ k (hk : k < logs.length), ∀ row, trace.row k rootTreeDepth = some row →
    row.path = h256ToTreeValue logs[k].storageLog.value ∧
    row.prePath = leavesAfter env.hasher m (AccountTree.blockOps env logs) k
      (treeKeyToU256 (logs[k].treeKey env))
  compress : ∀ k (hk : k < logs.length), ∀ l row, 1 ≤ l → l ≤ rootTreeDepth →
    trace.row k l = some row →
    row.hash = orderedCompress env.hasher (treeKeyToU256 (logs[k].treeKey env)) l
      row.sibling row.path ∧
    row.preHash = orderedCompress env.hasher (treeKeyToU256 (logs[k].treeKey env)) l
      row.sibling row.prePath

namespace AccountTree

variable {env : TreeEnv Row} {m : ℕ → TreeValue}

/-- The witness that `process_block` builds. -/
def blockWitness (env : TreeEnv Row) (m : ℕ → TreeValue) (tree : AccountTree)
    (logs : List WitnessStorageLog) (poseidon : List Row) : StorageUpdateTrace Row where
  storageAccesses := (logs.zipIdx.map fun e => accessRows env (rootBefore env m tree logs)
    (logTraces env m logs) e.1 e.2).flatten
  programHashAccess := []
  storageRelatedPoseidon := poseidon

theorem length_accessRows (root : ℕ → ZkHash) (logs : List WitnessStorageLog) :
    ∀ l ∈ logs.zipIdx.map fun e => accessRows env root (logTraces env m logs) e.1 e.2,
      l.length = rootTreeDepth := by
  intro l hl
  obtain ⟨e, -, rfl⟩ := List.mem_map.mp hl
  rw [accessRows, length_witnessRows, List.length_reverse, logTraces, List.length_map,
    List.length_range]

variable (env m) in
/-- Every row of the witness, with the trace it comes from. -/
theorem blockWitness_row (tree : AccountTree) {logs : List WitnessStorageLog} (poseidon : List Row)
    {k l : ℕ} (hk : k < logs.length) (hl : 1 ≤ l) (hl' : l ≤ rootTreeDepth) :
    ∃ row, (blockWitness env m tree logs poseidon).row k l = some row ∧
      RowOf env (accessContext env (rootBefore env m tree logs) logs[k] k) (l - 1)
        ((ofLogs env.hasher (blockOps env logs)).traceAt env.hasher m
          (rootTreeDepth - l) k) row := by
  have hlen : (logTraces env m logs k).reverse.length = rootTreeDepth := by
    rw [List.length_reverse, logTraces, List.length_map, List.length_range]
  have htrace : (logTraces env m logs k).reverse[l - 1]? =
      some ((ofLogs env.hasher (blockOps env logs)).traceAt env.hasher m
        (rootTreeDepth - l) k) := by
    rw [List.length_reverse] at hlen
    rw [List.getElem?_reverse (by omega), hlen, logTraces, List.getElem?_map,
      List.getElem?_range (by omega), Option.map_some,
      show rootTreeDepth - 1 - (l - 1) = rootTreeDepth - l by omega]
  obtain ⟨row, hrow, hof⟩ := witnessRows_row env 0 .zero
    (accessContext env (rootBefore env m tree logs) logs[k] k)
    (by rw [hlen, rootTreeDepth_eq]) htrace
  refine ⟨row, ?_, by simpa using hof⟩
  rw [StorageUpdateTrace.row, blockWitness, Seq.getElem?_flatten (length_accessRows _ logs)
    (by simpa using hk) (by omega)]
  rw [List.getElem_map, List.getElem_zipIdx, Nat.zero_add]
  exact hrow

theorem treeKey_eq {logs : List WitnessStorageLog} {k : ℕ} (hk : k < logs.length) :
    (ofLogs env.hasher (blockOps env logs)).key k = logs[k].treeKey env := by
  rw [ofLogs_key _ (by rwa [length_blockOps]), List.getElem_map]
  rfl

theorem leafHash_treeOperation (log : WitnessStorageLog) :
    (treeOperation env log).2.leafHash env.hasher = h256ToTreeValue log.storageLog.value := by
  rw [treeOperation]
  cases log.storageLog.kind <;> rfl

theorem compressNode_ordered {key layer : ℕ} (hasher : Hasher Row) (hl : layer ≤ rootTreeDepth)
    (sibling current : ZkHash) :
    (compressNode hasher sibling current (key / 2 ^ (rootTreeDepth - layer) % 2 = 1)
      (rootTreeDepth - layer)).1.1 = orderedCompress hasher key layer sibling current := by
  have hkind : TreeConfig.poseidonType (rootTreeDepth - layer) =
      if layer = rootTreeDepth then .leaf else .branch := by
    rw [TreeConfig.poseidonType]
    congr 1
    rw [eq_iff_iff]
    omega
  rw [compressNode, orderedCompress, hkind]
  by_cases hbit : key / 2 ^ (rootTreeDepth - layer) % 2 = 1 <;> simp [hbit]

theorem rowOf_row {tree : AccountTree} {logs : List WitnessStorageLog} {poseidon : List Row}
    {k l : ℕ} (hk : k < logs.length) (hl : 1 ≤ l) (hl' : l ≤ rootTreeDepth) {row : StorageHashRow}
    (hrow : (blockWitness env m tree logs poseidon).row k l = some row) :
    RowOf env (accessContext env (rootBefore env m tree logs) logs[k] k) (l - 1)
      ((ofLogs env.hasher (blockOps env logs)).traceAt env.hasher m (rootTreeDepth - l) k) row := by
  obtain ⟨row', hrow', hof⟩ := blockWitness_row env m tree poseidon hk hl hl'
  rw [hrow] at hrow'
  cases hrow'
  exact hof

theorem blockWitness_chain (hout : env.hasher.TraceOutput) {tree : AccountTree}
    (hroot : tree.rootHash = referenceRoot env.hasher m) (logs : List WitnessStorageLog)
    (poseidon : List Row) (hne : logs ≠ []) :
    ProofChain env m tree.rootHash logs (blockWitness env m tree logs poseidon) := by
  let o := ofLogs env.hasher (blockOps env logs)
  have hcount : o.count = logs.length := length_blockOps env logs
  have hrootBefore (k : ℕ) : rootBefore env m tree logs k =
      o.node env.hasher m k rootTreeDepth 0 := by
    rw [rootBefore, ofLogs_node]
    split_ifs with hk
    · rw [hk, hroot]
      rfl
    · rfl
  have hpos : 1 ≤ rootTreeDepth := by rw [rootTreeDepth_eq]; omega
  constructor
  · rw [blockWitness, Seq.length_flatten (length_accessRows _ logs), List.length_map,
      List.length_zipIdx]
  · intro k hk l hl hl'
    obtain ⟨row, hrow, hof⟩ := blockWitness_row env m tree poseidon hk hl hl'
    exact ⟨row, hrow, hof.storageAccessIdx, by rw [hof.layer]; omega⟩
  · intro l row hl hl' hrow
    have hk : 0 < logs.length := List.length_pos_of_ne_nil hne
    exact (rowOf_row hk hl hl' hrow).preRoot
  · intro k hk l l' row row' hl hl₁ hl' hl₁' hrow hrow'
    have hof := rowOf_row (by omega : k < logs.length) hl hl₁ hrow
    have hof' := rowOf_row hk hl' hl₁' hrow'
    rw [hof.root, hof'.preRoot]
    rfl
  · intro k hk row hrow
    have hof := rowOf_row hk (le_refl 1) hpos hrow
    rw [hof.preHash, hof.hash, hof.preRoot, hof.root, output_traceAt_preHash hout,
      output_traceAt_hash hout (by rwa [hcount]), Nat.sub_add_cancel hpos, idx_root]
    exact ⟨(hrootBefore k).symm, (hrootBefore (k + 1)).symm⟩
  · intro k hk l row below hl hl' hrow hbelow
    have hof := rowOf_row hk hl (by omega) hrow
    have hof' := rowOf_row hk (by omega) (by omega : l + 1 ≤ rootTreeDepth) hbelow
    rw [hof.path, hof.prePath, hof'.hash, hof'.preHash, output_traceAt_preHash hout,
      output_traceAt_hash hout (by rwa [hcount]),
      show rootTreeDepth - (l + 1) + 1 = rootTreeDepth - l by omega]
    exact ⟨rfl, rfl⟩
  · intro k hk row hrow
    have hof := rowOf_row hk hpos (le_refl _) hrow
    rw [hof.path, hof.prePath, Nat.sub_self]
    constructor
    · have hvalue := ofLogs_value env.hasher
        (by rwa [length_blockOps] : k < (blockOps env logs).length)
      rw [List.getElem_map, leafHash_treeOperation] at hvalue
      rw [traceAt, idx_zero, node_leaf _ _ _ (by rwa [hcount]), hvalue]
    · have hpre : (o.traceAt env.hasher m 0 k).prePath =
          o.node env.hasher m k 0 (o.idx 0 k) := rfl
      rw [hpre, idx_zero, ofLogs_node, treeKey_eq hk]
      rfl
  · intro k hk l row hl hl' hrow
    have hof := rowOf_row hk hl hl' hrow
    rw [hof.hash, hof.preHash, hof.sibling, hof.path, hof.prePath, ← compressNode_ordered _ hl',
      ← compressNode_ordered _ hl', ← treeKey_eq hk]
    exact ⟨hout _ _ _, hout _ _ _⟩

/-- A saved tree: its database holds the tree over `m` and its root is the root of that tree. -/
structure ConsistentTree (env : TreeEnv Row) (m : ℕ → TreeValue) (tree : AccountTree) : Prop where
  nodes : NodesConsistent env.hasher (tree.storage.db.nodes env) m
  root : tree.rootHash = referenceRoot env.hasher m

/-- The witness of `process_block` is a chain of Merkle proofs, for every order in which the
workers finish. -/
theorem processBlock_proofChain (env : TreeEnv Row) (sched : Schedule Row)
    (hout : env.hasher.TraceOutput) (hkeys : env.CanonicalKeys) (m : ℕ → TreeValue)
    (tree : AccountTree) (htree : ConsistentTree env m tree) (logs : List WitnessStorageLog)
    (hne : logs ≠ []) :
    ∃ metadata tree' trace, processBlock env sched tree logs = .ok (metadata, tree') ∧
      metadata.witness = some trace ∧ ProofChain env m tree.rootHash logs trace := by
  obtain ⟨branches, poseidon, -, hblock⟩ := processBlock_eq hout hkeys sched htree.nodes hne
  exact ⟨_, _, blockWitness env m tree logs poseidon, hblock, rfl,
    blockWitness_chain hout htree.root logs poseidon hne⟩

theorem sampleEnv_traceOutput : sampleEnv.hasher.TraceOutput := fun _ _ _ => rfl

theorem sampleEnv_canonicalKeys : sampleEnv.CanonicalKeys := by
  intro bytes
  have hnat : treeKeyToU256 (h256ToTreeKey (sampleEnv.poseidonHashBytes bytes)) =
      Bytes.ofBE bytes % 2 ^ 32 := by
    rw [treeKeyToU256_h256ToTreeKey]
    exact u256ToH256_toNat _
  have hlt : Bytes.ofBE bytes % 2 ^ 32 < 2 ^ 32 := Nat.mod_lt _ (by decide)
  rw [treeKeyToU256_eq] at hnat
  simp only [TreeKey.Canonical, GoldilocksField.Canonical, GoldilocksField.order]
  omega

theorem sampleEnv_separateKeys : sampleEnv.SeparateKeys := by
  have hlen (a : LevelIndex) : (sampleEnv.binKey a).length = 35 := by
    simp [sampleEnv]
  refine ⟨?_, ?_, ?_⟩
  · intro a b ha hb h
    have hbytes (a : LevelIndex) (ha : InTree a) : Bytes.ofBE (Bytes.toBE 2 a.1) = a.1 ∧
        Bytes.ofBE (Bytes.toBE 33 a.2) = a.2 := by
      have hlevel : a.1 ≤ 256 := rootTreeDepth_eq ▸ ha.1
      have hidx : a.2 < 2 ^ 256 := ha.2.trans_le (Nat.pow_le_pow_right (by omega) hlevel)
      exact ⟨Bytes.ofBE_toBE_of_lt (by omega), Bytes.ofBE_toBE_of_lt (hidx.trans (by decide))⟩
    obtain ⟨hlevel, hidx⟩ := List.append_inj h (by simp)
    apply Prod.ext
    · rw [← (hbytes a ha).1, hlevel, (hbytes b hb).1]
    · rw [← (hbytes a ha).2, hidx, (hbytes b hb).2]
  · intro a _ h
    have := congrArg List.length h
    rw [hlen] at this
    cases this
  · intro a key _ h
    have := congrArg List.length h
    rw [hlen] at this
    simp [serializeTreeLeaf, treeKeyToU8Arr, TreeKey.toList] at this

theorem sampleTree_consistent :
    ConsistentTree sampleEnv (fun _ => treeKeyDefault) sampleTree := by
  refine ⟨nodesConsistent_empty sampleEnv, ?_⟩
  rw [referenceRoot, SparseMerkle.node_const]
  -- compressing two default leaves gives the default leaf again
  induction rootTreeDepth with
  | zero => rfl
  | succ d ih =>
    rw [SparseMerkle.empty, ← ih]
    rfl

def sampleWitnessLogs : List WitnessStorageLog :=
  [⟨⟨.write, ⟨.zero, u256ToH256 1⟩, u256ToH256 7⟩, .zero⟩,
    ⟨⟨.read, ⟨.zero, u256ToH256 2⟩, .zero⟩, .zero⟩,
    ⟨⟨.write, ⟨.zero, u256ToH256 1⟩, u256ToH256 8⟩, u256ToH256 7⟩]

theorem processBlock_proofChain_sample : ∃ metadata tree' trace,
    processBlock sampleEnv sampleSchedule sampleTree sampleWitnessLogs = .ok (metadata, tree') ∧
      metadata.witness = some trace ∧ ProofChain sampleEnv (fun _ => treeKeyDefault)
        sampleTree.rootHash sampleWitnessLogs trace :=
  processBlock_proofChain sampleEnv sampleSchedule sampleEnv_traceOutput sampleEnv_canonicalKeys _
    sampleTree sampleTree_consistent sampleWitnessLogs (by decide)

end AccountTree

end OlaOs
