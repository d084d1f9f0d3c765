import OlaOs.Tree.Sequential

/-! The storage witness of a block (`compose_witness`) is a chain of Merkle proofs. -/
namespace OlaOs

open BatchOps

variable {Row : Type}

namespace AccountTree

variable {env : TreeEnv Row} {m : ℕ → TreeValue}

/-- What the accumulator of the address holds after the bit of layer `item + 1`: the bits of the
current limb so far, as a field element. -/
def addrAccAt (key item : ℕ) : GoldilocksField :=
  .fromCanonicalU64 (key / 2 ^ (255 - item) % 2 ^ (item % 64 + 1) % GoldilocksField.order)

/-- The row for the trace that `compose_witness` meets at position `item`. -/
structure RowOf (env : TreeEnv Row) (ctx : AccessContext) (item : ℕ) (trace : HashTrace Row)
    (row : StorageHashRow) : Prop where
  storageAccessIdx : row.storageAccessIdx = ctx.storageAccessIdx
  preRoot : row.preRoot = ctx.preRoot
  root : row.root = ctx.rootHash
  preHash : row.preHash = env.hasher.output trace.preHash
  hash : row.hash = env.hasher.output trace.hash
  layer : row.layer = item + 1
  layerBit : row.layerBit = ctx.key / 2 ^ (255 - item) % 2
  addrAcc : row.addrAcc = addrAccAt ctx.key item
  addr : row.addr = ctx.addr
  prePath : row.prePath = trace.prePath
  path : row.path = trace.path
  sibling : row.sibling = trace.sibling

/-- The accumulator before the bit of layer `item + 1`: nothing at the start of a limb. -/
def accBefore (key item : ℕ) : GoldilocksField :=
  if item % 64 = 0 then .zero else addrAccAt key (item - 1)

theorem toCanonicalU64_fromCanonicalU64 {n : ℕ} (h : n < GoldilocksField.order) :
    (GoldilocksField.fromCanonicalU64 n).toCanonicalU64 = n := by
  have h64 : n < 2 ^ 64 := h.trans (by decide)
  rw [GoldilocksField.toCanonicalU64, GoldilocksField.fromCanonicalU64_inner h64,
    if_neg (Nat.not_le.mpr h)]

/-- Doubling and adding a bit, for a number given up to the order of the field. -/
theorem double_add_bit {a b : ℕ} (hb : b < 2) :
    ((GoldilocksField.fromCanonicalU64 (a % GoldilocksField.order)).mul (.fromCanonicalU64 2)).add
      (.fromCanonicalU64 b) = .fromCanonicalU64 ((2 * a + b) % GoldilocksField.order) := by
  have hpos : 2 < GoldilocksField.order := by decide
  have ha : a % GoldilocksField.order < GoldilocksField.order := Nat.mod_lt _ (by omega)
  rw [GoldilocksField.mul, GoldilocksField.add, toCanonicalU64_fromCanonicalU64 ha,
    toCanonicalU64_fromCanonicalU64 hpos, toCanonicalU64_fromCanonicalU64 (Nat.mod_lt _ (by omega)),
    toCanonicalU64_fromCanonicalU64 (by omega : b < GoldilocksField.order)]
  congr 1
  rw [Nat.mod_add_mod, Nat.add_mod, Nat.mod_mul_mod, ← Nat.add_mod, Nat.mul_comm a 2]

theorem addrAcc_step (key : ℕ) {item : ℕ} (hitem : item < 256) :
    ((accBefore key item).mul (.fromCanonicalU64 2)).add
      (.fromCanonicalU64 (key / 2 ^ (255 - item) % 2)) = addrAccAt key item := by
  have hbit : key / 2 ^ (255 - item) % 2 < 2 := Nat.mod_lt _ (by omega)
  rw [addrAccAt]
  by_cases hr : item % 64 = 0
  · have hzero : accBefore key item =
        .fromCanonicalU64 (0 % GoldilocksField.order) := by
      rw [accBefore, if_pos hr]
      rfl
    rw [hzero, double_add_bit hbit, hr]
    simp
  · have hprev : (item - 1) % 64 + 1 = item % 64 := by omega
    have hhalf : key / 2 ^ (255 - (item - 1)) = key / 2 ^ (255 - item) / 2 := by
      rw [Nat.div_div_eq_div_mul, ← pow_succ, show 255 - item + 1 = 255 - (item - 1) by omega]
    rw [accBefore, if_neg hr, addrAccAt, hprev, hhalf, double_add_bit hbit]
    congr 2
    rw [pow_succ', Nat.mod_mul]
    omega

/-- The rows from position `item` on, when the accumulator has been kept as it should. -/
theorem witnessRows_row (env : TreeEnv Row) (item : ℕ) (hashType : GoldilocksField)
    (ctx : AccessContext) {traces : List (HashTrace Row)} (hlen : item + traces.length ≤ 256)
    {j : ℕ}
    {trace : HashTrace Row} (hj : traces[j]? = some trace) :
    ∃ row, (witnessRows env ctx item (accBefore ctx.key item) hashType traces)[j]? = some row ∧
      RowOf env ctx (item + j) trace row := by
  induction traces generalizing item hashType j with
  | nil => simp at hj
  | cons head traces ih =>
    rw [List.length_cons] at hlen
    have hacc := addrAcc_step ctx.key (by omega : item < 256)
    rw [witnessRows, hacc]
    cases j with
    | zero =>
      obtain rfl : head = trace := by simpa using hj
      exact ⟨_, rfl, rfl, rfl, rfl, rfl, rfl, rfl, rfl, rfl, rfl, rfl, rfl, rfl⟩
    | succ j =>
      have hnext : (if (item + 1) % 64 = 0 then .zero else addrAccAt ctx.key item) =
          accBefore ctx.key (item + 1) := rfl
      rw [hnext, List.getElem?_cons_succ, show item + (j + 1) = item + 1 + j by omega]
      exact ih (item + 1) _ (by omega) (by simpa using hj)

theorem length_witnessRows (ctx : AccessContext) (item : ℕ) (acc hashType : GoldilocksField)
    (traces : List (HashTrace Row)) :
    (witnessRows env ctx item acc hashType traces).length = traces.length := by
  induction traces generalizing item acc hashType with
  | nil => rfl
  | cons head traces ih => rw [witnessRows, List.length_cons, ih, List.length_cons]

theorem chunks_flatten {α : Type} {size : ℕ} (hsize : 0 < size) {lists : List (List α)}
    (h : ∀ l ∈ lists, l.length = size) : chunks size lists.flatten = lists := by
  have hcount : (lists.length * size + size - 1) / size = lists.length := by
    rw [Nat.add_sub_assoc hsize, Nat.mul_comm, Nat.mul_add_div hsize,
      Nat.div_eq_of_lt (by omega : size - 1 < size), Nat.add_zero]
  rw [chunks, Seq.length_flatten h, hcount]
  apply List.ext_getElem
  · simp
  · intro i h₁ h₂
    simpa using Seq.take_drop_flatten h h₂

/-- What all rows of access number `i` share. -/
def accessContext (env : TreeEnv Row) (root : ℕ → ZkHash) (log : WitnessStorageLog) (i : ℕ) :
    AccessContext where
  storageAccessIdx := i + 1
  preRoot := root i
  rootHash := root (i + 1)
  isWrite := .fromCanonicalU64 log.storageLog.kind.toNat
  key := log.storageLog.key.hashedKeyU256 env.poseidonHashBytes
  addr := h256ToTreeKey (log.storageLog.key.hashedKey env.poseidonHashBytes)

def accessRows (env : TreeEnv Row) (root : ℕ → ZkHash) (chunk : ℕ → List (HashTrace Row))
    (log : WitnessStorageLog) (i : ℕ) : List StorageHashRow :=
  witnessRows env (accessContext env root log i) 0 .zero .zero (chunk i).reverse

theorem witnessAccesses_eq {root : ℕ → ZkHash} {chunk : ℕ → List (HashTrace Row)}
    (logs : List WitnessStorageLog) (s : ℕ)
    (hroot : ∀ i, s ≤ i → i < s + logs.length → ∃ last, (chunk i).getLast? = some last ∧
      env.hasher.output last.hash = root (i + 1)) :
    ∃ poseidon, witnessAccesses env s (root s)
        ((logs.zipIdx s).map fun e => (chunk e.2, e.1)) =
      .ok (((logs.zipIdx s).map fun e => accessRows env root chunk e.1 e.2).flatten, poseidon) := by
  induction logs generalizing s with
  | nil => exact ⟨[], rfl⟩
  | cons log logs ih =>
    rw [List.length_cons] at hroot
    obtain ⟨last, hlast, hout⟩ := hroot s (le_refl s) (by omega)
    obtain ⟨poseidon, hrest⟩ := ih (s := s + 1) fun i hs hi => hroot i (by omega) (by omega)
    rw [List.zipIdx_cons, List.map_cons, List.map_cons, List.flatten_cons, witnessAccesses]
    simp only [hlast, okOr_some, hout, hrest, bind, Except.bind, pure, Except.pure]
    exact ⟨_, rfl⟩

/-- The witness of traces that come in full groups, one for each log. -/
theorem composeWitness_eq (root : ℕ → ZkHash) (chunk : ℕ → List (HashTrace Row))
    (logs : List WitnessStorageLog)
    (hchunk : ∀ i, (chunk i).length = rootTreeDepth)
    (hroot : ∀ i < logs.length, ∃ last, (chunk i).getLast? = some last ∧
      env.hasher.output last.hash = root (i + 1)) :
    ∃ poseidon, composeWitness env (root 0) ((List.range logs.length).map chunk).flatten logs =
      .ok ⟨(logs.zipIdx.map fun e => accessRows env root chunk e.1 e.2).flatten, [], poseidon⟩ := by
  have hpos : 0 < rootTreeDepth := by rw [rootTreeDepth_eq]; omega
  have hlens : ∀ l ∈ (List.range logs.length).map chunk, l.length = rootTreeDepth := by
    intro l hl
    obtain ⟨i, -, rfl⟩ := List.mem_map.mp hl
    exact hchunk i
  have hlen : (((List.range logs.length).map chunk).flatten).length =
      logs.length * rootTreeDepth := by
    rw [Seq.length_flatten hlens, List.length_map, List.length_range]
  have hrows : ∀ l ∈ logs.zipIdx.map fun e => accessRows env root chunk e.1 e.2,
      l.length = rootTreeDepth := by
    intro l hl
    obtain ⟨e, -, rfl⟩ := List.mem_map.mp hl
    rw [accessRows, length_witnessRows, List.length_reverse, hchunk]
  have hrowsLen : ((logs.zipIdx.map fun e => accessRows env root chunk e.1 e.2).flatten).length =
      logs.length * rootTreeDepth := by
    rw [Seq.length_flatten hrows, List.length_map, List.length_zipIdx]
  have hzip : ((List.range logs.length).map chunk).zip logs =
      logs.zipIdx.map fun e => (chunk e.2, e.1) := by
    apply List.ext_getElem <;> simp
  obtain ⟨poseidon, haccesses⟩ := witnessAccesses_eq logs 0
    (fun i _ hi => hroot i (by omega))
  refine ⟨poseidon, ?_⟩
  rw [composeWitness, hlen, Nat.mul_div_cancel _ hpos, chunks_flatten hpos hlens, hzip, haccesses]
  simp only [ne_eq, not_true_eq_false, ↓reduceIte, bind, Except.bind, hrowsLen, lt_self_iff_false,
    pure, Except.pure, List.take_of_length_le hrowsLen.le, List.drop_of_length_le hrowsLen.le]

/-- The tree operations of the logs of a block. -/
abbrev blockOps (env : TreeEnv Row) (logs : List WitnessStorageLog) :
    List (TreeKey × TreeOperation) :=
  logs.map (treeOperation env)

/-- The root before access `i`: the tree's own root at first, then the root after each log. -/
def rootBefore (env : TreeEnv Row) (m : ℕ → TreeValue) (tree : AccountTree)
    (logs : List WitnessStorageLog) (i : ℕ) : ZkHash :=
  if i = 0 then tree.rootHash
  else referenceRoot env.hasher (leavesAfter env.hasher m (blockOps env logs) i)

/-- The trace rows of log `i`, from the leaf up. -/
def logTraces (env : TreeEnv Row) (m : ℕ → TreeValue) (logs : List WitnessStorageLog) (i : ℕ) :
    List (HashTrace Row) :=
  (List.range rootTreeDepth).map fun level =>
    (ofLogs env.hasher (blockOps env logs)).traceAt env.hasher m level i

theorem output_traceAt_hash (hout : env.hasher.TraceOutput) {o : BatchOps} {i : ℕ}
    (hi : i < o.count) (h : ℕ) :
    env.hasher.output (o.traceAt env.hasher m h i).hash =
      o.node env.hasher m (i + 1) (h + 1) (o.idx (h + 1) i) := by
  have hnode := o.compressNode_current env.hasher m (h := h) hi
  rw [traceAt]
  exact (hout _ _ _).trans (congrArg NodeEntry.hash hnode)

theorem output_traceAt_preHash (hout : env.hasher.TraceOutput) (o : BatchOps) (i h : ℕ) :
    env.hasher.output (o.traceAt env.hasher m h i).preHash =
      o.node env.hasher m i (h + 1) (o.idx (h + 1) i) := by
  have hnode := o.compressNode_previous env.hasher m h i
  rw [traceAt]
  exact (hout _ _ _).trans hnode

theorem length_blockOps (env : TreeEnv Row) (logs : List WitnessStorageLog) :
    (blockOps env logs).length = logs.length := List.length_map _

theorem logTraces_root (hout : env.hasher.TraceOutput) (tree : AccountTree)
    {logs : List WitnessStorageLog} {i : ℕ} (hi : i < logs.length) :
    ∃ last, (logTraces env m logs i).getLast? = some last ∧
      env.hasher.output last.hash = rootBefore env m tree logs (i + 1) := by
  obtain ⟨d, hd⟩ : ∃ d, rootTreeDepth = d + 1 := ⟨255, rootTreeDepth_eq⟩
  refine ⟨(ofLogs env.hasher (blockOps env logs)).traceAt env.hasher m d i, ?_, ?_⟩
  · rw [logTraces, hd, List.range_succ, List.map_append]
    exact List.getLast?_concat
  · rw [output_traceAt_hash hout (by rwa [ofLogs, length_blockOps]), ← hd, idx_root, ofLogs_node]
    rfl

/-- The tree operations of logs have canonical keys. -/
theorem blockOps_canonical (hkeys : env.CanonicalKeys) (logs : List WitnessStorageLog) :
    ∀ op ∈ blockOps env logs, op.1.Canonical := by
  intro op hop
  obtain ⟨log, -, rfl⟩ := List.mem_map.mp hop
  exact hkeys _

theorem processBlock_ok {sched : Schedule Row} {tree tree' : AccountTree}
    {logs : List WitnessStorageLog} {traces : List (HashTrace Row)} {metadata : TreeMetadata Row}
    {witness : StorageUpdateTrace Row}
    (happly : applyUpdatesBatch env sched tree [blockOps env logs] =
      .ok ((traces, [metadata]), tree'))
    (hwitness : composeWitness env tree.rootHash traces logs = .ok witness) :
    processBlock env sched tree logs = .ok ({ metadata with witness := some witness }, tree') := by
  have hblocks : processBlocks env sched tree [logs] = .ok ((traces, [metadata]), tree') := by
    simp only [processBlocks, List.map_cons, List.map_nil, List.length_singleton, ↓reduceIte,
      happly]
  simp only [processBlock, hblocks, hwitness, bind, Except.bind, pure, Except.pure]

/-- `process_block` on no logs at all. -/
theorem processBlock_nil (sched : Schedule Row) {tree : AccountTree}
    (hc : NodesConsistent env.hasher (tree.storage.db.nodes env) m) :
    processBlock env sched tree [] =
      .error (.panic "Storage log and tree metadata not match!") := by
  obtain ⟨batch, hprep, hupdates, hpaths⟩ := prepareBatchUpdate_eq
    (tree.storage.indexed []) hc (List.forall_mem_nil _) [] rfl
  obtain ⟨rows, hcalc, htrace⟩ := calculate_eq sched hupdates hpaths
  have hrun := runBatch_ok (Storage.processLeafIndices_nil tree.storage) rfl hprep
    (sum_lengths hupdates)
    hcalc (groupTraces_eq htrace) rfl
  have hrun' : runBatch env sched tree [] = .ok _ := hrun
  have hblocks : ∃ traces tree', processBlocks env sched tree [[]] = .ok ((traces, []), tree') := by
    simp only [processBlocks, List.map_cons, List.map_nil, List.length_singleton, ↓reduceIte,
      applyUpdatesBatch, logsWithBlocks_single, hrun', bind, Except.bind, List.zip_nil_left,
      List.splitBy_nil, List.mapM_nil, pure, Except.pure]
    exact ⟨_, _, rfl⟩
  obtain ⟨traces, tree', hblocks⟩ := hblocks
  simp only [processBlock, hblocks, bind, Except.bind]
  rfl

/-- `process_block` on a non-empty list of logs. -/
theorem processBlock_eq (hout : env.hasher.TraceOutput) (hkeys : env.CanonicalKeys)
    (sched : Schedule Row) {tree : AccountTree}
    (hc : NodesConsistent env.hasher (tree.storage.db.nodes env) m)
    {logs : List WitnessStorageLog} (hne : logs ≠ []) :
    ∃ branches poseidon,
      (ofLogs env.hasher (blockOps env logs)).BranchesAt env.hasher m logs.length branches ∧
      processBlock env sched tree logs = .ok
        ({ oneBlockMetadata env m tree.storage (blockOps env logs) with
            witness := some ⟨(logs.zipIdx.map fun e => accessRows env (rootBefore env m tree logs)
              (logTraces env m logs) e.1 e.2).flatten, [], poseidon⟩ },
          ⟨(tree.storage.indexed (blockOps env logs)).preSave env branches,
            rootBefore env m tree logs logs.length, (tree.blockNumber + 1) % 2 ^ 32⟩) := by
  have hne' : blockOps env logs ≠ [] := by simpa using hne
  have hlen : logs.length ≠ 0 := by simpa using hne
  obtain ⟨run, -, hstorage, hbranches, -, -, happly⟩ := applyUpdatesBatch_eq sched hc hne'
    (blockOps_canonical hkeys logs)
  obtain ⟨poseidon, hwitness⟩ := composeWitness_eq
    (rootBefore env m tree logs) (logTraces env m logs) logs
    (fun i => by rw [logTraces, List.length_map, List.length_range])
    (fun i hi => logTraces_root hout tree hi)
  have htraces : blockTraces env m (blockOps env logs) =
      ((List.range logs.length).map (logTraces env m logs)).flatten := by
    rw [blockTraces, length_blockOps, List.flatMap_def]
    rfl
  rw [htraces] at happly
  rw [length_blockOps] at hbranches
  refine ⟨run.branches, poseidon, hbranches, ?_⟩
  rw [processBlock_ok happly hwitness, hstorage, rootBefore, if_neg hlen, length_blockOps]

end AccountTree

end OlaOs
