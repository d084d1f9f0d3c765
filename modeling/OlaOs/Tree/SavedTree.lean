import OlaOs.Tree.LeafScan
import OlaOs.Tree.Witness

/-! What a block writes to the store, and the state of the tree after it is saved. -/
namespace OlaOs

open Enumerate BatchOps Storage

variable {Row : Type}

/-- The records that a block adds, given the numbering and the leaf map it started from. They are
determined on every key of the column family. -/
structure BlockDelta (env : TreeEnv Row) (m : ℕ → TreeValue) (order : List TreeKey)
    (ops : List (TreeKey × TreeOperation)) (delta : List UInt8 → Option DbValue) : Prop where
  counter : delta leafIndexKey = some (.index ((enumerate order (writtenBy ops)).length + 1))
  leaf : ∀ key, delta (serializeTreeLeaf (env.treeKeyOf key)) =
    if env.treeKeyOf key ∈ enumerate order (writtenBy ops) ∧ env.treeKeyOf key ∉ order then
      some (.index ((enumerate order (writtenBy ops)).idxOf (env.treeKeyOf key) + 1)) else none
  node : ∀ a, InTree a → delta (env.binKey a) =
    if ∃ op ∈ ops, treeKeyToU256 op.1 / 2 ^ (rootTreeDepth - a.1) = a.2 then
      some (.hash (SparseMerkle.node env.hasher.combine
        (leavesAfter env.hasher m ops ops.length) (rootTreeDepth - a.1) a.2)) else none
  other : ∀ bytes, bytes ≠ leafIndexKey →
    (∀ key, bytes ≠ serializeTreeLeaf (env.treeKeyOf key)) →
    (∀ a, InTree a → bytes ≠ env.binKey a) → delta bytes = none

open Classical in
/-- The records of a block, by the kind of their key. -/
noncomputable def blockDelta (env : TreeEnv Row) (m : ℕ → TreeValue) (order : List TreeKey)
    (ops : List (TreeKey × TreeOperation)) (bytes : List UInt8) : Option DbValue :=
  if bytes = leafIndexKey then some (.index ((enumerate order (writtenBy ops)).length + 1))
  else if h : ∃ key, bytes = serializeTreeLeaf (env.treeKeyOf key) then
    let leaf := env.treeKeyOf h.choose
    if leaf ∈ enumerate order (writtenBy ops) ∧ leaf ∉ order then
      some (.index ((enumerate order (writtenBy ops)).idxOf leaf + 1)) else none
  else if h : ∃ a, InTree a ∧ bytes = env.binKey a then
    let a := h.choose
    if ∃ op ∈ ops, treeKeyToU256 op.1 / 2 ^ (rootTreeDepth - a.1) = a.2 then
      some (.hash (SparseMerkle.node env.hasher.combine
        (leavesAfter env.hasher m ops ops.length) (rootTreeDepth - a.1) a.2)) else none
  else none

theorem blockDelta_spec {env : TreeEnv Row} (hsep : env.SeparateKeys) (m : ℕ → TreeValue)
    (order : List TreeKey) (ops : List (TreeKey × TreeOperation)) :
    BlockDelta env m order ops (blockDelta env m order ops) := by
  constructor
  · rw [blockDelta, if_pos rfl]
  · intro key
    have h : ∃ k, serializeTreeLeaf (env.treeKeyOf key) = serializeTreeLeaf (env.treeKeyOf k) :=
      ⟨key, rfl⟩
    have hchoose : env.treeKeyOf h.choose = env.treeKeyOf key :=
      (serializeTreeLeaf_injective h.choose_spec).symm
    rw [blockDelta, if_neg (serializeTreeLeaf_ne_counter _), dif_pos h]
    simp only [hchoose]
  · intro a ha
    have h : ∃ b, InTree b ∧ env.binKey a = env.binKey b := ⟨a, ha, rfl⟩
    have hchoose : h.choose = a :=
      (hsep.node_injective a _ ha h.choose_spec.1 h.choose_spec.2).symm
    rw [blockDelta, if_neg (hsep.node_ne_counter a ha),
      dif_neg (fun ⟨key, hkey⟩ => hsep.node_ne_leaf a key ha hkey), dif_pos h]
    simp only [hchoose]
  · intro bytes hcounter hleaf hnode
    rw [blockDelta, if_neg hcounter, dif_neg (fun ⟨key, hkey⟩ => hleaf key hkey),
      dif_neg (fun ⟨a, ha, hkey⟩ => hnode a ha hkey)]

/-- What is reported for a block, given the numbering and the leaf map it started from. -/
def blockReport (env : TreeEnv Row) (m : ℕ → TreeValue) (order : List TreeKey)
    (ops : List (TreeKey × TreeOperation)) : TreeMetadata Row where
  rootHash := referenceRoot env.hasher (leavesAfter env.hasher m ops ops.length)
  rollupLastLeafIndex := (enumerate order (writtenBy ops)).length + 1
  initialWrites := ((firstWrites order (writesOf ops)).zipIdx (order.length + 1)).map
    fun e => ⟨e.2, treeKeyToU256 e.1.1, treeValueToH256 e.1.2⟩
  repeatedWrites := (laterWrites order (writesOf ops)).map fun w =>
    ⟨(enumerate order (writtenBy ops)).idxOf w.1 + 1, treeValueToH256 w.2⟩
  witness := none

namespace AccountTree

variable {env : TreeEnv Row} {m : ℕ → TreeValue}

/-- `pre_save` puts the nodes under their binary keys and leaves the rest of the patch alone. -/
theorem preSave_lookup_node (hsep : env.SeparateKeys) {s : Storage}
    {branches : KeyedMap LevelIndex TreeKey}
    (hin : ∀ a value, branches.lookup a = some value → InTree a) {a : LevelIndex} (ha : InTree a) :
    (s.preSave env branches).putPendingPatch.lookup (env.binKey a) =
      ((branches.lookup a).map .hash).or (s.putPendingPatch.lookup (env.binKey a)) := by
  have hmem {value : DbValue} (h : (env.binKey a, value) ∈ branches.toList.map fun e =>
      (env.binKey e.1, DbValue.hash e.2)) :
      (branches.lookup a).map DbValue.hash = some value := by
    obtain ⟨⟨b, hash⟩, hb, heq⟩ := List.mem_map.mp h
    have hb := KeyedMap.mem_toList.mp hb
    obtain ⟨hkey, hvalue⟩ := Prod.mk.inj heq
    obtain rfl := hsep.node_injective b a (hin b hash hb) ha hkey
    rw [hb, Option.map_some, hvalue]
  cases hl : branches.lookup a with
  | none =>
    rw [Option.map_none, Option.none_or]
    apply KeyedMap.lookup_extend_of_notMem
    intro value h
    have := hmem h
    rw [hl] at this
    cases this
  | some hash =>
    rw [Option.map_some, Option.some_or]
    apply KeyedMap.lookup_extend_of_forall
    · exact List.mem_map.mpr ⟨(a, hash), KeyedMap.mem_toList.mpr hl, rfl⟩
    · intro value h
      have := hmem h
      rw [hl] at this
      exact (Option.some.inj this).symm

theorem preSave_lookup_other {s : Storage} {branches : KeyedMap LevelIndex TreeKey}
    (hin : ∀ a value, branches.lookup a = some value → InTree a) {bytes : List UInt8}
    (hbytes : ∀ a, InTree a → bytes ≠ env.binKey a) :
    (s.preSave env branches).putPendingPatch.lookup bytes = s.putPendingPatch.lookup bytes := by
  apply KeyedMap.lookup_extend_of_notMem
  intro value h
  obtain ⟨⟨a, hash⟩, ha, heq⟩ := List.mem_map.mp h
  exact hbytes a (hin a hash (KeyedMap.mem_toList.mp ha)) (congrArg Prod.fst heq).symm

theorem branchesAt_inTree {o : BatchOps} {t : ℕ} {branches : KeyedMap LevelIndex TreeKey}
    (h : o.BranchesAt env.hasher m t branches) {a : LevelIndex} {value : TreeKey}
    (ha : branches.lookup a = some value) : InTree a := by
  by_contra hnot
  rw [h.miss] at ha
  · cases ha
  · rintro height hh j - rfl
    exact hnot ⟨Nat.sub_le _ _, o.idx_lt hh j⟩

/-- The node map after all operations, by place. -/
theorem branchesAt_lookup {ops : List (TreeKey × TreeOperation)}
    {branches : KeyedMap LevelIndex TreeKey}
    (h : (ofLogs env.hasher ops).BranchesAt env.hasher m ops.length branches) {a : LevelIndex}
    (ha : InTree a) :
    branches.lookup a = if ∃ op ∈ ops, treeKeyToU256 op.1 / 2 ^ (rootTreeDepth - a.1) = a.2 then
      some (SparseMerkle.node env.hasher.combine (leavesAfter env.hasher m ops ops.length)
        (rootTreeDepth - a.1) a.2) else none := by
  obtain ⟨level, q⟩ := a
  have hlevel : rootTreeDepth - (rootTreeDepth - level) = level := Nat.sub_sub_self ha.1
  split_ifs with htouch
  · obtain ⟨op, hop, hq⟩ := htouch
    obtain ⟨j, hj, rfl⟩ := List.mem_iff_getElem.mp hop
    have hlook := h.hit (rootTreeDepth - level) (Nat.sub_le _ _) j hj
    rwa [hlevel, ofLogs_node, idx, ofLogs_key _ hj, hq] at hlook
  · apply h.miss
    rintro height hh j hj heq
    obtain ⟨hl, hq⟩ := Prod.mk.inj heq
    refine htouch ⟨ops[j], List.getElem_mem hj, ?_⟩
    rw [hq, idx, ofLogs_key _ hj, hl, Nat.sub_sub_self hh]

/-- Every operation of a block of logs is on the hash of a storage key. -/
theorem blockOps_hashed {logs : List WitnessStorageLog} {op : TreeKey × TreeOperation}
    (hop : op ∈ blockOps env logs) : ∃ key, op.1 = env.treeKeyOf key := by
  obtain ⟨log, -, rfl⟩ := List.mem_map.mp hop
  exact ⟨log.storageLog.key, rfl⟩

theorem blockOps_ne_delete {logs : List WitnessStorageLog} {op : TreeKey × TreeOperation}
    (hop : op ∈ blockOps env logs) : op.2 ≠ .delete := by
  obtain ⟨log, -, rfl⟩ := List.mem_map.mp hop
  rw [treeOperation]
  cases log.storageLog.kind <;> simp

theorem mem_writtenBy {ops : List (TreeKey × TreeOperation)} {key : TreeKey}
    (h : key ∈ writtenBy ops) : ∃ op ∈ ops, op.1 = key := by
  obtain ⟨w, hw, rfl⟩ := List.mem_map.mp h
  obtain ⟨op, hop, heq⟩ := List.mem_filterMap.mp hw
  refine ⟨op, hop, ?_⟩
  obtain ⟨k, _ | _ | _⟩ := op
  · obtain rfl := Option.some.inj heq
    rfl
  · cases heq
  · cases heq

/-- The keys of storage: hashes of storage keys. -/
def IsHashed (env : TreeEnv Row) (key : TreeKey) : Prop := ∃ k, key = env.treeKeyOf k

/-- The database part of a saved state: the tree over `m`, and the numbering `order`. -/
structure DbInv (env : TreeEnv Row) (m : ℕ → TreeValue) (order : List TreeKey) (s : Storage) :
    Prop where
  nodes : NodesConsistent env.hasher (s.db.nodes env) m
  numbers : Numbers s.db (IsHashed env) order
  current : s.currentIndex = order.length + 1

theorem DbInv.of_db_eq {order : List TreeKey} {s s' : Storage} (h : DbInv env m order s)
    (hdb : s'.db = s.db) : DbInv env m order s' := by
  refine ⟨by rw [hdb]; exact h.nodes, by rw [hdb]; exact h.numbers, ?_⟩
  rw [currentIndex, hdb]
  exact h.current

theorem blockScan_inv (hkeys : env.CanonicalKeys) {order : List TreeKey} {s : Storage}
    (hdb : DbInv env m order s) (logs : List WitnessStorageLog) :
    ScanInv order s.startScan (blockOps env logs) (s.blockScan (blockOps env logs)) :=
  scanBlock_inv hdb.numbers hdb.current rfl rfl rfl (fun _ hop => blockOps_hashed hop)
    (blockOps_canonical hkeys logs) (fun _ hop => blockOps_ne_delete hop)

/-- The patch of a block over what was pending before. -/
theorem pending_lookup (hkeys : env.CanonicalKeys) (hsep : env.SeparateKeys)
    {order : List TreeKey} {s : Storage} (hdb : DbInv env m order s)
    {logs : List WitnessStorageLog} {branches : KeyedMap LevelIndex TreeKey}
    (hb : (ofLogs env.hasher (blockOps env logs)).BranchesAt env.hasher m
      (blockOps env logs).length branches)
    {delta : List UInt8 → Option DbValue}
    (hdelta : BlockDelta env m order (blockOps env logs) delta) (bytes : List UInt8) :
    ((s.indexed (blockOps env logs)).preSave env branches).putPendingPatch.lookup bytes =
      (delta bytes).or (s.putPendingPatch.lookup bytes) := by
  have hscan := blockScan_inv hkeys hdb logs
  have hin (a : LevelIndex) (value : TreeKey) (ha : branches.lookup a = some value) : InTree a :=
    branchesAt_inTree hb ha
  have hindexed (b : List UInt8) (hne : b ≠ leafIndexKey) :
      (s.indexed (blockOps env logs)).putPendingPatch.lookup b =
        (s.blockScan (blockOps env logs)).1.putBatch.lookup b := by
    rw [indexed, KeyedMap.lookup_insert_eq, if_neg hne]
  have hold (b : List UInt8) (hne : b ≠ leafIndexKey)
      (hleaf : ∀ key ∈ enumerate order (writtenBy (blockOps env logs)), key ∉ order →
        b ≠ serializeTreeLeaf key) :
      (s.indexed (blockOps env logs)).putPendingPatch.lookup b = s.putPendingPatch.lookup b := by
    rw [hindexed b hne]
    exact hscan.put_old b hleaf
  have hfresh (b : List UInt8) (hleaf : ∀ key, b ≠ serializeTreeLeaf (env.treeKeyOf key)) :
      ∀ key ∈ enumerate order (writtenBy (blockOps env logs)), key ∉ order →
        b ≠ serializeTreeLeaf key := by
    intro key hmem hnot
    obtain ⟨op, hop, rfl⟩ := mem_writtenBy ((mem_enumerate.mp hmem).resolve_left hnot)
    obtain ⟨k, hk⟩ := blockOps_hashed hop
    rw [hk]
    exact hleaf k
  -- the four kinds of keys
  by_cases hnode : ∃ a, InTree a ∧ bytes = env.binKey a
  · obtain ⟨a, ha, rfl⟩ := hnode
    rw [preSave_lookup_node hsep hin ha, hold _ (hsep.node_ne_counter a ha)
      (hfresh _ fun key => hsep.node_ne_leaf a key ha), hdelta.node a ha, branchesAt_lookup hb ha]
    split_ifs <;> rfl
  push Not at hnode
  rw [preSave_lookup_other hin hnode]
  by_cases hcounter : bytes = leafIndexKey
  · subst hcounter
    rw [hdelta.counter, indexed, KeyedMap.lookup_insert_eq, if_pos rfl, hscan.current]
    rfl
  by_cases hleaf : ∃ key, bytes = serializeTreeLeaf (env.treeKeyOf key)
  · obtain ⟨key, rfl⟩ := hleaf
    rw [hdelta.leaf]
    split_ifs with hnew
    · rw [hindexed _ hcounter, hscan.put_new _ hnew.1 hnew.2]
      rfl
    · rw [Option.none_or]
      apply hold _ hcounter
      intro key' hmem hnot heq
      have := serializeTreeLeaf_injective heq
      exact hnew (this ▸ ⟨hmem, hnot⟩)
  · push Not at hleaf
    rw [hdelta.other bytes hcounter hleaf hnode, Option.none_or]
    exact hold bytes hcounter (hfresh bytes hleaf)

/-- `process_block` from a database that holds the tree over `m` and the numbering `order`: the
report, and a patch laid over what was pending. The database stays as it is. -/
theorem processBlock_step (hout : env.hasher.TraceOutput) (hkeys : env.CanonicalKeys)
    (hsep : env.SeparateKeys) (sched : Schedule Row) {order : List TreeKey} {tree : AccountTree}
    (hdb : DbInv env m order tree.storage) {logs : List WitnessStorageLog} (hne : logs ≠ []) :
    ∃ witness tree', processBlock env sched tree logs =
        .ok ({ blockReport env m order (blockOps env logs) with witness := some witness }, tree') ∧
      tree'.storage.db = tree.storage.db ∧
      tree'.storage.deletePendingPatch = tree.storage.deletePendingPatch ∧
      (∀ bytes, tree'.storage.putPendingPatch.lookup bytes =
        (blockDelta env m order (blockOps env logs) bytes).or
          (tree.storage.putPendingPatch.lookup bytes)) ∧
      tree'.rootHash = referenceRoot env.hasher
        (leavesAfter env.hasher m (blockOps env logs) (blockOps env logs).length) ∧
      tree'.blockNumber = (tree.blockNumber + 1) % 2 ^ 32 := by
  obtain ⟨branches, poseidon, hbranches, hblock⟩ := processBlock_eq hout hkeys sched hdb.nodes hne
  have hscan := blockScan_inv hkeys hdb logs
  have hlen : logs.length ≠ 0 := by simpa using hne
  have hreport : oneBlockMetadata env m tree.storage (blockOps env logs) =
      blockReport env m order (blockOps env logs) := by
    simp only [oneBlockMetadata, blockReport, blockIndices, LeafScan.leafIndices, hscan.current,
      hscan.initial, hscan.repeated]
  rw [hreport] at hblock
  refine ⟨_, _, hblock, rfl, hscan.deletes, ?_, ?_, rfl⟩
  · rw [← length_blockOps env] at hbranches
    exact pending_lookup hkeys hsep hdb hbranches (blockDelta_spec hsep m order _)
  · rw [rootBefore, if_neg hlen, length_blockOps]

/-- A tree right after a save. -/
structure SavedInv (env : TreeEnv Row) (m : ℕ → TreeValue) (order : List TreeKey)
    (tree : AccountTree) : Prop where
  db : DbInv env m order tree.storage
  root : tree.rootHash = referenceRoot env.hasher m
  pending : ∀ bytes value, tree.storage.putPendingPatch.lookup bytes = some value →
    tree.storage.db.leafIndices bytes = some value
  deletes : tree.storage.deletePendingPatch = []

/-- The database of an empty store. -/
theorem dbInv_empty (env : TreeEnv Row) :
    DbInv env (fun _ => treeKeyDefault) [] (.new .empty) where
  nodes := nodesConsistent_empty env
  numbers _ _ := rfl
  current := rfl

theorem newWithDb_empty (env : TreeEnv Row) : newWithDb env .empty =
    .ok ⟨.new .empty, referenceRoot env.hasher fun _ => treeKeyDefault, 0⟩ := by
  have hhead := TreeConfig.emptyEntries_hash env.hasher (Nat.zero_le rootTreeDepth)
  rw [← List.head?_eq_getElem?, Nat.sub_zero] at hhead
  have hmeta : (Storage.new Db.empty).fetchMetadata env = .ok (none, 0) := rfl
  simp only [newWithDb, TreeConfig.emptyTree_eq, hmeta, hhead, bind, Except.bind, orPanic_some,
    pure, Except.pure, Option.getD_none, referenceRoot, SparseMerkle.node_const]

theorem savedInv_start {tree : AccountTree} (h : newWithDb env .empty = .ok tree) :
    SavedInv env (fun _ => treeKeyDefault) [] tree := by
  rw [newWithDb_empty] at h
  cases h
  exact ⟨dbInv_empty env, rfl, fun _ _ h => (by cases h), rfl⟩

/-- The records of a block laid over the database they were computed from. -/
theorem DbInv.overlay (hsep : env.SeparateKeys) {s s' : Storage} (hdb : DbInv env m order s)
    {ops : List (TreeKey × TreeOperation)}
    (hrecords : ∀ bytes, s'.db.leafIndices bytes =
      (blockDelta env m order ops bytes).or (s.db.leafIndices bytes)) :
    DbInv env (leavesAfter env.hasher m ops ops.length) (enumerate order (writtenBy ops)) s' := by
  have hdelta := blockDelta_spec hsep m order ops
  constructor
  · have hnodes : s'.db.nodes env = fun a =>
        (blockDelta env m order ops (env.binKey a)).or (s.db.nodes env a) :=
      funext fun a => hrecords (env.binKey a)
    rw [hnodes]
    refine hdb.nodes.overlay (fun a => blockDelta env m order ops (env.binKey a)) ?_
    intro level hl i hi
    rw [hdelta.node (level, i) ⟨hl, hi⟩]
    split_ifs with htouch
    · exact .inl rfl
    · refine .inr ⟨rfl, SparseMerkle.node_after_eq _ _ _ (Nat.zero_le _) ?_⟩
      intro j _ _ hj hq
      simp only [leafAssignments, List.getElem_map] at hq
      exact htouch ⟨_, List.getElem_mem _, hq⟩
  · rintro key ⟨k, rfl⟩
    rw [hrecords, hdelta.leaf, hdb.numbers _ ⟨k, rfl⟩]
    by_cases hold : env.treeKeyOf k ∈ order
    · have hnew : env.treeKeyOf k ∈ enumerate order (writtenBy ops) := mem_enumerate.mpr (.inl hold)
      rw [if_neg fun h => h.2 hold, if_pos hold, if_pos hnew, idxOf_enumerate hold]
      rfl
    · by_cases hnew : env.treeKeyOf k ∈ enumerate order (writtenBy ops)
      · rw [if_pos ⟨hnew, hold⟩, if_pos hnew]
        rfl
      · rw [if_neg fun h => hnew h.1, if_neg hold, if_neg hnew]
        rfl
  · rw [currentIndex, hrecords, hdelta.counter]
    rfl

/-- The tree after a save with nothing to delete: the pending patch lies over the database. -/
def saved (tree : AccountTree) : AccountTree :=
  { tree with storage :=
    { tree.storage with
      db :=
        { leafIndices := fun bytes => (tree.storage.putPendingPatch.lookup bytes).or
            (tree.storage.db.leafIndices bytes)
          blockNumber := some tree.blockNumber } } }

theorem saved_leafIndices (tree : AccountTree) (bytes : List UInt8) :
    tree.saved.storage.db.leafIndices bytes =
      (tree.storage.putPendingPatch.lookup bytes).or (tree.storage.db.leafIndices bytes) := rfl

theorem save_eq {tree : AccountTree} {value : DbValue}
    (hpending : tree.storage.putPendingPatch.lookup leafIndexKey = some value)
    (hdeletes : tree.storage.deletePendingPatch = []) :
    tree.save true = .ok tree.saved := by
  have hne : tree.storage.putPendingPatch.toList.isEmpty = false := by
    rw [List.isEmpty_eq_false_iff_exists_mem]
    exact ⟨_, KeyedMap.mem_toList.mpr hpending⟩
  simp only [AccountTree.save, Storage.save, hne, Bool.false_and, Bool.false_eq_true, ↓reduceIte,
    writeBatch, hdeletes, List.foldl_nil, bind, Except.bind, pure, Except.pure, saved]

/-- Saving the patch of a block that was processed from a saved tree. -/
theorem SavedInv.save (hsep : env.SeparateKeys) {tree tree' : AccountTree}
    (h : SavedInv env m order tree) {ops : List (TreeKey × TreeOperation)}
    (hdb : tree'.storage.db = tree.storage.db)
    (hdel : tree'.storage.deletePendingPatch = tree.storage.deletePendingPatch)
    (hpending : ∀ bytes, tree'.storage.putPendingPatch.lookup bytes =
      (blockDelta env m order ops bytes).or (tree.storage.putPendingPatch.lookup bytes))
    (hroot : tree'.rootHash = referenceRoot env.hasher (leavesAfter env.hasher m ops ops.length)) :
    tree'.save true = .ok tree'.saved ∧
      (∀ bytes, tree'.saved.storage.db.leafIndices bytes =
        (blockDelta env m order ops bytes).or (tree.storage.db.leafIndices bytes)) ∧
      SavedInv env (leavesAfter env.hasher m ops ops.length) (enumerate order (writtenBy ops))
        tree'.saved := by
  have hcounter := hpending leafIndexKey
  rw [(blockDelta_spec hsep m order ops).counter] at hcounter
  have hrecords (bytes : List UInt8) : tree'.saved.storage.db.leafIndices bytes =
      (blockDelta env m order ops bytes).or (tree.storage.db.leafIndices bytes) := by
    -- what was pending before is in the database already
    rw [saved_leafIndices, hpending bytes, hdb, Option.or_assoc]
    cases hold : tree.storage.putPendingPatch.lookup bytes with
    | none => rfl
    | some value => rw [h.pending bytes value hold, Option.some_or]
  refine ⟨save_eq hcounter (hdel.trans h.deletes), hrecords, h.db.overlay hsep hrecords, hroot, ?_,
    hdel.trans h.deletes⟩
  intro bytes value hlook
  have hlook' : tree'.storage.putPendingPatch.lookup bytes = some value := hlook
  rw [saved_leafIndices, hlook', Option.some_or]

end AccountTree

end OlaOs
