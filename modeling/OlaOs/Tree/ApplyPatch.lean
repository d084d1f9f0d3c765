import OlaOs.Tree.BatchSpec

/-! `apply_patch`: the node map and the metadata of the operations. -/
namespace OlaOs

variable {Row : Type}

namespace BatchOps

variable (hasher : Hasher Row) (m : ℕ → TreeValue) (o : BatchOps)

/-- The nodes that operation `i` puts on its path, from the leaf to the root. -/
def nodesOf (i : ℕ) : List (LevelIndex × TreeKey) :=
  (List.range (rootTreeDepth + 1)).map fun h =>
    ((rootTreeDepth - h, o.idx h i), o.node hasher m (i + 1) h (o.idx h i))

/-- The neighbours of the path of operation `i`, from the leaf up. -/
def siblingsOf (i : ℕ) : List TreeKey :=
  (List.range rootTreeDepth).map fun h =>
    o.node hasher m (i + 1) h (SparseMerkle.sibling (o.idx h i))

/-- Change number `h` of operation `i`. -/
def changeAt (i : ℕ) : ℕ → TreeKey × NodeEntry
  | 0 => (o.key i, .leaf (o.value i))
  | h + 1 => (u256ToTreeKey (o.idx (h + 1) i), o.branchAt hasher m h i)

variable {hasher m o}

theorem changesAt_eq_map (d i : ℕ) :
    o.changesAt hasher m d i = (List.range (d + 1)).map (o.changeAt hasher m i) := by
  rw [changesAt, List.range_succ_eq_map, List.map_cons, List.map_map]
  rfl

theorem changeAt_key (i h : ℕ) : treeKeyToU256 (o.changeAt hasher m i h).1 = o.idx h i := by
  cases h with
  | zero => exact (o.idx_zero i).symm
  | succ h => exact treeKeyToU256_u256ToTreeKey (o.idx_lt_u256 (h + 1) i)

theorem changeAt_hash {i : ℕ} (hi : i < o.count) (h : ℕ) :
    (o.changeAt hasher m i h).2.hash = o.node hasher m (i + 1) h (o.idx h i) := by
  cases h with
  | zero =>
    rw [idx_zero, node_leaf hasher m o hi]
    rfl
  | succ h => rfl

theorem makeNode_changes {i : ℕ} (hi : i < o.count) :
    ((o.changesAt hasher m rootTreeDepth i).zipIdx.map fun e =>
      AccountTree.makeNode e.2 e.1.1 e.1.2) = o.nodesOf hasher m i := by
  rw [changesAt_eq_map, Seq.zipIdx_map_range, List.map_map, nodesOf]
  apply List.map_congr_left
  intro h _
  simp only [Function.comp, AccountTree.makeNode, changeAt_key, changeAt_hash hi]

theorem merklePaths_changes (i : ℕ) :
    AccountTree.merklePaths (o.key i) (o.changesAt hasher m rootTreeDepth i) =
      o.siblingsOf hasher m i := by
  rw [AccountTree.merklePaths, changesAt_eq_map, Seq.zipIdx_map_range, List.range_succ_eq_map,
    List.map_cons, List.map_map, List.filterMap_cons_none (by rfl), siblingsOf]
  rw [List.filterMap_map]
  apply Seq.filterMap_eq_map
  intro h _
  have hidx : treeKeyToU256 (o.key i) / 2 ^ (h + 1 - 1) % 2 = o.idx h i % 2 := rfl
  simp only [Function.comp, changeAt, branchAt, Nat.succ_eq_add_one, hidx, idx_succ,
    SparseMerkle.sibling_eq]
  by_cases hodd : o.idx h i % 2 = 1
  · rw [if_neg (by omega), if_pos hodd]
    congr 2
    omega
  · rw [if_pos (by omega), if_neg hodd]
    congr 2
    omega

variable (hasher m o) in
/-- The node map after the first `t` operations: the nodes on their paths, as they stand now. -/
structure BranchesAt (t : ℕ) (branches : KeyedMap LevelIndex TreeKey) : Prop where
  hit : ∀ h ≤ rootTreeDepth, ∀ j < t, branches.lookup (rootTreeDepth - h, o.idx h j) =
    some (o.node hasher m t h (o.idx h j))
  miss : ∀ lvlIdx, (∀ h ≤ rootTreeDepth, ∀ j < t, lvlIdx ≠ (rootTreeDepth - h, o.idx h j)) →
    branches.lookup lvlIdx = none

theorem branchesAt_zero : o.BranchesAt hasher m 0 ∅ :=
  ⟨fun _ _ _ hj => absurd hj (Nat.not_lt_zero _), fun _ _ => rfl⟩

theorem mem_nodesOf {i level q : ℕ} {value : TreeKey} :
    ((level, q), value) ∈ o.nodesOf hasher m i ↔ ∃ h ≤ rootTreeDepth,
      level = rootTreeDepth - h ∧ q = o.idx h i ∧ value = o.node hasher m (i + 1) h q := by
  simp only [nodesOf, List.mem_map, List.mem_range, Prod.mk.injEq, Nat.lt_succ_iff]
  constructor
  · rintro ⟨h, hh, ⟨rfl, rfl⟩, rfl⟩
    exact ⟨h, hh, rfl, rfl, rfl⟩
  · rintro ⟨h, hh, rfl, rfl, rfl⟩
    exact ⟨h, hh, ⟨rfl, rfl⟩, rfl⟩

theorem BranchesAt.extend {t : ℕ} {branches : KeyedMap LevelIndex TreeKey}
    (h : o.BranchesAt hasher m t branches) :
    o.BranchesAt hasher m (t + 1) (branches.extend (o.nodesOf hasher m t)) := by
  constructor
  · intro height hh j hj
    by_cases hsame : o.idx height j = o.idx height t
    · rw [hsame]
      apply KeyedMap.lookup_extend_of_forall
      · exact mem_nodesOf.mpr ⟨height, hh, rfl, rfl, rfl⟩
      · intro value hmem
        obtain ⟨height', hh', hlevel, -, rfl⟩ := mem_nodesOf.mp hmem
        obtain rfl : height' = height := by omega
        rfl
    · have hjt : j < t := by
        rcases Nat.lt_succ_iff_lt_or_eq.mp hj with hj | rfl
        · exact hj
        · exact absurd rfl hsame
      rw [KeyedMap.lookup_extend_of_notMem, h.hit height hh j hjt,
        o.node_eq_of_untouched hasher m (Nat.le_succ t)]
      · intro i hti hi _ hidx
        obtain rfl : i = t := by omega
        exact hsame hidx.symm
      · intro value hmem
        obtain ⟨height', hh', hlevel, hq, -⟩ := mem_nodesOf.mp hmem
        obtain rfl : height' = height := by omega
        exact hsame hq
  · intro lvlIdx hne
    rw [KeyedMap.lookup_extend_of_notMem, h.miss]
    · exact fun height hh j hj => hne height hh j (by omega)
    · intro value hmem
      obtain ⟨height, hh, hlevel, hq, -⟩ := mem_nodesOf.mp hmem
      exact hne height hh t (Nat.lt_succ_self t) (Prod.ext hlevel hq)

/-- The root after each operation. -/
theorem BranchesAt.root {t : ℕ} {branches : KeyedMap LevelIndex TreeKey}
    (h : o.BranchesAt hasher m (t + 1) branches) :
    branches.lookup (0, 0) = some (o.node hasher m (t + 1) rootTreeDepth 0) := by
  have hroot := h.hit rootTreeDepth (le_refl _) t (Nat.lt_succ_self t)
  rwa [idx_root, Nat.sub_self] at hroot

/-- The node map laid over records of the tree over `m` holds the tree after all operations. -/
theorem BranchesAt.consistent {nodes : LevelIndex → Option DbValue}
    {branches : KeyedMap LevelIndex TreeKey} (hc : NodesConsistent hasher nodes m)
    (h : o.BranchesAt hasher m o.count branches) :
    NodesConsistent hasher (fun lvlIdx => ((branches.lookup lvlIdx).map .hash).or (nodes lvlIdx))
      (SparseMerkle.after m o.assigns o.count) := by
  refine hc.overlay (fun lvlIdx => (branches.lookup lvlIdx).map .hash) ?_
  intro level hl i _
  by_cases hhit : ∃ j < o.count, o.idx (rootTreeDepth - level) j = i
  · obtain ⟨j, hj, rfl⟩ := hhit
    have hlook := h.hit (rootTreeDepth - level) (Nat.sub_le _ _) j hj
    rw [Nat.sub_sub_self hl] at hlook
    rw [hlook]
    exact .inl rfl
  · push Not at hhit
    have hmiss : branches.lookup (level, i) = none := by
      apply h.miss
      intro height hh j hj heq
      obtain ⟨hlevel, hidx⟩ := Prod.mk.inj heq
      obtain rfl : height = rootTreeDepth - level := by omega
      exact hhit j hj hidx.symm
    rw [hmiss]
    exact .inr ⟨rfl, o.node_eq_of_untouched hasher m (Nat.zero_le _) fun j _ _ hj => hhit j hj⟩

end BatchOps

namespace AccountTree

open BatchOps

variable {hasher : Hasher Row} {m : ℕ → TreeValue} {o : BatchOps}

/-- The metadata of operation `t`, given the indices of its block and of its leaf. -/
def metadataAt (hasher : Hasher Row) (m : ℕ → TreeValue) (o : BatchOps)
    (operation : ℕ → TreeOperation) (previousIndex leafIndex : ℕ → ℕ) (t : ℕ) :
    StorageLogMetadata where
  rootHash := o.node hasher m (t + 1) rootTreeDepth 0
  isWrite := (operation t).isWrite
  firstWrite := (operation t).isWrite && decide (previousIndex t ≤ leafIndex t)
  merklePaths := o.siblingsOf hasher m t
  leafHashedKey := o.key t
  leafEnumerationIndex := leafIndex t
  valueWritten := (operation t).valueWritten
  valueRead := (operation t).valueRead

/-- One step of the fold on entries that begin with a leaf the block knows. -/
theorem applyPatchStep_ok {leafIndices : List LeafIndices} {block leafIndex : ℕ} {key : TreeKey}
    {operation : TreeOperation} {blockIndices : LeafIndices} {first : TreeKey × NodeEntry}
    {entries : List (TreeKey × NodeEntry)} {branches : KeyedMap LevelIndex TreeKey}
    {metadata : List StorageLogMetadata} {nodes : List (LevelIndex × TreeKey)} {rootHash : TreeKey}
    (hhead : entries.head? = some first) (hblock : leafIndices[block]? = some blockIndices)
    (hleaf : blockIndices.leafIndices.lookup first.1.canonical = some leafIndex)
    (hnodes : (entries.zipIdx.map fun e => makeNode e.2 e.1.1 e.1.2) = nodes)
    (hroot : (branches.extend nodes).lookup (0, 0) = some rootHash) :
    applyPatchStep leafIndices (branches, metadata) (entries, (block, (key, operation))) =
      .ok (branches.extend nodes, metadata ++ [{
        rootHash
        isWrite := operation.isWrite
        firstWrite := operation.isWrite && decide (blockIndices.previousIndex ≤ leafIndex)
        merklePaths := merklePaths first.1 entries
        leafHashedKey := first.1
        leafEnumerationIndex := leafIndex
        valueWritten := operation.valueWritten
        valueRead := operation.valueRead }]) := by
  simp only [applyPatchStep, hhead, okOr_some, hblock, okOrNotFound_some, hleaf, hnodes, hroot,
    bind, Except.bind, pure, Except.pure]

theorem applyPatchStep_eq {leafIndices : List LeafIndices} {t block : ℕ} {key : TreeKey}
    (operation : ℕ → TreeOperation) (previousIndex : ℕ → ℕ) {leafIndex : ℕ → ℕ}
    {blockIndices : LeafIndices}
    (ht : t < o.count) (hblock : leafIndices[block]? = some blockIndices)
    (hprev : blockIndices.previousIndex = previousIndex t)
    (hleaf : blockIndices.leafIndices.lookup (o.key t).canonical = some (leafIndex t))
    {branches : KeyedMap LevelIndex TreeKey} {metadata : List StorageLogMetadata}
    (hb : o.BranchesAt hasher m t branches) :
    ∃ branches', applyPatchStep leafIndices (branches, metadata)
        (o.changesAt hasher m rootTreeDepth t, (block, (key, operation t))) =
          .ok (branches',
            metadata ++ [metadataAt hasher m o operation previousIndex leafIndex t]) ∧
      o.BranchesAt hasher m (t + 1) branches' := by
  have hhead : (o.changesAt hasher m rootTreeDepth t).head? =
      some (o.key t, .leaf (o.value t)) := by rw [changesAt, List.head?_cons]
  refine ⟨branches.extend (o.nodesOf hasher m t), ?_, hb.extend⟩
  rw [applyPatchStep_ok hhead hblock hleaf (makeNode_changes ht) hb.extend.root,
    merklePaths_changes, hprev, metadataAt]

variable (hasher m o) in
theorem applyPatch_eq (leafIndices : List LeafIndices) (block : ℕ → ℕ)
    (operation : ℕ → TreeOperation) (blockIndices : ℕ → LeafIndices) (leafIndex : ℕ → ℕ)
    (hblock : ∀ t < o.count, leafIndices[block t]? = some (blockIndices t))
    (hleaf : ∀ t < o.count,
      (blockIndices t).leafIndices.lookup (o.key t).canonical = some (leafIndex t)) :
    ∃ branches, applyPatch ((List.range o.count).map (o.changesAt hasher m rootTreeDepth))
        ((List.range o.count).map fun t => (block t, (o.key t, operation t))) leafIndices =
          .ok (branches, (List.range o.count).map (metadataAt hasher m o operation
            (fun t => (blockIndices t).previousIndex) leafIndex)) ∧
      o.BranchesAt hasher m o.count branches := by
  rw [applyPatch, Seq.zip_map_range, List.foldlM_map]
  obtain ⟨⟨branches, metadata⟩, hrun, hb, rfl⟩ := Seq.foldlM_range
    (fun acc t => applyPatchStep leafIndices acc
      (o.changesAt hasher m rootTreeDepth t, (block t, (o.key t, operation t))))
    (fun t (acc : KeyedMap LevelIndex TreeKey × List StorageLogMetadata) =>
      o.BranchesAt hasher m t acc.1 ∧ acc.2 = (List.range t).map (metadataAt hasher m o operation
        (fun t => (blockIndices t).previousIndex) leafIndex)) o.count
    (by
      rintro t ⟨branches, metadata⟩ ht ⟨hb, rfl⟩
      obtain ⟨branches', hstep, hb'⟩ := applyPatchStep_eq operation
        (fun t => (blockIndices t).previousIndex) ht (hblock t ht) rfl (hleaf t ht) hb
      exact ⟨_, hstep, hb', by rw [List.range_succ, List.map_append]; rfl⟩)
    (s := (∅, [])) ⟨branchesAt_zero, rfl⟩
  exact ⟨branches, hrun, hb⟩

end AccountTree

end OlaOs
