import OlaOs.Tree.AccountTree

/-! The reference tree of a batch: the leaves are set one operation at a time. Every value that
`calculate` handles is named here by the height, the operation and the tree it belongs to. -/
namespace OlaOs

variable {Row : Type}

/-- The operations of a batch, numbered from zero. -/
structure BatchOps where
  count : ℕ
  key : ℕ → TreeKey
  value : ℕ → TreeValue

namespace BatchOps

variable (hasher : Hasher Row) (m : ℕ → TreeValue) (o : BatchOps)

def assigns : List (ℕ × TreeValue) :=
  (List.range o.count).map fun i => (treeKeyToU256 (o.key i), o.value i)

/-- Node `q` of height `h` after the first `t` operations. -/
def node (t h q : ℕ) : TreeValue :=
  SparseMerkle.node hasher.combine (SparseMerkle.after m o.assigns t) h q

/-- The node of height `h` on the path of operation `i`. -/
def idx (h i : ℕ) : ℕ := treeKeyToU256 (o.key i) / 2 ^ h

/-- The operations below node `q` of height `h`. -/
def touch (h q : ℕ) : List ℕ := (List.range o.count).filter fun i => o.idx h i = q

def branchAt (h i : ℕ) : NodeEntry :=
  .branch (o.node hasher m (i + 1) (h + 1) (o.idx (h + 1) i))
    (o.node hasher m (i + 1) h (2 * o.idx (h + 1) i))
    (o.node hasher m (i + 1) h (2 * o.idx (h + 1) i + 1))

def changesAt (d i : ℕ) : List (TreeKey × NodeEntry) :=
  (o.key i, .leaf (o.value i)) ::
    (List.range d).map fun h => (u256ToTreeKey (o.idx (h + 1) i), o.branchAt hasher m h i)

/-- The database values along the path of operation `i`, from level one down to height `d`: the
neighbours, or the nodes of the path themselves. -/
def unclesAt (neiFlag : Bool) (d i : ℕ) : List TreeKey :=
  (List.range (rootTreeDepth - d)).map fun level =>
    o.node hasher m 0 (rootTreeDepth - (level + 1))
      (neighborIdx (o.idx (rootTreeDepth - (level + 1)) i) neiFlag)

def updateAt (neiFlag : Bool) (d i : ℕ) : Update :=
  ⟨i, o.unclesAt hasher m neiFlag d i, o.changesAt hasher m d i⟩

/-- The trace row of operation `i` for the pair of nodes at height `h`. -/
def traceAt (h i : ℕ) : HashTrace Row where
  hash := (compressNode hasher (o.node hasher m i h (SparseMerkle.sibling (o.idx h i)))
    (o.node hasher m (i + 1) h (o.idx h i)) (o.idx h i % 2 = 1) h).1.2
  path := o.node hasher m (i + 1) h (o.idx h i)
  sibling := o.node hasher m i h (SparseMerkle.sibling (o.idx h i))
  prePath := o.node hasher m i h (o.idx h i)
  preHash := (compressNode hasher (o.node hasher m i h (SparseMerkle.sibling (o.idx h i)))
    (o.node hasher m i h (o.idx h i)) (o.idx h i % 2 = 1) h).1.2

@[simp] theorem length_assigns : o.assigns.length = o.count := by simp [assigns]

theorem getElem_assigns {i : ℕ} (hi : i < o.assigns.length) :
    o.assigns[i] = (treeKeyToU256 (o.key i), o.value i) := by
  simp [assigns]

theorem idx_zero (i : ℕ) : o.idx 0 i = treeKeyToU256 (o.key i) := by simp [idx]

theorem idx_succ (h i : ℕ) : o.idx (h + 1) i = o.idx h i / 2 := by
  rw [idx, idx, pow_succ, Nat.div_div_eq_div_mul]

theorem idx_lt {h : ℕ} (hh : h ≤ rootTreeDepth) (i : ℕ) :
    o.idx h i < 2 ^ (rootTreeDepth - h) := by
  have hk := treeKeyToU256_lt (o.key i)
  rw [rootTreeDepth_eq] at hh ⊢
  rw [idx, Nat.div_lt_iff_lt_mul (Nat.two_pow_pos h), ← pow_add, Nat.sub_add_cancel hh]
  exact hk

theorem idx_root (i : ℕ) : o.idx rootTreeDepth i = 0 := by
  have := o.idx_lt (le_refl rootTreeDepth) i
  simpa using this

theorem idx_lt_u256 (h i : ℕ) : o.idx h i < 2 ^ 256 :=
  (Nat.div_le_self _ _).trans_lt (treeKeyToU256_lt (o.key i))

theorem mem_touch {h q i : ℕ} : i ∈ o.touch h q ↔ i < o.count ∧ o.idx h i = q := by
  simp [touch]

theorem touch_sorted (h q : ℕ) : (o.touch h q).Pairwise (· < ·) :=
  (List.pairwise_lt_range).filter _

theorem touch_nodup (h q : ℕ) : (o.touch h q).Nodup := List.nodup_range.filter _

/-- A node keeps its hash while no operation below it is applied. -/
theorem node_eq_of_untouched {s t h q : ℕ} (hst : s ≤ t)
    (hne : ∀ j, s ≤ j → j < t → j < o.count → o.idx h j ≠ q) :
    o.node hasher m t h q = o.node hasher m s h q := by
  apply SparseMerkle.node_after_eq _ _ _ hst
  intro j hs ht hj
  rw [getElem_assigns]
  exact hne j hs ht (by simpa using hj)

theorem node_sibling {h i : ℕ} (hi : i < o.count) :
    o.node hasher m (i + 1) h (SparseMerkle.sibling (o.idx h i)) =
      o.node hasher m i h (SparseMerkle.sibling (o.idx h i)) := by
  have hs := SparseMerkle.node_sibling_after hasher.combine m o.assigns
    (by simpa using hi : i < o.assigns.length) h
  rw [getElem_assigns] at hs
  exact hs

theorem node_leaf {i : ℕ} (hi : i < o.count) :
    o.node hasher m (i + 1) 0 (treeKeyToU256 (o.key i)) = o.value i := by
  have hs := SparseMerkle.after_succ_self m o.assigns (by simpa using hi : i < o.assigns.length)
  rw [getElem_assigns] at hs
  exact hs

theorem neighborIdx_true (q : ℕ) : neighborIdx q true = SparseMerkle.sibling q := rfl

theorem changesAt_succ (d i : ℕ) :
    o.changesAt hasher m (d + 1) i =
      o.changesAt hasher m d i ++
        [(u256ToTreeKey (o.idx (d + 1) i), o.branchAt hasher m d i)] := by
  simp [changesAt, List.range_succ]

/-- The last change names the current node of the operation and holds its hash. -/
theorem changesAt_getLast {d i : ℕ} (hi : i < o.count) :
    ∃ e, (o.changesAt hasher m d i).getLast? = some e ∧ treeKeyToU256 e.1 = o.idx d i ∧
      e.2.hash = o.node hasher m (i + 1) d (o.idx d i) := by
  cases d with
  | zero =>
    refine ⟨(o.key i, .leaf (o.value i)), by simp [changesAt], (o.idx_zero i).symm, ?_⟩
    rw [idx_zero, node_leaf hasher m o hi]
    rfl
  | succ d =>
    refine ⟨_, by rw [changesAt_succ]; exact List.getLast?_concat, ?_, rfl⟩
    exact treeKeyToU256_u256ToTreeKey (o.idx_lt_u256 (d + 1) i)

theorem unclesAt_getLast (neiFlag : Bool) {d : ℕ} (hd : d < rootTreeDepth) (i : ℕ) :
    (o.unclesAt hasher m neiFlag d i).getLast? =
      some (o.node hasher m 0 d (neighborIdx (o.idx d i) neiFlag)) := by
  obtain ⟨r, hr⟩ : ∃ r, rootTreeDepth - d = r + 1 := ⟨rootTreeDepth - d - 1, by omega⟩
  have hlevel : rootTreeDepth - (r + 1) = d := by omega
  rw [unclesAt, hr, List.range_succ, List.map_append, List.map_cons, List.map_nil,
    List.getLast?_concat, hlevel]

theorem unclesAt_dropLast (neiFlag : Bool) (d i : ℕ) :
    (o.unclesAt hasher m neiFlag d i).dropLast = o.unclesAt hasher m neiFlag (d + 1) i := by
  rw [unclesAt, unclesAt, ← Nat.sub_sub]
  cases rootTreeDepth - d with
  | zero => rfl
  | succ r =>
    rw [List.range_succ, List.map_append, List.map_cons, List.map_nil, List.dropLast_concat,
      Nat.add_sub_cancel]

/-- Hashing the current node with its neighbour gives the next branch of the operation. -/
theorem compressNode_current {h i : ℕ} (hi : i < o.count) :
    (compressNode hasher (o.node hasher m i h (SparseMerkle.sibling (o.idx h i)))
      (o.node hasher m (i + 1) h (o.idx h i)) (o.idx h i % 2 = 1) h).2 =
      o.branchAt hasher m h i := by
  have hp := SparseMerkle.node_parent hasher.combine (SparseMerkle.after m o.assigns (i + 1)) h
    (o.idx h i)
  rw [← node_sibling hasher m o hi, branchAt, idx_succ]
  simp only [node, compressNode, SparseMerkle.orient] at hp ⊢
  by_cases hodd : o.idx h i % 2 = 1
  · have hl : 2 * (o.idx h i / 2) = SparseMerkle.sibling (o.idx h i) := by
      rw [SparseMerkle.sibling_eq, if_pos hodd]; omega
    have hr : SparseMerkle.sibling (o.idx h i) + 1 = o.idx h i := by
      rw [SparseMerkle.sibling_eq, if_pos hodd]; omega
    simp only [hodd, decide_true, ↓reduceIte] at hp ⊢
    rw [hp, hl, hr]
    rfl
  · have hl : 2 * (o.idx h i / 2) = o.idx h i := by omega
    have hr : o.idx h i + 1 = SparseMerkle.sibling (o.idx h i) := by
      rw [SparseMerkle.sibling_eq, if_neg hodd]
    simp only [hodd, decide_false, Bool.false_eq_true, ↓reduceIte] at hp ⊢
    rw [hp, hl, hr]
    rfl

/-- Hashing the old node with the same neighbour gives the old parent. -/
theorem compressNode_previous (h i : ℕ) :
    (compressNode hasher (o.node hasher m i h (SparseMerkle.sibling (o.idx h i)))
      (o.node hasher m i h (o.idx h i)) (o.idx h i % 2 = 1) h).1.1 =
      o.node hasher m i (h + 1) (o.idx (h + 1) i) := by
  have hp := SparseMerkle.node_parent hasher.combine (SparseMerkle.after m o.assigns i) h
    (o.idx h i)
  rw [idx_succ]
  exact hp.symm

end BatchOps

end OlaOs
