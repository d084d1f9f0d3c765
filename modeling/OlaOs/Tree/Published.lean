import OlaOs.Tree.Enumeration
import OlaOs.Types.BatchCommitment

/-! The state of the tree from the published write sets
(`ola_core/src/metadata_calculator/mod.rs`, `types/src/commitment.rs`). -/
namespace OlaOs

open Enumerate BatchOps Storage

variable {Row : Type}

/-- `MetadataCalculator::build_l1_batch_metadata`; the base system contracts are from the header. -/
def buildL1BatchMetadata (hashBytes : List UInt8 → H256) (treeMetadata : TreeMetadata Row)
    (metaParameters : L1BatchMetaParameters) : Except String L1BatchMetadata := do
  let merkleRootHash := treeKeyToH256 treeMetadata.rootHash
  let commitment := L1BatchCommitment.new hashBytes treeMetadata.rollupLastLeafIndex
    merkleRootHash treeMetadata.initialWrites treeMetadata.repeatedWrites metaParameters
  let commitmentHash ← commitment.hash hashBytes
  return {
    rootHash := merkleRootHash
    rollupLastLeafIndex := treeMetadata.rollupLastLeafIndex
    merkleRootHash := merkleRootHash
    initialWritesCompressed := commitment.auxiliaryOutput.initialWritesCompressed
    repeatedWritesCompressed := commitment.auxiliaryOutput.repeatedWritesCompressed
    commitment := commitmentHash.commitment
    l2L1MessagesCompressed := []
    l2L1MerkleRoot := .zero
    blockMetaParams := commitment.metaParameters
    auxDataHash := commitmentHash.auxOutput
    metaParametersHash := commitmentHash.metaParameters
    passThroughDataHash := commitmentHash.passThroughData
    stateDiffsCompressed := []
    eventsQueueCommitment := none }

/-- What a batch is committed to. -/
def committedBatch (metadata : TreeMetadata Row) (metaParameters : L1BatchMetaParameters) :
    CommittedBatch where
  rollupLastLeafIndex := metadata.rollupLastLeafIndex
  rollupRootHash := treeKeyToH256 metadata.rootHash
  initialWrites := metadata.initialWrites
  repeatedWrites := metadata.repeatedWrites
  metaParameters := metaParameters

theorem buildL1BatchMetadata_eq (hashBytes : List UInt8 → H256) (treeMetadata : TreeMetadata Row)
    (metaParameters : L1BatchMetaParameters) :
    buildL1BatchMetadata hashBytes treeMetadata metaParameters =
      .ok ((committedBatch treeMetadata metaParameters).metadata hashBytes) := by
  have hhash := (committedBatch treeMetadata metaParameters).hash_commitment hashBytes
  simp only [CommittedBatch.commitment, committedBatch] at hhash
  simp only [buildL1BatchMetadata, hhash, bind, Except.bind, pure, Except.pure]
  rfl

/-- What a reader of the published data keeps: the index and the value of every key, and the next
free index. -/
structure PublishedState where
  entries : KeyedMap ℕ (ℕ × H256)
  nextIndex : ℕ

namespace PublishedState

/-- The key with an index. -/
def keyOf (state : PublishedState) (index : ℕ) : Option ℕ :=
  (state.entries.toList.find? fun e => e.2.1 = index).map Prod.fst

/-- An initial write takes the next index. -/
def applyInitial (state : PublishedState) (write : ℕ × H256) : PublishedState :=
  ⟨state.entries.insert write.1 (state.nextIndex, write.2), state.nextIndex + 1⟩

/-- A repeated write names its key by the index. -/
def applyRepeated (state : PublishedState) (write : ℕ × H256) : Option PublishedState :=
  (state.keyOf write.1).map fun key =>
    { state with entries := state.entries.insert key (write.1, write.2) }

/-- The published bytes of a batch, applied to the state before it. -/
def applyBatch (state : PublishedState) (metadata : L1BatchMetadata) : Option PublishedState := do
  let initialWrites ← decodeInitialWrites metadata.initialWritesCompressed
  let repeatedWrites ← decodeRepeatedWrites metadata.repeatedWritesCompressed
  repeatedWrites.foldlM applyRepeated (initialWrites.foldl applyInitial state)

/-- Initial writes to different keys take consecutive indices. -/
theorem foldl_applyInitial (state : PublishedState) {writes : List (ℕ × H256)}
    (hnodup : (writes.map Prod.fst).Nodup) :
    (writes.foldl applyInitial state).nextIndex = state.nextIndex + writes.length ∧
      (∀ e ∈ writes.zipIdx state.nextIndex,
        (writes.foldl applyInitial state).entries.lookup e.1.1 = some (e.2, e.1.2)) ∧
      ∀ k, k ∉ writes.map Prod.fst →
        (writes.foldl applyInitial state).entries.lookup k = state.entries.lookup k := by
  induction writes generalizing state with
  | nil => exact ⟨rfl, nofun, fun _ _ => rfl⟩
  | cons write writes ih =>
    obtain ⟨hfresh, hnodup'⟩ := List.nodup_cons.mp hnodup
    obtain ⟨hnext, hhit, hmiss⟩ := ih (state.applyInitial write) hnodup'
    refine ⟨?_, ?_, ?_⟩
    · rw [List.foldl_cons, hnext, List.length_cons, applyInitial]
      dsimp only
      omega
    · intro e he
      rw [List.zipIdx_cons, List.mem_cons] at he
      rw [List.foldl_cons]
      rcases he with rfl | he
      · rw [hmiss _ hfresh, applyInitial, KeyedMap.lookup_insert_eq, if_pos rfl]
      · exact hhit e he
    · intro k hk
      rw [List.map_cons, List.mem_cons, not_or] at hk
      rw [List.foldl_cons, hmiss k hk.2, applyInitial, KeyedMap.lookup_insert_eq, if_neg hk.1]

/-- No index belongs to two keys. -/
def Indexed (state : PublishedState) : Prop :=
  ∀ k k' e e', state.entries.lookup k = some e → state.entries.lookup k' = some e' → e.1 = e'.1 →
    k = k'

theorem Indexed.keyOf_eq {state : PublishedState} (h : state.Indexed) {k : ℕ} {e : ℕ × H256}
    (hk : state.entries.lookup k = some e) : state.keyOf e.1 = some k := by
  unfold keyOf
  cases hfind : state.entries.toList.find? fun e' => e'.2.1 = e.1 with
  | none =>
    have hnone := List.find?_eq_none.mp hfind _ (KeyedMap.mem_toList.mpr hk)
    simp at hnone
  | some found =>
    have hmem := KeyedMap.mem_toList.mp (List.mem_of_find?_eq_some hfind)
    have hindex : found.2.1 = e.1 := by simpa using List.find?_some hfind
    rw [Option.map_some, h found.1 k found.2 e hmem hk hindex]

/-- The entries stand under leaves of `order`, with their numbers. -/
def Numbered (order : List TreeKey) (state : PublishedState) : Prop :=
  ∀ k e, state.entries.lookup k = some e →
    ∃ leaf ∈ order, k = treeKeyToU256 leaf ∧ e.1 = order.idxOf leaf + 1

theorem Numbered.indexed {order : List TreeKey} {state : PublishedState}
    (h : state.Numbered order) : state.Indexed := by
  intro k k' e e' hk hk' heq
  obtain ⟨leaf, hleaf, rfl, hindex⟩ := h k e hk
  obtain ⟨leaf', -, rfl, hindex'⟩ := h k' e' hk'
  have hsame : order.idxOf leaf = order.idxOf leaf' := by omega
  rw [(List.idxOf_inj hleaf).mp hsame]

/-- A write under its own index changes no index. -/
theorem Indexed.insert {state : PublishedState} (h : state.Indexed) {k : ℕ} {e : ℕ × H256}
    (hk : state.entries.lookup k = some e) (value : H256) :
    Indexed { state with entries := state.entries.insert k (e.1, value) } := by
  have hindex {k' : ℕ} {e' : ℕ × H256}
      (hk' : (state.entries.insert k (e.1, value)).lookup k' = some e') :
      ∃ old, state.entries.lookup k' = some old ∧ old.1 = e'.1 := by
    rw [KeyedMap.lookup_insert_eq] at hk'
    split_ifs at hk' with heq
    · obtain rfl := heq
      obtain rfl := Option.some.inj hk'
      exact ⟨e, hk, rfl⟩
    · exact ⟨e', hk', rfl⟩
  intro k₁ k₂ e₁ e₂ h₁ h₂ heq
  obtain ⟨old₁, hold₁, hindex₁⟩ := hindex h₁
  obtain ⟨old₂, hold₂, hindex₂⟩ := hindex h₂
  exact h k₁ k₂ old₁ old₂ hold₁ hold₂ (by rw [hindex₁, hindex₂, heq])

/-- Repeated writes to different keys, each under the index of its key. -/
theorem foldlM_applyRepeated {state : PublishedState} (h : state.Indexed)
    {writes : List (ℕ × ℕ × H256)} (hnodup : (writes.map Prod.fst).Nodup)
    (hknown : ∀ w ∈ writes, ∃ value, state.entries.lookup w.1 = some (w.2.1, value)) :
    ∃ state', (writes.map Prod.snd).foldlM applyRepeated state = some state' ∧
      state'.nextIndex = state.nextIndex ∧
      (∀ w ∈ writes, state'.entries.lookup w.1 = some w.2) ∧
      ∀ k, k ∉ writes.map Prod.fst → state'.entries.lookup k = state.entries.lookup k := by
  induction writes generalizing state with
  | nil => exact ⟨state, rfl, rfl, nofun, fun _ _ => rfl⟩
  | cons w writes ih =>
    obtain ⟨hfresh, hnodup'⟩ := List.nodup_cons.mp hnodup
    obtain ⟨old, hold⟩ := hknown w List.mem_cons_self
    have hkey := h.keyOf_eq hold
    have hinsert := h.insert hold w.2.2
    have hknown' : ∀ w' ∈ writes, ∃ value,
        (state.entries.insert w.1 (w.2.1, w.2.2)).lookup w'.1 = some (w'.2.1, value) := by
      intro w' hw'
      have hne : w'.1 ≠ w.1 := fun heq => hfresh (heq ▸ List.mem_map.mpr ⟨w', hw', rfl⟩)
      rw [KeyedMap.lookup_insert_eq, if_neg hne]
      exact hknown w' (List.mem_cons_of_mem _ hw')
    obtain ⟨state', hrun, hnext, hhit, hmiss⟩ := ih hinsert hnodup' hknown'
    refine ⟨state', ?_, hnext, ?_, ?_⟩
    · rw [List.map_cons, List.foldlM_cons, applyRepeated, hkey]
      exact hrun
    · intro w' hw'
      rcases List.mem_cons.mp hw' with rfl | hw'
      · rw [hmiss _ hfresh, KeyedMap.lookup_insert_eq, if_pos rfl]
      · exact hhit w' hw'
    · intro k hk
      rw [List.map_cons, List.mem_cons, not_or] at hk
      rw [hmiss k hk.2, KeyedMap.lookup_insert_eq, if_neg hk.1]

end PublishedState

namespace AccountTree

variable {env : TreeEnv Row} {m : ℕ → TreeValue} {order : List TreeKey}

/-- The value of a leaf, as the tree reads it. -/
def leafValue (env : TreeEnv Row) (tree : AccountTree) (leaf : TreeKey) : Option TreeValue :=
  (hashByLvlIdx env tree.storage (rootTreeDepth, treeKeyToU256 leaf)).toOption.map Prod.snd

/-- The index and the value of a leaf that has been written. -/
def entry (env : TreeEnv Row) (tree : AccountTree) (leaf : TreeKey) : Option (ℕ × H256) := do
  let index ← tree.leafIndex leaf
  let value ← tree.leafValue env leaf
  some (index, treeValueToH256 value)

/-- A published state that has the indices and values of the tree, and no other keys. -/
structure DescribedBy (env : TreeEnv Row) (tree : AccountTree) (state : PublishedState) : Prop where
  entries : ∀ key : StorageKey, state.entries.lookup (treeKeyToU256 (env.treeKeyOf key)) =
    tree.entry env (env.treeKeyOf key)
  keys : ∀ k e, state.entries.lookup k = some e →
    ∃ key : StorageKey, k = treeKeyToU256 (env.treeKeyOf key)
  nextIndex : state.nextIndex = tree.storage.currentIndex

theorem DbInv.leafValue_eq {tree : AccountTree} (h : DbInv env m order tree.storage)
    (leaf : TreeKey) : tree.leafValue env leaf = some (m (treeKeyToU256 leaf)) := by
  have hlt : treeKeyToU256 leaf < 2 ^ rootTreeDepth := by
    rw [rootTreeDepth_eq]
    exact treeKeyToU256_lt leaf
  unfold leafValue
  rw [hashByLvlIdx_eq h.nodes le_rfl hlt, Nat.sub_self]
  rfl

theorem DbInv.entry_eq {tree : AccountTree} (h : DbInv env m order tree.storage)
    (key : StorageKey) : tree.entry env (env.treeKeyOf key) =
      if env.treeKeyOf key ∈ order then some (order.idxOf (env.treeKeyOf key) + 1,
        treeValueToH256 (m (treeKeyToU256 (env.treeKeyOf key)))) else none := by
  unfold entry
  rw [h.leafIndex_eq, h.leafValue_eq]
  split_ifs <;> rfl

/-- A state that describes the tree has the numbering of the tree. -/
theorem DescribedBy.numbered {tree : AccountTree} {state : PublishedState}
    (h : DescribedBy env tree state) (hdb : DbInv env m order tree.storage) :
    state.Numbered order := by
  intro k e hk
  obtain ⟨key, rfl⟩ := h.keys k e hk
  rw [h.entries, hdb.entry_eq] at hk
  split_ifs at hk with hmem
  obtain rfl := Option.some.inj hk
  exact ⟨_, hmem, rfl, rfl⟩

theorem writesOf_blockOps_length (logs : List WitnessStorageLog) :
    (writesOf (blockOps env logs)).length =
      (logs.filter fun log => log.storageLog.kind = .write).length := by
  induction logs with
  | nil => rfl
  | cons log logs ih =>
    have hcons : writesOf (blockOps env (log :: logs)) =
        (writesOf [treeOperation env log]) ++ writesOf (blockOps env logs) :=
      by
      unfold writesOf
      rw [← List.filterMap_append]
      rfl
    rw [hcons, List.length_append, ih, List.filter_cons, treeOperation]
    cases hkind : log.storageLog.kind <;> simp [writesOf, Nat.add_comm]

theorem mem_writesOf {ops : List (TreeKey × TreeOperation)} {w : TreeKey × TreeValue} :
    w ∈ writesOf ops ↔ ∃ previousValue, (w.1, .write w.2 previousValue) ∈ ops := by
  unfold writesOf
  rw [List.mem_filterMap]
  constructor
  · rintro ⟨⟨key, op⟩, hop, heq⟩
    cases op with
    | write value previousValue =>
      obtain rfl := Option.some.inj heq
      exact ⟨previousValue, hop⟩
    | read value => cases heq
    | delete => cases heq
  · rintro ⟨previousValue, hop⟩
    exact ⟨_, hop, rfl⟩

/-- A block whose logs are about different leaves. -/
structure DistinctOps (env : TreeEnv Row) (m : ℕ → TreeValue)
    (ops : List (TreeKey × TreeOperation)) :
    Prop where
  nodup : (ops.map Prod.fst).Nodup
  reads : ∀ leaf value, (leaf, .read value) ∈ ops → value = m (treeKeyToU256 leaf)
  hashed : ∀ op ∈ ops, ∃ key, op.1 = env.treeKeyOf key
  ne_delete : ∀ op ∈ ops, op.2 ≠ .delete

namespace DistinctOps

variable {ops : List (TreeKey × TreeOperation)}

theorem nodup_writesOf (h : DistinctOps env m ops) : ((writesOf ops).map Prod.fst).Nodup := by
  refine h.nodup.sublist ?_
  clear h
  induction ops with
  | nil => exact .slnil
  | cons op ops ih =>
    obtain ⟨leaf, op⟩ := op
    cases op with
    | write value previousValue => exact ih.cons_cons leaf
    | read value => exact ih.cons leaf
    | delete => exact ih.cons leaf

/-- Some of the writes, by the numbers of their leaves. -/
theorem nodup_filter_writesOf (h : DistinctOps env m ops) (p : TreeKey × TreeValue → Bool) :
    (((writesOf ops).filter p).map fun w => treeKeyToU256 w.1).Nodup := by
  have hnodup := h.nodup_writesOf
  rw [List.Nodup, List.pairwise_map] at hnodup ⊢
  exact (hnodup.filter p).imp fun hne heq => hne (treeKeyToU256_injective heq)

theorem nodup_leafAssignments (h : DistinctOps env m ops) :
    ((leafAssignments env.hasher ops).map Prod.fst).Nodup := by
  have hkeys : (leafAssignments env.hasher ops).map Prod.fst =
      (ops.map Prod.fst).map treeKeyToU256 := by
    rw [leafAssignments, List.map_map, List.map_map]
    rfl
  rw [hkeys]
  exact h.nodup.map treeKeyToU256_injective

theorem length_leafAssignments (ops : List (TreeKey × TreeOperation)) :
    (leafAssignments env.hasher ops).length = ops.length := List.length_map _

/-- The leaf of a write has its value after the block. -/
theorem leavesAfter_write (h : DistinctOps env m ops) {w : TreeKey × TreeValue}
    (hw : w ∈ writesOf ops) :
    leavesAfter env.hasher m ops ops.length (treeKeyToU256 w.1) = w.2 := by
  obtain ⟨previousValue, hop⟩ := mem_writesOf.mp hw
  have hmem : (treeKeyToU256 w.1, w.2) ∈ leafAssignments env.hasher ops :=
    List.mem_map.mpr ⟨_, hop, rfl⟩
  rw [leavesAfter, ← @length_leafAssignments _ env]
  exact SparseMerkle.after_of_mem_of_nodup m h.nodup_leafAssignments hmem

/-- All other leaves keep theirs. -/
theorem leavesAfter_rest (h : DistinctOps env m ops) {leaf : TreeKey}
    (hleaf : ∀ value, (leaf, value) ∉ writesOf ops) :
    leavesAfter env.hasher m ops ops.length (treeKeyToU256 leaf) = m (treeKeyToU256 leaf) := by
  rw [leavesAfter, ← @length_leafAssignments _ env]
  by_cases hmem : treeKeyToU256 leaf ∈ (leafAssignments env.hasher ops).map Prod.fst
  · obtain ⟨assigned, hassigned, hkey⟩ := List.mem_map.mp hmem
    obtain ⟨⟨leaf', op⟩, hop, rfl⟩ := List.mem_map.mp hassigned
    obtain rfl : leaf' = leaf := treeKeyToU256_injective hkey
    have hafter := SparseMerkle.after_of_mem_of_nodup m h.nodup_leafAssignments hassigned
    refine hafter.trans ?_
    cases op with
    | write value previousValue =>
      exact absurd (mem_writesOf.mpr ⟨previousValue, hop⟩) (hleaf value)
    | read value => exact h.reads leaf' value hop
    | delete => exact absurd rfl (h.ne_delete _ hop)
  · exact SparseMerkle.after_of_notMem m hmem

theorem hashed_of_mem_writesOf (h : DistinctOps env m ops) {w : TreeKey × TreeValue}
    (hw : w ∈ writesOf ops) : ∃ key, w.1 = env.treeKeyOf key := by
  obtain ⟨previousValue, hop⟩ := mem_writesOf.mp hw
  exact h.hashed _ hop

end DistinctOps

/-- The published initial writes as the reader gets them. -/
theorem decode_initial {ops : List (TreeKey × TreeOperation)}
    (hcount : (writesOf ops).length < 2 ^ 32) (hnodup : ((writesOf ops).map Prod.fst).Nodup) :
    decodeInitialWrites (serializeCommitments InitialStorageWrite.serializeCommitment
      (blockReport env m order ops).initialWrites) =
      some (((writesOf ops).filter fun w => w.1 ∉ order).map fun w =>
        (treeKeyToU256 w.1, treeValueToH256 w.2)) := by
  have hfirst := firstWrites_eq_filter order hnodup
  have hlength : (firstWrites order (writesOf ops)).length < 2 ^ 32 := by
    rw [hfirst]
    exact (List.length_filter_le _ _).trans_lt hcount
  unfold blockReport
  rw [decodeInitialWrites_serialize]
  · rw [List.map_map, ← hfirst]
    congr 1
    conv_rhs => rw [← List.zipIdx_map_fst (order.length + 1) (firstWrites order (writesOf ops))]
    rw [List.map_map]
    rfl
  · intro write hwrite
    obtain ⟨e, -, rfl⟩ := List.mem_map.mp hwrite
    exact treeKeyToU256_lt e.1.1
  · rwa [List.length_map, List.length_zipIdx]

/-- The published repeated writes as the reader gets them. -/
theorem decode_repeated {ops : List (TreeKey × TreeOperation)}
    (hcount : (writesOf ops).length < 2 ^ 32) (hnodup : ((writesOf ops).map Prod.fst).Nodup)
    (hfits : (enumerate order (writtenBy ops)).length + 1 < 2 ^ 64) :
    decodeRepeatedWrites (serializeCommitments RepeatedStorageWrite.serializeCommitment
      (blockReport env m order ops).repeatedWrites) =
      some (((writesOf ops).filter fun w => w.1 ∈ order).map fun w =>
        ((enumerate order (writtenBy ops)).idxOf w.1 + 1, treeValueToH256 w.2)) := by
  have hlater := laterWrites_eq_filter order hnodup
  have hlength : (laterWrites order (writesOf ops)).length < 2 ^ 32 := by
    rw [hlater]
    exact (List.length_filter_le _ _).trans_lt hcount
  unfold blockReport
  rw [decodeRepeatedWrites_serialize]
  · rw [List.map_map, ← hlater]
    rfl
  · intro write hwrite
    obtain ⟨w, hw, rfl⟩ := List.mem_map.mp hwrite
    have hmem : w.1 ∈ enumerate order (writtenBy ops) :=
      mem_enumerate.mpr (.inr (List.mem_map.mpr ⟨w, mem_of_mem_laterWrites hw, rfl⟩))
    have hlt := List.idxOf_lt_length_of_mem hmem
    dsimp only
    omega
  · rwa [List.length_map]

section ApplyBatch

variable {tree saved : AccountTree} {ops : List (TreeKey × TreeOperation)} {state : PublishedState}

/-- The state after the initial writes of a block. -/
theorem DescribedBy.applyInitial (hdb : DbInv env m order tree.storage) (horder : order.Nodup)
    (hops : DistinctOps env m ops) (hstate : DescribedBy env tree state) {state₁ : PublishedState}
    (hrun : (((writesOf ops).filter fun w => w.1 ∉ order).map fun w =>
      (treeKeyToU256 w.1, treeValueToH256 w.2)).foldl PublishedState.applyInitial state = state₁) :
    state₁.nextIndex = (enumerate order (writtenBy ops)).length + 1 ∧
      (∀ w ∈ writesOf ops, w.1 ∉ order → state₁.entries.lookup (treeKeyToU256 w.1) =
        some ((enumerate order (writtenBy ops)).idxOf w.1 + 1, treeValueToH256 w.2)) ∧
      ∀ k, (∀ w ∈ writesOf ops, w.1 ∉ order → k ≠ treeKeyToU256 w.1) →
        state₁.entries.lookup k = state.entries.lookup k := by
  have hfirst := firstWrites_eq_filter order hops.nodup_writesOf
  have hnodup : ((((writesOf ops).filter fun w => w.1 ∉ order).map fun w =>
      (treeKeyToU256 w.1, treeValueToH256 w.2)).map Prod.fst).Nodup := by
    rw [List.map_map]
    exact hops.nodup_filter_writesOf _
  obtain ⟨hnext, hhit, hmiss⟩ := PublishedState.foldl_applyInitial state hnodup
  rw [hrun] at hnext hhit hmiss
  have hstart : state.nextIndex = order.length + 1 := hstate.nextIndex.trans hdb.current
  refine ⟨?_, ?_, ?_⟩
  · rw [hnext, hstart, List.length_map, enumerate_eq_append, List.length_append, List.length_map,
      hfirst]
    omega
  · intro w hw hfresh
    have hmem : w ∈ firstWrites order (writesOf ops) := by
      rw [hfirst]
      exact List.mem_filter.mpr ⟨hw, by simpa using hfresh⟩
    obtain ⟨i, hi, hget⟩ := List.mem_iff_getElem.mp hmem
    have hzip : (w, order.length + 1 + i) ∈
        (firstWrites order (writesOf ops)).zipIdx (order.length + 1) := by
      rw [List.mk_mem_zipIdx_iff_le_and_getElem?_sub]
      exact ⟨Nat.le_add_right _ _, by
        rw [Nat.add_sub_cancel_left, List.getElem?_eq_getElem hi, hget]⟩
    have hindex := idxOf_of_mem_zipIdx_firstWrites horder hzip
    rw [hfirst] at hzip
    have hentry := hhit ((treeKeyToU256 w.1, treeValueToH256 w.2), order.length + 1 + i) (by
      rw [hstart, List.zipIdx_map]
      exact List.mem_map.mpr ⟨_, hzip, rfl⟩)
    rw [hentry, ← hindex]
  · intro k hk
    apply hmiss
    intro hmem
    rw [List.map_map] at hmem
    obtain ⟨w, hw, rfl⟩ := List.mem_map.mp hmem
    obtain ⟨hw, hfresh⟩ := List.mem_filter.mp hw
    exact hk w hw (by simpa using hfresh) rfl

/-- The initial writes continue the numbering. -/
theorem DescribedBy.numbered_applyInitial (hdb : DbInv env m order tree.storage)
    (horder : order.Nodup) (hops : DistinctOps env m ops) (hstate : DescribedBy env tree state)
    {state₁ : PublishedState}
    (hrun : (((writesOf ops).filter fun w => w.1 ∉ order).map fun w =>
      (treeKeyToU256 w.1, treeValueToH256 w.2)).foldl PublishedState.applyInitial state = state₁) :
    state₁.Numbered (enumerate order (writtenBy ops)) := by
  obtain ⟨-, hhit, hmiss⟩ := hstate.applyInitial hdb horder hops hrun
  intro k e hk
  by_cases hwritten : ∃ w ∈ writesOf ops, w.1 ∉ order ∧ k = treeKeyToU256 w.1
  · obtain ⟨w, hw, hfresh, rfl⟩ := hwritten
    rw [hhit w hw hfresh] at hk
    obtain rfl := Option.some.inj hk
    exact ⟨w.1, mem_enumerate.mpr (.inr (List.mem_map.mpr ⟨w, hw, rfl⟩)), rfl, rfl⟩
  · push Not at hwritten
    rw [hmiss k hwritten] at hk
    obtain ⟨leaf, hleaf, rfl, hindex⟩ := hstate.numbered hdb k e hk
    exact ⟨leaf, mem_enumerate.mpr (.inl hleaf), rfl, by rw [hindex, idxOf_enumerate hleaf]⟩

/-- The state after the repeated writes of a block, which follow the initial ones. -/
theorem DescribedBy.applyRepeated (hdb : DbInv env m order tree.storage) (horder : order.Nodup)
    (hops : DistinctOps env m ops) (hstate : DescribedBy env tree state) {state₁ : PublishedState}
    (hrun : (((writesOf ops).filter fun w => w.1 ∉ order).map fun w =>
      (treeKeyToU256 w.1, treeValueToH256 w.2)).foldl PublishedState.applyInitial state = state₁) :
    ∃ state₂, (((writesOf ops).filter fun w => w.1 ∈ order).map fun w =>
        ((enumerate order (writtenBy ops)).idxOf w.1 + 1, treeValueToH256 w.2)).foldlM
          PublishedState.applyRepeated state₁ = some state₂ ∧
      state₂.nextIndex = state₁.nextIndex ∧
      (∀ w ∈ writesOf ops, w.1 ∈ order → state₂.entries.lookup (treeKeyToU256 w.1) =
        some ((enumerate order (writtenBy ops)).idxOf w.1 + 1, treeValueToH256 w.2)) ∧
      ∀ k, (∀ w ∈ writesOf ops, w.1 ∈ order → k ≠ treeKeyToU256 w.1) →
        state₂.entries.lookup k = state₁.entries.lookup k := by
  obtain ⟨-, -, hmiss₁⟩ := hstate.applyInitial hdb horder hops hrun
  have hindexed := (hstate.numbered_applyInitial hdb horder hops hrun).indexed
  have hknown : ∀ w ∈ ((writesOf ops).filter fun w => w.1 ∈ order).map fun w =>
      (treeKeyToU256 w.1, (enumerate order (writtenBy ops)).idxOf w.1 + 1, treeValueToH256 w.2),
      ∃ value, state₁.entries.lookup w.1 = some (w.2.1, value) := by
    intro e he
    obtain ⟨w, hw, rfl⟩ := List.mem_map.mp he
    obtain ⟨hw, hmem⟩ := List.mem_filter.mp hw
    have hleaf : w.1 ∈ order := by simpa using hmem
    obtain ⟨key, hkey⟩ := hops.hashed_of_mem_writesOf hw
    -- a leaf with a number before the block is not among the initial writes
    have hold : state₁.entries.lookup (treeKeyToU256 w.1) =
        state.entries.lookup (treeKeyToU256 w.1) := by
      refine hmiss₁ _ fun w' _ hfresh heq => hfresh ?_
      rwa [← treeKeyToU256_injective heq]
    refine ⟨treeValueToH256 (m (treeKeyToU256 w.1)), ?_⟩
    dsimp only
    rw [hold, hkey, hstate.entries, hdb.entry_eq, if_pos (hkey ▸ hleaf),
      idxOf_enumerate (hkey ▸ hleaf)]
  have hnodup : ((((writesOf ops).filter fun w => w.1 ∈ order).map fun w =>
      (treeKeyToU256 w.1, (enumerate order (writtenBy ops)).idxOf w.1 + 1,
        treeValueToH256 w.2)).map Prod.fst).Nodup := by
    rw [List.map_map]
    exact hops.nodup_filter_writesOf _
  obtain ⟨state₂, hrun₂, hnext, hhit, hmiss⟩ :=
    PublishedState.foldlM_applyRepeated hindexed hnodup hknown
  refine ⟨state₂, ?_, hnext, ?_, ?_⟩
  · rw [List.map_map] at hrun₂
    exact hrun₂
  · intro w hw hleaf
    exact hhit _ (List.mem_map.mpr ⟨w, List.mem_filter.mpr ⟨hw, by simpa using hleaf⟩, rfl⟩)
  · intro k hk
    apply hmiss
    intro hmem
    rw [List.map_map] at hmem
    obtain ⟨w, hw, rfl⟩ := List.mem_map.mp hmem
    obtain ⟨hw, hleaf⟩ := List.mem_filter.mp hw
    exact hk w hw (by simpa using hleaf) rfl

/-- A state that describes a saved tree, with the published writes of the next block applied to it,
describes the tree after the block. -/
theorem DescribedBy.applyBatch (hdb : DbInv env m order tree.storage) (horder : order.Nodup)
    (hops : DistinctOps env m ops) (hstate : DescribedBy env tree state)
    (hcount : (writesOf ops).length < 2 ^ 32)
    (hfits : (enumerate order (writtenBy ops)).length + 1 < 2 ^ 64)
    (hsaved : DbInv env (leavesAfter env.hasher m ops ops.length)
      (enumerate order (writtenBy ops)) saved.storage) :
    ∃ state', DescribedBy env saved state' ∧ ∀ metadata : L1BatchMetadata,
      metadata.initialWritesCompressed = serializeCommitments
        InitialStorageWrite.serializeCommitment (blockReport env m order ops).initialWrites →
      metadata.repeatedWritesCompressed = serializeCommitments
        RepeatedStorageWrite.serializeCommitment (blockReport env m order ops).repeatedWrites →
      state.applyBatch metadata = some state' := by
  obtain ⟨state₁, hrun₁⟩ : ∃ state₁, (((writesOf ops).filter fun w => w.1 ∉ order).map fun w =>
      (treeKeyToU256 w.1, treeValueToH256 w.2)).foldl PublishedState.applyInitial state = state₁ :=
    ⟨_, rfl⟩
  obtain ⟨hnext₁, hhit₁, hmiss₁⟩ := hstate.applyInitial hdb horder hops hrun₁
  obtain ⟨state₂, hrun₂, hnext₂, hhit₂, hmiss₂⟩ := hstate.applyRepeated hdb horder hops hrun₁
  refine ⟨state₂, ⟨?_, ?_, ?_⟩, fun metadata hinitial hrepeated => ?_⟩
  · intro key
    rw [hsaved.entry_eq]
    by_cases hwritten : ∃ value, (env.treeKeyOf key, value) ∈ writesOf ops
    · obtain ⟨value, hw⟩ := hwritten
      have hmem : env.treeKeyOf key ∈ enumerate order (writtenBy ops) :=
        mem_enumerate.mpr (.inr (List.mem_map.mpr ⟨_, hw, rfl⟩))
      rw [if_pos hmem, hops.leavesAfter_write hw]
      by_cases hleaf : env.treeKeyOf key ∈ order
      · exact hhit₂ (env.treeKeyOf key, value) hw hleaf
      · rw [hmiss₂, hhit₁ (env.treeKeyOf key, value) hw hleaf]
        intro w _ hmem' heq
        exact hleaf (treeKeyToU256_injective heq ▸ hmem')
    · push Not at hwritten
      have hne {w : TreeKey × TreeValue} (hw : w ∈ writesOf ops) :
          treeKeyToU256 (env.treeKeyOf key) ≠ treeKeyToU256 w.1 := by
        intro heq
        rw [treeKeyToU256_injective heq] at hwritten
        exact hwritten w.2 hw
      have hiff : env.treeKeyOf key ∈ enumerate order (writtenBy ops) ↔
          env.treeKeyOf key ∈ order := by
        rw [mem_enumerate]
        refine or_iff_left fun hmem => ?_
        obtain ⟨w, hw, heq⟩ := List.mem_map.mp hmem
        exact hne hw (by rw [heq])
      rw [hmiss₂ _ fun w hw _ => hne hw, hmiss₁ _ fun w hw _ => hne hw, hstate.entries,
        hdb.entry_eq, hops.leavesAfter_rest hwritten]
      by_cases hleaf : env.treeKeyOf key ∈ order
      · rw [if_pos hleaf, if_pos (hiff.mpr hleaf), idxOf_enumerate hleaf]
      · rw [if_neg hleaf, if_neg fun hmem => hleaf (hiff.mp hmem)]
  · intro k e hk
    by_cases hwritten : ∃ w ∈ writesOf ops, k = treeKeyToU256 w.1
    · obtain ⟨w, hw, rfl⟩ := hwritten
      obtain ⟨key, hkey⟩ := hops.hashed_of_mem_writesOf hw
      exact ⟨key, by rw [hkey]⟩
    · push Not at hwritten
      rw [hmiss₂ _ fun w hw _ => hwritten w hw, hmiss₁ _ fun w hw _ => hwritten w hw] at hk
      exact hstate.keys k e hk
  · rw [hnext₂, hnext₁, hsaved.current]
  · unfold PublishedState.applyBatch
    rw [hinitial, hrepeated, decode_initial hcount hops.nodup_writesOf,
      decode_repeated hcount hops.nodup_writesOf hfits]
    simp only [Option.bind_eq_bind, Option.bind_some, hrun₁]
    exact hrun₂

end ApplyBatch

/-- A block of logs about different leaves, whose reads carry the value of the tree. -/
structure IsBlock (env : TreeEnv Row) (tree : AccountTree) (logs : List WitnessStorageLog) :
    Prop where
  ne_nil : logs ≠ []
  distinct : (logs.map fun log => log.treeKey env).Nodup
  reads : ∀ log ∈ logs, log.storageLog.kind = .read →
    tree.leafValue env (log.treeKey env) = some (h256ToTreeValue log.storageLog.value)
  writes : (logs.filter fun log => log.storageLog.kind = .write).length < 2 ^ 32

theorem IsBlock.distinctOps {tree : AccountTree} {logs : List WitnessStorageLog}
    (h : IsBlock env tree logs) (hdb : DbInv env m order tree.storage) :
    DistinctOps env m (blockOps env logs) where
  nodup := by
    rw [List.map_map]
    exact h.distinct
  reads := by
    intro leaf value hop
    obtain ⟨log, hlog, heq⟩ := List.mem_map.mp hop
    unfold treeOperation at heq
    cases hkind : log.storageLog.kind with
    | write =>
      rw [hkind] at heq
      cases heq
    | read =>
      rw [hkind] at heq
      obtain ⟨rfl, hvalue⟩ := Prod.mk.inj heq
      have hread := h.reads log hlog hkind
      rw [hdb.leafValue_eq] at hread
      rw [← TreeOperation.read.inj hvalue]
      exact (Option.some.inj hread).symm
  hashed _ hop := blockOps_hashed hop
  ne_delete _ hop := blockOps_ne_delete hop

/-- Every block on a saved tree is processed and saved, and its published writes lead from the keys,
indices and values of the tree before it to those of the tree after it. -/
theorem saveRun_published (env : TreeEnv Row) (hout : env.hasher.TraceOutput)
    (hkeys : env.CanonicalKeys) (hsep : env.SeparateKeys) (blocks : List (List WitnessStorageLog))
    (tree : AccountTree) (hrun : SaveRun env blocks tree) (state : PublishedState)
    (hstate : DescribedBy env tree state) (sched : Schedule Row) (logs : List WitnessStorageLog)
    (hlogs : IsBlock env tree logs) :
    ∃ metadata tree' saved, processBlock env sched tree logs = .ok (metadata, tree') ∧
      tree'.save true = .ok saved ∧ SaveRun env (blocks ++ [logs]) saved ∧
      -- the index is a `u64`
      (metadata.rollupLastLeafIndex < 2 ^ 64 →
        ∃ state', DescribedBy env saved state' ∧ ∀ metaParameters, ∃ published,
          buildL1BatchMetadata env.poseidonHashBytes metadata metaParameters = .ok published ∧
          state.applyBatch published = some state' ∧
          published.rollupLastLeafIndex = state'.nextIndex) := by
  obtain ⟨m, hinv⟩ := hrun.savedInv hout hkeys hsep
  obtain ⟨witness, tree', hblock, hsave, hinv'⟩ := hinv.step hout hkeys hsep sched hlogs.ne_nil
  refine ⟨_, tree', tree'.saved, hblock, hsave, .block sched hrun hlogs.ne_nil hblock hsave, ?_⟩
  intro hfits
  obtain ⟨state', hdescribed, happly⟩ := hstate.applyBatch hinv.db
    (enumerate_nodup List.nodup_nil _) (hlogs.distinctOps hinv.db)
    (by rw [writesOf_blockOps_length]; exact hlogs.writes) hfits hinv'.db
  refine ⟨state', hdescribed, fun metaParameters =>
    ⟨_, buildL1BatchMetadata_eq _ _ metaParameters, happly _ rfl rfl, ?_⟩⟩
  rw [hdescribed.nextIndex, hinv'.db.current]
  rfl

/-- Nothing is published before the first block. -/
theorem describedBy_empty {tree : AccountTree} (h : newWithDb env .empty = .ok tree) :
    DescribedBy env tree ⟨∅, 1⟩ where
  entries key := by
    rw [(savedInv_start h).db.entry_eq, if_neg List.not_mem_nil]
    rfl
  keys k e hk := by cases hk
  nextIndex := (savedInv_start h).db.current.symm

/-- A write and a read of another key. -/
def samplePublishedLogs : List WitnessStorageLog := sampleWitnessLogs.take 2

theorem isBlock_samplePublishedLogs {tree : AccountTree}
    (h : newWithDb sampleEnv .empty = .ok tree) : IsBlock sampleEnv tree samplePublishedLogs where
  ne_nil := by decide
  distinct := by decide +kernel
  reads log hlog hkind := by
    rw [(savedInv_start h).db.leafValue_eq]
    simp only [samplePublishedLogs, sampleWitnessLogs, List.take_succ_cons, List.take_zero,
      List.mem_cons, List.not_mem_nil, or_false] at hlog
    rcases hlog with rfl | rfl
    · cases hkind
    · rfl
  writes := by decide

/-- A second write of the first key, and a write of a third one. -/
def sampleRepeatedLogs : List WitnessStorageLog :=
  [⟨⟨.write, ⟨.zero, u256ToH256 1⟩, u256ToH256 9⟩, u256ToH256 7⟩,
    ⟨⟨.write, ⟨.zero, u256ToH256 3⟩, u256ToH256 4⟩, .zero⟩]

theorem isBlock_sampleRepeatedLogs (tree : AccountTree) :
    IsBlock sampleEnv tree sampleRepeatedLogs where
  ne_nil := by decide
  distinct := by decide +kernel
  reads log hlog hkind := by
    have hwrites : ∀ log ∈ sampleRepeatedLogs, log.storageLog.kind ≠ .read := by decide
    exact absurd hkind (hwrites log hlog)
  writes := by decide

/-- What the tree reports for the first block, and for the second one after it. -/
theorem blockReport_samplePublishedLogs : (blockReport sampleEnv (fun _ => treeKeyDefault) []
    (blockOps sampleEnv samplePublishedLogs)).rollupLastLeafIndex = 2 := by
  decide +kernel

theorem blockReport_sampleRepeatedLogs :
    let ops := blockOps sampleEnv samplePublishedLogs
    let report := blockReport sampleEnv
      (leavesAfter sampleEnv.hasher (fun _ => treeKeyDefault) ops ops.length)
      (enumerate [] (writtenBy ops)) (blockOps sampleEnv sampleRepeatedLogs)
    report.initialWrites.length = 1 ∧ report.repeatedWrites.length = 1 ∧
      report.rollupLastLeafIndex = 3 := by
  decide +kernel

/-- Two blocks, of which the second one has a repeated write. -/
theorem saveRun_published_sample : ∃ tree metadata tree' saved state',
    processBlock sampleEnv sampleSchedule tree sampleRepeatedLogs = .ok (metadata, tree') ∧
      metadata.initialWrites.length = 1 ∧ metadata.repeatedWrites.length = 1 ∧
      SaveRun sampleEnv [samplePublishedLogs, sampleRepeatedLogs] saved ∧
      DescribedBy sampleEnv saved state' ∧ state'.nextIndex = 3 := by
  have hnew := newWithDb_empty sampleEnv
  have hstart := savedInv_start hnew
  obtain ⟨metadata₁, tree₁, saved₁, hblock₁, hsave₁, hrun₁, hpublished₁⟩ := saveRun_published
    sampleEnv sampleEnv_traceOutput sampleEnv_canonicalKeys sampleEnv_separateKeys [] _
    (.start hnew) _ (describedBy_empty hnew) sampleSchedule samplePublishedLogs
    (isBlock_samplePublishedLogs hnew)
  obtain ⟨witness₁, tree₁', hblock₁', hsave₁', hinv₁⟩ := hstart.step sampleEnv_traceOutput
    sampleEnv_canonicalKeys sampleEnv_separateKeys sampleSchedule
    (show samplePublishedLogs ≠ [] by decide)
  obtain ⟨hmetadata₁, rfl⟩ := Prod.mk.inj (Except.ok.inj (hblock₁.symm.trans hblock₁'))
  obtain rfl := Except.ok.inj (hsave₁.symm.trans hsave₁')
  have hindex₁ : metadata₁.rollupLastLeafIndex = 2 := by
    rw [hmetadata₁, blockReport_samplePublishedLogs]
  obtain ⟨state₁, hdescribed₁, -⟩ := hpublished₁ (by rw [hindex₁]; decide)
  obtain ⟨metadata, tree', saved, hblock, -, hrun, hpublished⟩ := saveRun_published sampleEnv
    sampleEnv_traceOutput sampleEnv_canonicalKeys sampleEnv_separateKeys _ _ hrun₁ _ hdescribed₁
    sampleSchedule sampleRepeatedLogs (isBlock_sampleRepeatedLogs _)
  obtain ⟨witness, tree'', hblock', -, -⟩ := hinv₁.step sampleEnv_traceOutput
    sampleEnv_canonicalKeys sampleEnv_separateKeys sampleSchedule
    (show sampleRepeatedLogs ≠ [] by decide)
  have hmetadata := (Prod.mk.inj (Except.ok.inj (hblock.symm.trans hblock'))).1
  obtain ⟨hinitial, hrepeated, hindex⟩ : metadata.initialWrites.length = 1 ∧
      metadata.repeatedWrites.length = 1 ∧ metadata.rollupLastLeafIndex = 3 := by
    simpa only [hmetadata] using blockReport_sampleRepeatedLogs
  obtain ⟨state', hdescribed, hbuild⟩ := hpublished (by rw [hindex]; decide)
  obtain ⟨published, hpublished, -, hnext⟩ := hbuild ⟨.zero, .zero⟩
  rw [buildL1BatchMetadata_eq] at hpublished
  cases hpublished
  exact ⟨_, metadata, tree', saved, state', hblock, hinitial, hrepeated, hrun, hdescribed,
    hnext.symm.trans hindex⟩

end AccountTree

end OlaOs
