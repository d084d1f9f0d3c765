import OlaOs.Metadata.CalculatorProgress

/-! The metadata that any number of calculators store, in terms of the store: which batches have it,
what it says, when it changes, and what a commitment binds. -/
namespace OlaOs

open Enumerate AccountTree BatchOps TreeUpdater CalculatorTables

variable {Trace Row : Type} {env : TreeEnv Row} {contracts : ℕ → L1BatchMetaParameters}

theorem CalculatorTables.Inv.isSome_of_le {history : List SealedBatch}
    {tables : CalculatorTables Trace Row} (h : tables.Inv env contracts history) {m n : ℕ}
    (hmn : m ≤ n) (hn : (tables.metadata.lookup n).isSome) :
    (tables.metadata.lookup m).isSome := by
  induction hmn with
  | refl => exact hn
  | step _ ih => exact ih (h.gapless _ hn)

/-- The rows with metadata are those of the first batches. -/
theorem CalculatorTables.Inv.exists_rows {history : List SealedBatch}
    {tables : CalculatorTables Trace Row} (h : tables.Inv env contracts history) :
    ∃ k, 0 < k ∧ k ≤ history.length ∧ ∀ n, tables.metadata.lookup n =
      if n < k then some (columnsAt env contracts history n) else none := by
  have hlast : ¬(tables.metadata.lookup history.length).isSome := by
    intro hsome
    obtain ⟨columns, hcolumns⟩ := Option.isSome_iff_exists.mp hsome
    exact lt_irrefl _ (h.metadata _ _ hcolumns).1
  have hex : ∃ n, ¬(tables.metadata.lookup n).isSome := ⟨_, hlast⟩
  classical
  refine ⟨Nat.find hex, ?_, Nat.find_min' hex hlast, fun n => ?_⟩
  · rw [Nat.find_pos]
    exact not_not.mpr h.genesis
  · split_ifs with hn
    · obtain ⟨columns, hcolumns⟩ := Option.isSome_iff_exists.mp (not_not.mp (Nat.find_min hex hn))
      rw [hcolumns, (h.metadata n columns hcolumns).2]
    · cases hlookup : tables.metadata.lookup n with
      | none => rfl
      | some columns =>
        have hsome : (tables.metadata.lookup n).isSome := by rw [hlookup]; rfl
        exact absurd (h.isSome_of_le (not_lt.mp hn) hsome) (Nat.find_spec hex)

namespace MetadataSystem

variable {s s' : MetadataSystem Trace Row}

/-- The first `k` batches have metadata: that of their place in the chain, whose root is the one of
the tree over the store after the batch. -/
structure Agrees (env : TreeEnv Row) (contracts : ℕ → L1BatchMetaParameters)
    (s : MetadataSystem Trace Row) (k : ℕ) : Prop where
  pos : 0 < k
  le : k ≤ s.history.length
  rows : ∀ n, s.tables.metadata.lookup n =
    if n < k then some (columnsAt env contracts s.history n) else none
  roots : ∀ n columns, s.tables.metadata.lookup n = some columns → ∃ leaves,
    HoldsStore env s.history (n + 1) leaves ∧
      columns.hash = treeKeyToH256 (referenceRoot env.hasher leaves)
  chain : ∀ n columns, s.tables.metadata.lookup (n + 1) = some columns →
    columns.parentHash = (s.tables.metadata.lookup n).map MetadataColumns.hash
  /-- A calculator that starts again goes on from a batch with metadata. -/
  saved : ∀ c ∈ s.calculators, c.batchesSaved ≤ k ∧ ∃ tree,
    newWithDb env c.tree.storage.db = .ok tree ∧
      (0 < c.batchesSaved → (s.tables.metadata.lookup (c.batchesSaved - 1)).map
        MetadataColumns.hash = some (treeKeyToH256 tree.rootHash))
  /-- No statement fails, but for the one that panics over a batch without writes. -/
  next : ∀ c ∈ s.calculators, Unaffected env s.history c → ∀ sched written,
    (∃ result, c.advance env contracts s.io.storage sched written s.tables = .ok result) ∨
      c.advance env contracts s.io.storage sched written s.tables = .error noWrites ∧
        HasEmptyBatch s.history

theorem parentHash_columnsAt (history : List SealedBatch) (n : ℕ) :
    (columnsAt env contracts history (n + 1)).parentHash =
      some (stateRoot env history (n + 1)) := by
  rw [columnsAt, if_neg (Nat.succ_ne_zero n)]
  rfl

theorem longer_of_run (h : Relation.ReflTransGen (UnaffectedStep env contracts) s s') :
    s.history <+: s'.history := by
  induction h with
  | refl => exact List.prefix_rfl
  | tail _ hstep ih => exact ih.trans hstep.longer

section Results

variable (hout : env.hasher.TraceOutput) (hkeys : env.CanonicalKeys) (hsep : env.SeparateKeys)

include hout hkeys hsep

/-- In every state that unaffected steps reach the stored metadata is that of the first batches. -/
theorem Reachable.agrees (h : Reachable env contracts s)
    (hregular : RegularHistory env s.history) : ∃ k, Agrees env contracts s k := by
  have hinv := h.inv hout hkeys hsep hregular
  have hstore := hinv.sealRun.sealedStore hregular.hashed
  obtain ⟨k, hpos, hle, hrows⟩ := hinv.tables.exists_rows
  have hhash : ∀ n, n < k → (s.tables.metadata.lookup n).map MetadataColumns.hash =
      some (stateRoot env s.history (n + 1)) := by
    intro n hn
    rw [hrows, if_pos hn, Option.map_some, hash_columnsAt (hn.trans_le hle)]
  have hbatch : ∀ n columns, s.tables.metadata.lookup n = some columns →
      n < k ∧ columns = columnsAt env contracts s.history n := by
    intro n columns hcolumns
    rw [hrows] at hcolumns
    split_ifs at hcolumns with hn
    exact ⟨hn, (Option.some.inj hcolumns).symm⟩
  have hsaved : ∀ c ∈ s.calculators, c.batchesSaved ≤ k := by
    intro c hc
    by_contra hlt
    have hdone := (hinv.calculators c hc).done k (not_le.mp hlt)
    have hsome := hdone.metadata
    rw [hrows, if_neg (lt_irrefl k)] at hsome
    cases hsome
  refine ⟨k, hpos, hle, hrows, fun n columns hcolumns => ?_, fun n columns hcolumns => ?_,
    fun c hc => ⟨hsaved c hc, ?_⟩, fun c hc hunaffected sched written => ?_⟩
  · obtain ⟨hn, rfl⟩ := hbatch n columns hcolumns
    exact ⟨_, hstore.holdsStore (hn.trans_le hle), hash_columnsAt (hn.trans_le hle)⟩
  · obtain ⟨hn, rfl⟩ := hbatch _ columns hcolumns
    rw [parentHash_columnsAt, hhash n (Nat.lt_of_succ_lt hn)]
  · have hdb := (hinv.calculators c hc).db
    refine ⟨_, newWithDb_eq hdb.nodes, fun hpos => ?_⟩
    have hlast := hhash (c.batchesSaved - 1) (by have := hsaved c hc; omega)
    rw [Nat.sub_add_cancel hpos] at hlast
    exact hlast
  · rcases advance_spec hout hkeys hsep hregular (hregular.tablesRead hinv.sealRun) hinv.tables
      (hinv.calculators c hc) hunaffected sched written with ⟨result, hresult, -⟩ | hpanic
    · exact .inl ⟨result, hresult⟩
    · exact .inr hpanic

omit hout hkeys hsep in
theorem Reachable.agrees_sample : ∃ s : MetadataSystem Unit ZkHash, s.history = sampleHistory ∧
    Agrees sampleEnv sampleContracts s 2 := by
  obtain ⟨-, s, c, -, -, -, hreach, hhistory, hc, -, hsaved⟩ := completed_sample
  obtain ⟨k, hagrees⟩ := Reachable.agrees sampleEnv_traceOutput sampleEnv_canonicalKeys
    sampleEnv_separateKeys hreach (hhistory ▸ regularHistory_sample)
  have hle := hagrees.le
  have hge := (hagrees.saved c hc).1
  rw [hhistory] at hle
  rw [hsaved] at hge
  obtain rfl : k = 2 := le_antisymm hle hge
  exact ⟨s, hhistory, hagrees⟩

/-- What a prover needs of a batch: its metadata, and a witness that leads from the root of the
batch before it to its own. -/
structure Provable (s : MetadataSystem Trace Row) (n : ℕ) : Prop where
  pos : 0 < n
  witness : ∃ job before columns, s.tables.witnesses.lookup n = some job ∧
    s.tables.metadata.lookup (n - 1) = some before ∧ s.tables.metadata.lookup n = some columns ∧
    job.txTrace.isSome ∧ job.storage.isSome ∧
    job.preRootHash = some (h256ToTreeValue before.hash) ∧
    job.rootHash = some (h256ToTreeValue columns.hash)

/-- A batch only gets a row for the provers, and is only handed out, once it is provable; and a
calculator with an object store saves no batch that has no row. -/
theorem Reachable.handsOver (h : Reachable env contracts s)
    (hregular : RegularHistory env s.history) :
    (∀ n ∈ s.tables.proofs.table.map ProofGenerationRow.l1BatchNumber, s.Provable n) ∧
    (∀ n ∈ s.tables.proofs.handedOut, s.Provable n) ∧
    ∀ c ∈ s.calculators, c.hasObjectStore = true → ∀ n, 0 < n → n < c.batchesSaved →
      n ∈ s.tables.proofs.table.map ProofGenerationRow.l1BatchNumber := by
  have hinv := h.inv hout hkeys hsep hregular
  have hprovable : ∀ n, s.tables.Handed n → s.Provable n := by
    intro n hn
    obtain ⟨hpos, hmetadata, job, hjob, hcomplete⟩ := hinv.tables.proofs n hn
    obtain ⟨columns, hcolumns⟩ := Option.isSome_iff_exists.mp hmetadata
    obtain ⟨before, hbefore⟩ := Option.isSome_iff_exists.mp
      (hinv.tables.isSome_of_le (Nat.sub_le n 1) hmetadata)
    obtain ⟨hlt, heq⟩ := hinv.tables.metadata n columns hcolumns
    obtain ⟨hlt', heq'⟩ := hinv.tables.metadata (n - 1) before hbefore
    refine ⟨hpos, job, before, columns, hjob, hbefore, hcolumns, hcomplete.txTrace,
      hcomplete.storage, ?_, ?_⟩
    · rw [hcomplete.preRootHash, heq', hash_columnsAt hlt', Nat.sub_add_cancel hpos]
    · rw [hcomplete.rootHash, heq, hash_columnsAt hlt]
  exact ⟨hprovable, fun n hn => hprovable n (hinv.tables.handedOut n hn),
    fun c hc hobject n hpos hn => ((hinv.calculators c hc).done n hn).handed hobject hpos⟩

omit hout hkeys hsep in
theorem Reachable.handsOver_sample : ∃ s : MetadataSystem Unit ZkHash,
    s.history = sampleHistory ∧ s.Provable 1 := by
  obtain ⟨-, s, c, -, -, -, hreach, hhistory, hc, hobject, hsaved⟩ := completed_sample
  obtain ⟨hrows, -, hall⟩ := Reachable.handsOver sampleEnv_traceOutput sampleEnv_canonicalKeys
    sampleEnv_separateKeys hreach (hhistory ▸ regularHistory_sample)
  exact ⟨s, hhistory, hrows 1 (hall c hc hobject 1 Nat.one_pos (by rw [hsaved]; decide))⟩

/-- What other nodes and the provers have seen of batch `n` stays as it is. -/
structure Keeps (env : TreeEnv Row) (s s' : MetadataSystem Trace Row) (n : ℕ) : Prop where
  metadata : ∀ columns, s.tables.metadata.lookup n = some columns →
    s'.tables.metadata.lookup n = some columns
  handed : s.tables.Handed n → s'.tables.Handed n
  witnessed : ∀ job, s.tables.witnesses.lookup n = some job → IsComplete env s.history n job →
    ∃ job', s'.tables.witnesses.lookup n = some job' ∧ IsComplete env s'.history n job' ∧
      job'.preRootHash = job.preRootHash ∧ job'.rootHash = job.rootHash

/-- Along every run of unaffected steps the stored metadata, the rows for the provers and the roots
of complete witnesses stay, whatever crashes, and however often a batch is processed again. -/
theorem Reachable.keeps (h : Reachable env contracts s)
    (hrun : Relation.ReflTransGen (UnaffectedStep env contracts) s s')
    (hregular : RegularHistory env s'.history) :
    Reachable env contracts s' ∧ ∀ n < s.history.length, Keeps env s s' n := by
  induction hrun with
  | refl =>
    exact ⟨h, fun n _ => ⟨fun _ hc => hc, fun hh => hh, fun job hjob hcomplete =>
      ⟨job, hjob, hcomplete, rfl, rfl⟩⟩⟩
  | @tail t t' hrun hstep ih =>
    have hbefore := hregular.of_longer hstep.longer
    obtain ⟨hreach, hkeeps⟩ := ih hbefore
    have hlonger := longer_of_run hrun
    obtain ⟨-, hgrows⟩ := hstep.inv hout hkeys hsep (hreach.inv hout hkeys hsep hbefore) hbefore
    refine ⟨.step hreach hstep, fun n hn => ?_⟩
    have hkept := hkeeps n hn
    have hn' : n < t.history.length := hn.trans_le hlonger.length_le
    refine ⟨fun columns hcolumns => hgrows.metadata n columns (hkept.metadata columns hcolumns),
      fun hh => hgrows.handed n (hkept.handed hh), fun job hjob hcomplete => ?_⟩
    obtain ⟨job', hjob', hcomplete', hpre, hroot⟩ := hkept.witnessed job hjob hcomplete
    obtain ⟨job'', hjob'', hcomplete''⟩ := hgrows.witnessed n hn' ⟨job', hjob', hcomplete'⟩
    refine ⟨job'', hjob'', hcomplete'', ?_, ?_⟩
    · rw [← hpre, hcomplete'.preRootHash, hcomplete''.preRootHash,
        stateRoot_of_longer hstep.longer hn'.le]
    · rw [← hroot, hcomplete'.rootHash, hcomplete''.rootHash,
        stateRoot_of_longer hstep.longer hn']

omit hout hkeys hsep in
theorem Reachable.keeps_sample : ∃ s s' : MetadataSystem Unit ZkHash,
    Relation.ReflTransGen (UnaffectedStep sampleEnv sampleContracts) s s' ∧ Keeps sampleEnv s s' 0 ∧
      ∃ c ∈ s'.calculators, c.batchesSaved = 2 := by
  obtain ⟨s, s', c, hreach, hhistory, hrun, -, hhistory', hc, -, hsaved⟩ := completed_sample
  obtain ⟨-, hkeeps⟩ := Reachable.keeps sampleEnv_traceOutput sampleEnv_canonicalKeys
    sampleEnv_separateKeys hreach hrun (hhistory' ▸ regularHistory_sample)
  exact ⟨s, s', hrun, hkeeps 0 (by rw [hhistory]; decide), c, hc, hsaved⟩

end Results

/-- The hashes do not collide where the commitments to two batches are computed: over the strings,
in the trees, and for the storage keys. -/
structure NoCollision (env : TreeEnv Row) (contracts contracts' : ℕ → L1BatchMetaParameters)
    (history history' : List SealedBatch) (n n' : ℕ) : Prop where
  strings : CommittedBatch.Apart env.poseidonHashBytes (committedAt env contracts history n)
    (committedAt env contracts' history' n')
  trees : ∀ leaves leaves', HoldsStore env history (n + 1) leaves →
    HoldsStore env history' (n' + 1) leaves' →
      SparseMerkle.NoCollision env.hasher.combine leaves leaves'
  keys : Set.InjOn (StorageKey.hashedKey env.poseidonHashBytes)
    (usedKeys history ∪ usedKeys history')

/-- What two batches with one commitment agree on. -/
structure SameBatch (env : TreeEnv Row) (contracts contracts' : ℕ → L1BatchMetaParameters)
    (history history' : List SealedBatch) (n n' : ℕ) (columns columns' : MetadataColumns) :
    Prop where
  hash : columns.hash = columns'.hash
  rollupLastLeafIndex : columns.rollupLastLeafIndex = columns'.rollupLastLeafIndex
  metaParameters : contracts n = contracts' n'
  initialWrites : (committedAt env contracts history n).initialWritesCompressed =
    (committedAt env contracts' history' n').initialWritesCompressed
  repeatedWrites : (committedAt env contracts history n).repeatedWritesCompressed =
    (committedAt env contracts' history' n').repeatedWritesCompressed
  store : ∀ key : StorageKey, storeAfter (history.take (n + 1)) key.slot =
    storeAfter (history'.take (n' + 1)) key.slot

/-- The same leaves belong to the same store. -/
theorem storeAfter_eq_of_leaves {history history' : List SealedBatch} {n n' : ℕ}
    (hstore : SealedStore env.poseidonHashBytes history)
    (hstore' : SealedStore env.poseidonHashBytes history')
    (hn : n ≤ history.length) (hn' : n' ≤ history'.length)
    (hapart : Set.InjOn (StorageKey.hashedKey env.poseidonHashBytes)
      (usedKeys history ∪ usedKeys history')) {leaves leaves' : ℕ → TreeValue}
    (hleaves : HoldsStore env history n leaves) (hleaves' : HoldsStore env history' n' leaves')
    (heq : ∀ key ∈ usedKeys history ∪ usedKeys history',
      leaves (treeKeyToU256 (env.treeKeyOf key)) = leaves' (treeKeyToU256 (env.treeKeyOf key)))
    (key : StorageKey) :
    storeAfter (history.take n) key.slot = storeAfter (history'.take n') key.slot := by
  by_cases hkey : key ∈ usedKeys history ∪ usedKeys history'
  · have hinj : ∀ key' ∈ usedKeys history ∪ usedKeys history',
        env.treeKeyOf key' = env.treeKeyOf key → key' = key :=
      fun key' hkey' h => hapart hkey' hkey (h256ToTreeKey_injective h)
    have hvalue := hstore.value_eq hn hleaves fun key' hkey' => hinj key' (.inl hkey')
    have hvalue' := hstore'.value_eq hn' hleaves' fun key' hkey' => hinj key' (.inr hkey')
    rw [heq key hkey, hvalue'] at hvalue
    exact (u256ToH256_injective (h256ToTreeKey_injective hvalue)).symm
  · rw [hstore.storeAfter_unused hn fun h => hkey (.inl h),
      hstore'.storeAfter_unused hn' fun h => hkey (.inr h)]

/-- Without collisions a commitment binds the batch: its root, the published writes and the code
hashes, and with them the whole store, on any node and in any history. -/
theorem Reachable.commitment_binds (hout : env.hasher.TraceOutput) (hkeys : env.CanonicalKeys)
    (hsep : env.SeparateKeys) {contracts' : ℕ → L1BatchMetaParameters}
    (h : Reachable env contracts s) (h' : Reachable env contracts' s')
    (hregular : RegularHistory env s.history) (hregular' : RegularHistory env s'.history)
    {n n' : ℕ} {columns columns' : MetadataColumns}
    (hcolumns : s.tables.metadata.lookup n = some columns)
    (hcolumns' : s'.tables.metadata.lookup n' = some columns')
    (hapart : NoCollision env contracts contracts' s.history s'.history n n')
    (hcommitment : columns.commitment = columns'.commitment) :
    SameBatch env contracts contracts' s.history s'.history n n' columns columns' := by
  have hinv := h.inv hout hkeys hsep hregular
  have hinv' := h'.inv hout hkeys hsep hregular'
  obtain ⟨hn, rfl⟩ := hinv.tables.metadata n columns hcolumns
  obtain ⟨hn', rfl⟩ := hinv'.tables.metadata n' columns' hcolumns'
  rw [commitment_columnsAt, commitment_columnsAt] at hcommitment
  have hsame := CommittedBatch.sameContent_of_commitment hapart.strings hcommitment
  have hroot : stateRoot env s.history (n + 1) = stateRoot env s'.history (n' + 1) := by
    have := hsame.rootHash
    rwa [rollupRootHash_committedAt hn, rollupRootHash_committedAt hn'] at this
  have hstore := hinv.sealRun.sealedStore hregular.hashed
  have hstore' := hinv'.sealRun.sealedStore hregular'.hashed
  have hleaves := hstore.holdsStore hn
  have hleaves' := hstore'.holdsStore hn'
  refine ⟨?_, ?_, ?_, hsame.initialWrites, hsame.repeatedWrites, ?_⟩
  · rw [hash_columnsAt hn, hash_columnsAt hn', hroot]
  · have hindex := hsame.lastLeafIndex
    rw [rollupLastLeafIndex_committedAt, rollupLastLeafIndex_committedAt] at hindex
    rw [rollupLastLeafIndex_columnsAt, rollupLastLeafIndex_columnsAt]
    exact asI64_congr hindex
  · have := hsame.metaParameters
    rwa [metaParameters_committedAt, metaParameters_committedAt] at this
  · refine storeAfter_eq_of_leaves hstore hstore' hn hn' hapart.keys hleaves hleaves' ?_
    intro key _
    have hcollision := hapart.trees _ _ hleaves hleaves'
    have hnode : referenceRoot env.hasher (leavesAt env s.history (n + 1)) =
        referenceRoot env.hasher (leavesAt env s'.history (n' + 1)) :=
      Function.LeftInverse.injective h256ToTreeKey_treeKeyToH256 hroot
    refine hcollision.leaf_eq hnode _ (Nat.div_eq_of_lt ?_)
    rw [rootTreeDepth_eq]
    exact treeKeyToU256_lt _

/-- The genesis batch on two nodes, of which one has gone on. -/
theorem Reachable.commitment_binds_sample : ∃ s s' : MetadataSystem Unit ZkHash,
    s.history = sampleHistory ∧ s'.history = sampleHistory ∧ ∃ columns columns',
    SameBatch sampleEnv sampleContracts sampleContracts s.history s'.history 0 0 columns
      columns' := by
  obtain ⟨s, s', c, hreach, hhistory, -, hreach', hhistory', -⟩ := completed_sample
  have hregular : RegularHistory sampleEnv s.history := hhistory ▸ regularHistory_sample
  have hregular' : RegularHistory sampleEnv s'.history := hhistory' ▸ regularHistory_sample
  have hinv := (hreach.inv sampleEnv_traceOutput sampleEnv_canonicalKeys sampleEnv_separateKeys
    hregular).tables
  have hinv' := (hreach'.inv sampleEnv_traceOutput sampleEnv_canonicalKeys sampleEnv_separateKeys
    hregular').tables
  obtain ⟨columns, hcolumns⟩ := Option.isSome_iff_exists.mp hinv.genesis
  obtain ⟨columns', hcolumns'⟩ := Option.isSome_iff_exists.mp hinv'.genesis
  refine ⟨s, s', hhistory, hhistory', columns, columns', Reachable.commitment_binds
    sampleEnv_traceOutput sampleEnv_canonicalKeys sampleEnv_separateKeys hreach hreach' hregular
    hregular' hcolumns hcolumns' ⟨?_, ?_, ?_⟩ ?_⟩
  · rw [hhistory, hhistory']
    exact .refl _ _
  · intro leaves leaves' hleaves hleaves'
    rw [hhistory] at hleaves
    rw [hhistory'] at hleaves'
    rw [hleaves.unique hleaves']
    exact SparseMerkle.NoCollision.refl _ _
  · rw [hhistory, hhistory', Set.union_self]
    exact injOn_sampleHistory
  · rw [(hinv.metadata 0 columns hcolumns).2, (hinv'.metadata 0 columns' hcolumns').2, hhistory,
      hhistory']

end MetadataSystem

end OlaOs
