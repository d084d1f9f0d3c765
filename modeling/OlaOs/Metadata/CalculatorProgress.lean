import Mathlib.Data.ZMod.Basic
import Mathlib.Logic.Relation
import OlaOs.Metadata.CalculatorRuns

/-! A calculator that starts again, and saves its tree after every batch, gets through all
batches. -/
namespace OlaOs

open Enumerate AccountTree BatchOps TreeUpdater CalculatorTables

variable {Trace Row : Type} {env : TreeEnv Row} {contracts : ℕ → L1BatchMetaParameters}

section Follows

/-- Where a calculator is after a statement, by its phase before it, when every save is written. -/
def LeadsTo (history : List SealedBatch) (c c' : MetadataCalculator Row) :
    CalculatorPhase Row → Prop
  | .down => ∃ n, c'.phase = .waiting n ∧ c'.batchesSaved = n
  | .waiting next =>
    let last := min ((next + c.maxL1BatchesPerIter + (2 ^ 32 - 1)) % 2 ^ 32) (history.length - 1)
    (last < next ∨ next ≤ last ∧ ∃ data root, c'.phase = .iterating next last data root) ∧
      c'.batchesSaved = c.batchesSaved
  | .iterating number last _ root =>
    (∃ metadata nextData, c'.phase = .processed number last metadata nextData root) ∧
      c'.batchesSaved = c.batchesSaved
  | .processed number last _ nextData _ =>
    (∃ root', c'.phase = .stored number last nextData root') ∧ c'.batchesSaved = c.batchesSaved
  | .stored number last _ _ =>
    (number < last ∨ c'.phase = .finished last) ∧ c'.batchesSaved = c.batchesSaved
  | .finished last => c'.phase = .waiting (last + 1) ∧ c'.batchesSaved = last + 1

variable {history : List SealedBatch} {c c' : MetadataCalculator Row}

theorem Follows.leadsTo (h : Follows history true c c') : LeadsTo history c c' c.phase := by
  cases h with
  | opens h hnext hsaved =>
    rw [h]
    exact ⟨_, hnext, hsaved rfl⟩
  | waits h _ hlast hlt hsaved =>
    rw [h]
    exact ⟨.inl (hlast ▸ hlt), hsaved⟩
  | loads h hnext hlast hle hsaved =>
    rw [h]
    exact ⟨.inr (hlast ▸ ⟨hle, _, _, hnext⟩), hsaved⟩
  | processes h hnext hsaved =>
    rw [h]
    exact ⟨⟨_, _, hnext⟩, hsaved⟩
  | stores h hnext hsaved =>
    rw [h]
    exact ⟨⟨_, hnext⟩, hsaved⟩
  | goesOn h hlt _ hsaved =>
    rw [h]
    exact ⟨.inl hlt, hsaved⟩
  | ends h hnext hsaved =>
    rw [h]
    exact ⟨.inr hnext, hsaved⟩
  | saves h hnext hsaved =>
    rw [h]
    exact ⟨hnext, hsaved rfl⟩

/-- With one batch for each iteration, the range of an iteration is the next batch. -/
theorem LeadsTo.of_waiting {next : ℕ} (h : LeadsTo history c c' (.waiting next))
    (hmax : c.maxL1BatchesPerIter = 1) (hnext : next < history.length)
    (hlength : history.length < 2 ^ 32) :
    (∃ data root, c'.phase = .iterating next next data root) ∧
      c'.batchesSaved = c.batchesSaved := by
  have hlast : min ((next + c.maxL1BatchesPerIter + (2 ^ 32 - 1)) % 2 ^ 32) (history.length - 1) =
      next := by omega
  simp only [LeadsTo, hlast, lt_irrefl, le_refl, true_and, false_or] at h
  exact h

theorem LeadsTo.of_stored {last : ℕ} {nextData : Option WitnessBlockWithLogs} {root : H256}
    (h : LeadsTo history c c' (.stored last last nextData root)) :
    c'.phase = .finished last ∧ c'.batchesSaved = c.batchesSaved := by
  simp only [LeadsTo, lt_irrefl, false_or] at h
  exact h

end Follows

namespace MetadataSystem

/-- A run from `s₀` on in which calculator `i`, which has an object store, comes to `c`, one batch
for each iteration. -/
structure RunsTo (env : TreeEnv Row) (contracts : ℕ → L1BatchMetaParameters)
    (s₀ s : MetadataSystem Trace Row) (i : ℕ) (c : MetadataCalculator Row) : Prop where
  run : Relation.ReflTransGen (UnaffectedStep env contracts) s₀ s
  reachable : Reachable env contracts s
  history : s.history = s₀.history
  get : s.calculators[i]? = some c
  one : c.maxL1BatchesPerIter = 1
  store : c.hasObjectStore = true

variable {s₀ s : MetadataSystem Trace Row} {i : ℕ} {c : MetadataCalculator Row}

/-- A calculator that does not iterate, or has saved all batches before, is unaffected. -/
theorem unaffected_of_saved {history : List SealedBatch} {phase : CalculatorPhase Row}
    (hphase : c.phase = phase)
    (h : ∀ number last data root, phase = .iterating number last data root →
      c.batchesSaved = number) : Unaffected env history c := by
  intro number last block root hiterating
  obtain rfl := h _ _ _ _ (hphase.symm.trans hiterating)
  exact ⟨rfl, fun _ _ => rfl⟩

section Progress

variable (hout : env.hasher.TraceOutput) (hkeys : env.CanonicalKeys) (hsep : env.SeparateKeys)
  (hregular : RegularHistory env s₀.history) (hwrites : ¬HasEmptyBatch s₀.history)

include hout hkeys hsep hregular hwrites

theorem RunsTo.advance {phase : CalculatorPhase Row} (h : RunsTo env contracts s₀ s i c)
    (hphase : c.phase = phase)
    (hsaved : ∀ number last data root, phase = .iterating number last data root →
      c.batchesSaved = number) (sched : Schedule Row) :
    ∃ s' c', RunsTo env contracts s₀ s' i c' ∧ LeadsTo s₀.history c c' phase := by
  have hregular' : RegularHistory env s.history := by rw [h.history]; exact hregular
  have hinv := h.reachable.inv hout hkeys hsep hregular'
  have hunaffected : Unaffected env s.history c := unaffected_of_saved hphase hsaved
  rw [← h.history] at hwrites ⊢
  rcases advance_spec hout hkeys hsep hregular' (hregular'.tablesRead hinv.sealRun) hinv.tables
    (hinv.calculators c (List.mem_of_getElem? h.get)) hunaffected sched true with
    ⟨⟨tables, c'⟩, hadvance, hadvanced⟩ | ⟨-, hempty⟩
  · have hstep : UnaffectedStep env contracts s { s with
        tables := tables, calculators := s.calculators.set i c' } := by
      refine .step (.advance sched true h.get hadvance) fun c₁ hc₁ => ?_
      cases hc₁
      exact hunaffected
    have hi : i < s.calculators.length := (List.getElem?_eq_some_iff.mp h.get).1
    have hleads := hadvanced.follows.leadsTo
    rw [hphase] at hleads
    refine ⟨_, c', ⟨h.run.tail hstep, .step h.reachable hstep, h.history, ?_, ?_, ?_⟩, hleads⟩
    · exact List.getElem?_set_self hi
    · exact hadvanced.maxL1BatchesPerIter.trans h.one
    · exact hadvanced.hasObjectStore.trans h.store
  · exact absurd hempty hwrites

/-- One iteration, from a database that has all batches before. -/
theorem RunsTo.iteration {n : ℕ} (h : RunsTo env contracts s₀ s i c)
    (hphase : c.phase = .waiting n) (hsaved : c.batchesSaved = n) (hn : n < s₀.history.length)
    (sched : Schedule Row) : ∃ s' c', RunsTo env contracts s₀ s' i c' ∧
      c'.phase = .waiting (n + 1) ∧ c'.batchesSaved = n + 1 := by
  obtain ⟨s₁, c₁, h₁, hleads⟩ := h.advance hout hkeys hsep hregular hwrites hphase nofun sched
  obtain ⟨⟨data, root, hphase₁⟩, hsaved₁⟩ := hleads.of_waiting h.one hn hregular.length_lt
  obtain ⟨s₂, c₂, h₂, ⟨metadata, nextData, hphase₂⟩, -⟩ :=
    h₁.advance hout hkeys hsep hregular hwrites hphase₁ (fun number _ _ _ heq => by
      cases heq
      exact hsaved₁.trans hsaved) sched
  obtain ⟨s₃, c₃, h₃, ⟨root', hphase₃⟩, -⟩ :=
    h₂.advance hout hkeys hsep hregular hwrites hphase₂ nofun sched
  obtain ⟨s₄, c₄, h₄, hleads⟩ := h₃.advance hout hkeys hsep hregular hwrites hphase₃ nofun sched
  obtain ⟨hphase₄, -⟩ := hleads.of_stored
  exact h₄.advance hout hkeys hsep hregular hwrites hphase₄ nofun sched

/-- All batches, by one iteration after the other. -/
theorem RunsTo.all {n : ℕ} (h : RunsTo env contracts s₀ s i c) (hphase : c.phase = .waiting n)
    (hsaved : c.batchesSaved = n) (hn : n ≤ s₀.history.length) (sched : Schedule Row) :
    ∃ s' c', RunsTo env contracts s₀ s' i c' ∧ c'.batchesSaved = s₀.history.length := by
  obtain ⟨left, hleft⟩ := Nat.exists_eq_add_of_le hn
  induction left generalizing n s c with
  | zero => exact ⟨s, c, h, hsaved.trans hleft.symm⟩
  | succ left ih =>
    obtain ⟨s', c', h', hphase', hsaved'⟩ :=
      h.iteration hout hkeys hsep hregular hwrites hphase hsaved (by omega) sched
    exact ih h' hphase' hsaved' (by omega) (by omega)

omit hwrites in
/-- The calculator exits, starts again and goes through all batches. -/
theorem RunsTo.complete (h : Reachable env contracts s₀) (hwrites : ¬HasEmptyBatch s₀.history)
    (hc : s₀.calculators[i]? = some c) (hone : c.maxL1BatchesPerIter = 1)
    (hobject : c.hasObjectStore = true) (sched : Schedule Row) :
    ∃ s' c', RunsTo env contracts s₀ s' i c' ∧ c'.batchesSaved = s₀.history.length := by
  have hstep : UnaffectedStep env contracts s₀ { s₀ with
      calculators := s₀.calculators.set i { c with phase := .down } } := .step (.exit hc) nofun
  have hi : i < s₀.calculators.length := (List.getElem?_eq_some_iff.mp hc).1
  have hstart : RunsTo env contracts s₀ { s₀ with
      calculators := s₀.calculators.set i { c with phase := .down } } i { c with phase := .down } :=
    ⟨.single hstep, .step h hstep, rfl, List.getElem?_set_self hi, hone, hobject⟩
  obtain ⟨s₁, c₁, h₁, n, hphase, hsaved⟩ :=
    hstart.advance hout hkeys hsep hregular hwrites rfl nofun sched
  have hregular₁ : RegularHistory env s₁.history := by rw [h₁.history]; exact hregular
  have hle := ((h₁.reachable.inv hout hkeys hsep hregular₁).calculators c₁
    (List.mem_of_getElem? h₁.get)).saved_le
  rw [h₁.history, hsaved] at hle
  exact h₁.all hout hkeys hsep hregular hwrites hphase hsaved hle sched

omit hregular hwrites in
/-- From every state that unaffected steps reach, a calculator with an object store that starts
again and saves after every batch can bring everything up to date: all batches have their metadata
and are handed over, and its database is over all of them. -/
theorem Reachable.completes {s : MetadataSystem Trace Row} (h : Reachable env contracts s)
    (hregular : RegularHistory env s.history) (hwrites : ¬HasEmptyBatch s.history)
    (hc : s.calculators[i]? = some c) (hone : c.maxL1BatchesPerIter = 1)
    (hobject : c.hasObjectStore = true) (sched : Schedule Row) :
    ∃ s', Relation.ReflTransGen (UnaffectedStep env contracts) s s' ∧ s'.history = s.history ∧
      (∀ n < s.history.length, s'.tables.metadata.lookup n =
        some (columnsAt env contracts s.history n)) ∧
      (∀ n, 0 < n → n < s.history.length →
        n ∈ s'.tables.proofs.table.map ProofGenerationRow.l1BatchNumber) ∧
      ∃ c', s'.calculators[i]? = some c' ∧ c'.batchesSaved = s.history.length := by
  obtain ⟨s', c', h', hall⟩ :=
    RunsTo.complete hout hkeys hsep hregular h hwrites hc hone hobject sched
  have hregular' : RegularHistory env s'.history := by rw [h'.history]; exact hregular
  have hinv := h'.reachable.inv hout hkeys hsep hregular'
  have hdone := (hinv.calculators c' (List.mem_of_getElem? h'.get)).done
  rw [hall] at hdone
  refine ⟨s', h'.run, h'.history, fun n hn => ?_,
    fun n hpos hn => (hdone n hn).handed h'.store hpos, c', h'.get, hall⟩
  obtain ⟨columns, hcolumns⟩ := Option.isSome_iff_exists.mp (hdone n hn).metadata
  rw [hcolumns, (hinv.tables.metadata n columns hcolumns).2, h'.history]

end Progress

end MetadataSystem

/-- The limbs of a hash, added up in the field. -/
def limbSum (k : ZkHash) : ZMod GoldilocksField.order :=
  k.w0.toCanonicalU64 + k.w1.toCanonicalU64 + k.w2.toCanonicalU64 + k.w3.toCanonicalU64

theorem toCanonicalU64_add (x y : GoldilocksField) :
    ((x.add y).toCanonicalU64 : ZMod GoldilocksField.order) =
      x.toCanonicalU64 + y.toCanonicalU64 := by
  have hlt : (x.toCanonicalU64 + y.toCanonicalU64) % GoldilocksField.order <
      GoldilocksField.order := Nat.mod_lt _ (by decide)
  have hinner : (x.add y).inner.toNat =
      (x.toCanonicalU64 + y.toCanonicalU64) % GoldilocksField.order :=
    GoldilocksField.fromCanonicalU64_inner (hlt.trans (by decide))
  rw [GoldilocksField.toCanonicalU64, hinner, if_neg (not_le.mpr hlt), ZMod.natCast_mod]
  exact Nat.cast_add _ _

theorem limbSum_combine (height : ℕ) (left right : ZkHash) :
    limbSum (sampleEnv.hasher.combine height left right) = limbSum left + limbSum right := by
  change limbSum ⟨left.w0.add right.w3, left.w1.add right.w0, left.w2.add right.w1,
    left.w3.add right.w2⟩ = _
  simp only [limbSum, toCanonicalU64_add]
  ring

/-- The sum of the leaves that are not empty reaches every node over them. -/
theorem limbSum_node {m : ℕ → TreeValue} {keys : Finset ℕ}
    (hm : ∀ j, j ∉ keys → m j = treeKeyDefault) (h i : ℕ) :
    limbSum (SparseMerkle.node sampleEnv.hasher.combine m h i) =
      ∑ k ∈ keys, if k / 2 ^ h = i then limbSum (m k) else 0 := by
  induction h generalizing i with
  | zero =>
    simp only [SparseMerkle.node_zero, pow_zero, Nat.div_one, Finset.sum_ite_eq']
    split_ifs with hi
    · rfl
    · rw [hm i hi]
      decide
  | succ h ih =>
    rw [SparseMerkle.node_succ, limbSum_combine, ih, ih, ← Finset.sum_add_distrib]
    refine Finset.sum_congr rfl fun k _ => ?_
    have hhalf : k / 2 ^ (h + 1) = k / 2 ^ h / 2 := by rw [pow_succ, Nat.div_div_eq_div_mul]
    rw [hhalf]
    split_ifs <;> first | omega | simp

theorem referenceRoot_ne_sample {m : ℕ → TreeValue} {keys : Finset ℕ}
    (hlt : ∀ k ∈ keys, k < 2 ^ 256) (hm : ∀ j, j ∉ keys → m j = treeKeyDefault)
    (hne : ∑ k ∈ keys, limbSum (m k) ≠ 0) :
    referenceRoot sampleEnv.hasher m ≠ referenceRoot sampleEnv.hasher fun _ => treeKeyDefault := by
  intro heq
  have hsum := limbSum_node hm rootTreeDepth 0
  have hempty := limbSum_node (fun _ _ => rfl : ∀ j, j ∉ (∅ : Finset ℕ) →
    treeKeyDefault = treeKeyDefault) rootTreeDepth 0
  rw [Finset.sum_empty] at hempty
  rw [referenceRoot, referenceRoot] at heq
  rw [heq, hempty] at hsum
  refine hne (Eq.trans (Finset.sum_congr rfl fun k hk => ?_) hsum.symm)
  have hroot : k / 2 ^ rootTreeDepth = 0 :=
    Nat.div_eq_of_lt (by rw [rootTreeDepth_eq]; exact hlt k hk)
  rw [if_pos hroot]

/-- The leaf of a key in the sample. -/
def sampleLeaf (key : StorageKey) : ℕ := treeKeyToU256 (sampleEnv.treeKeyOf key)

theorem regularHistory_sample : RegularHistory sampleEnv sampleHistory := by
  refine ⟨injOn_sampleHistory, by decide, fun n hpos hn => ?_⟩
  obtain ⟨io, hrun⟩ := sealRun_sampleHistory
  have hstore : SealedStore sampleEnv.poseidonHashBytes sampleHistory :=
    hrun.sealedStore injOn_sampleHistory
  have hleaves : HoldsStore sampleEnv sampleHistory n (leavesAt sampleEnv sampleHistory n) :=
    hstore.holdsStore hn
  have hused : ∀ key ∈ sampleKeys, key ∈ usedKeys sampleHistory := by
    have hall : ∀ key ∈ sampleKeys, ∃ batch ∈ sampleHistory, ∃ q ∈ batch.queries,
        q.storageKey = key := by decide +kernel
    exact hall
  have hnodup : (sampleKeys.map sampleLeaf).Nodup := by decide +kernel
  have hsum : ∑ k ∈ (sampleKeys.map sampleLeaf).toFinset,
      limbSum (leavesAt sampleEnv sampleHistory n k) = (sampleKeys.map fun key => limbSum
        (h256ToTreeValue (u256ToH256 (storeAfter (sampleHistory.take n) key.slot)))).sum := by
    rw [List.sum_toFinset _ hnodup, List.map_map]
    refine congrArg List.sum (List.map_congr_left fun key hkey => ?_)
    exact congrArg limbSum (hleaves.used key (hused key hkey))
  refine referenceRoot_ne_sample (fun k hk => ?_) (fun j hj => hleaves.rest j ?_)
    (hsum.trans_ne ?_)
  · obtain ⟨key, -, rfl⟩ := List.mem_map.mp (List.mem_toFinset.mp hk)
    exact treeKeyToU256_lt _
  · rintro key hkey rfl
    exact hj (List.mem_toFinset.mpr (List.mem_map_of_mem (usedKeys_sampleHistory hkey)))
  · have hlength : n ≤ 2 := hn
    obtain rfl | rfl : n = 1 ∨ n = 2 := by omega
    · decide +kernel
    · decide +kernel

theorem deduplicated_sampleBatch (before : Slot → U256) : (SealedBatch.ofQueries before
    (sampleBlockResult.fullResult.storageLogQueries.map StorageLogQuery.logQuery)).deduplicated =
      [sampleQuery 1 5 7 true false, sampleQuery 2 0 3 true false,
        sampleQuery 3 0 0 false false] := by
  simp only [SealedBatch.deduplicated, SealedBatch.ofQueries, sort_sampleBatch]

theorem writes_sample : ¬HasEmptyBatch sampleHistory := by
  rintro ⟨batch, hbatch, hempty⟩
  rcases List.mem_pair.mp hbatch with rfl | rfl
  · revert hempty
    decide +kernel
  · rw [SealedBatch.witnessLogs, deduplicated_sampleBatch] at hempty
    revert hempty
    decide +kernel

def sampleContracts (_ : ℕ) : L1BatchMetaParameters := ⟨u256ToH256 11, u256ToH256 12⟩

namespace MetadataSystem

/-- The first state of a system whose sequencer has sealed the genesis batch. -/
theorem exists_genesis {Trace Row : Type} {env : TreeEnv Row}
    {contracts : ℕ → L1BatchMetaParameters} (hout : env.hasher.TraceOutput)
    (hkeys : env.CanonicalKeys) (hsep : env.SeparateKeys) {io : SequencerIo} {batch : SealedBatch}
    (hregular : RegularHistory env [batch]) (hrun : SealRun env.poseidonHashBytes io [batch])
    (hne : batch.witnessLogs ≠ []) (sched : Schedule Row) :
    ∃ tables : CalculatorTables Trace Row, Reachable env contracts ⟨io, [batch], tables, []⟩ := by
  have hread := (hregular.tablesRead hrun).logs 0 Nat.one_pos
  obtain ⟨witness, hmetadata⟩ := processGenesisBatch_ok hout hkeys hsep sched hne
  exact ⟨_, .genesis sched hrun hread hmetadata (genesisColumns_ok env _ (contracts 0))⟩

/-- Two sealed batches, and a calculator that has not started. -/
theorem reachable_sample : ∃ s : MetadataSystem Unit ZkHash,
    Reachable sampleEnv sampleContracts s ∧ s.history = sampleHistory ∧
      s.calculators = [⟨1, true, ⟨.new .empty, treeKeyDefault, 0⟩, .down⟩] := by
  obtain ⟨⟨io, io'⟩, hrun⟩ := Option.isSome_iff_exists.mp sampleSealRun_ok
  rw [Seq.toOption_eq_some] at hrun
  obtain ⟨storage, hgenesis, -⟩ := Seq.bind_eq_ok.mp hrun
  have hstart : SealRun sampleHash ⟨storage, 1, 1, .new 1 0⟩ [.ofQueries (fun _ => 0)
      (Genesis.logQueries sampleGenesisLogs)] :=
    .genesis 1 0 (by decide) hgenesis rfl
      (SealedBatch.consistent_ofQueries (by decide) (by decide))
  have hlonger : [SealedBatch.ofQueries (fun _ => 0) (Genesis.logQueries sampleGenesisLogs)] <+:
      sampleHistory := ⟨_, rfl⟩
  obtain ⟨tables, h₀⟩ := @exists_genesis Unit _ sampleEnv sampleContracts sampleEnv_traceOutput
    sampleEnv_canonicalKeys sampleEnv_separateKeys _ _ (regularHistory_sample.of_longer hlonger)
    hstart (by decide +kernel) sampleSchedule
  obtain ⟨sealed, hseal⟩ := sealRun_sampleHistory
  have h₁ := h₀.step (.step (.finishBatch ()) nofun)
  have h₂ := h₁.step (.step (.sequencer hseal hlonger fun n hn hlt => ?_) nofun)
  · exact ⟨_, h₂.step (.step (.addCalculator 1 true) nofun), rfl, rfl⟩
  · have hlt' : n < 2 := hlt
    have hn' : 1 ≤ n := hn
    obtain rfl : n = 1 := by omega
    exact ⟨_, (KeyedMap.lookup_insert_eq _ _ _ _).trans (if_pos rfl), rfl⟩

theorem Reachable.completes_sample : ∃ s s' : MetadataSystem Unit ZkHash,
    s.history = sampleHistory ∧
    Relation.ReflTransGen (UnaffectedStep sampleEnv sampleContracts) s s' ∧
    s'.tables.metadata.lookup 1 = some (columnsAt sampleEnv sampleContracts sampleHistory 1) := by
  obtain ⟨s, hreach, hhistory, hcalculators⟩ := reachable_sample
  obtain ⟨s', hrun, -, hmetadata, -⟩ := Reachable.completes sampleEnv_traceOutput
    sampleEnv_canonicalKeys sampleEnv_separateKeys hreach (hhistory ▸ regularHistory_sample)
    (hhistory ▸ writes_sample) (by rw [hcalculators]; rfl : s.calculators[0]? = some _) rfl
    rfl sampleSchedule
  rw [hhistory] at hmetadata
  exact ⟨s, s', hhistory, hrun, hmetadata 1 (by decide)⟩

/-- A calculator goes through both batches of the sample. -/
theorem completed_sample : ∃ (s s' : MetadataSystem Unit ZkHash) (c : MetadataCalculator ZkHash),
    Reachable sampleEnv sampleContracts s ∧ s.history = sampleHistory ∧
    Relation.ReflTransGen (UnaffectedStep sampleEnv sampleContracts) s s' ∧
    Reachable sampleEnv sampleContracts s' ∧ s'.history = sampleHistory ∧
    c ∈ s'.calculators ∧ c.hasObjectStore = true ∧ c.batchesSaved = 2 := by
  obtain ⟨s, hreach, hhistory, hcalculators⟩ := reachable_sample
  obtain ⟨s', c, hrun, hsaved⟩ := RunsTo.complete sampleEnv_traceOutput sampleEnv_canonicalKeys
    sampleEnv_separateKeys (hhistory ▸ regularHistory_sample) hreach (hhistory ▸ writes_sample)
    (by rw [hcalculators]; rfl : s.calculators[0]? = some _) rfl rfl sampleSchedule
  rw [hhistory] at hsaved
  exact ⟨s, s', c, hreach, hhistory, hrun.run, hrun.reachable, hrun.history.trans hhistory,
    List.mem_of_getElem? hrun.get, hrun.store, hsaved⟩

end MetadataSystem

end OlaOs
