import OlaOs.Metadata.CalculatorAdvance

/-! What holds in every state of the metadata calculators. -/
namespace OlaOs

open Enumerate AccountTree BatchOps TreeUpdater CalculatorTables

variable {Trace Row : Type}

/-- A request of a prover keeps the rows, and hands out a batch that has one. -/
theorem ProofDataHandler.step_rows {proofs proofs' : ProofDataHandler} {action : ProofDataAction}
    (hinsert : ∀ number url, action ≠ .insertProofGenerationDetails number url)
    (h : proofs.step action = some proofs') :
    proofs'.table.map ProofGenerationRow.l1BatchNumber =
      proofs.table.map ProofGenerationRow.l1BatchNumber ∧
    ∀ n ∈ proofs'.handedOut, n ∈ proofs.handedOut ∨
      n ∈ proofs.table.map ProofGenerationRow.l1BatchNumber := by
  cases action with
  | getProofGenerationData now timeout locked =>
    simp only [step, ProofGenerationDal.getNextBlockToBeProven] at h
    cases hnext : ProofGenerationDal.nextBlock proofs.table now timeout locked with
    | none =>
      rw [hnext] at h
      cases h
      exact ⟨rfl, fun n hn => .inl (by simpa using hn)⟩
    | some number =>
      rw [hnext] at h
      cases h
      obtain ⟨row, hrow, rfl⟩ := List.mem_map.mp (List.min?_mem hnext)
      refine ⟨map_updateBatch _ _ _ fun _ => rfl, fun n hn => ?_⟩
      rcases List.mem_append.mp hn with hold | hnew
      · exact .inl hold
      · obtain rfl := List.mem_singleton.mp hnew
        exact .inr (List.mem_map.mpr ⟨row, (List.mem_filter.mp hrow).1, rfl⟩)
  | submitProof number payload =>
    simp only [step] at h
    split_ifs at h
    split at h
    · rename_i table hresult
      cases h
      refine ⟨?_, fun n hn => .inl hn⟩
      cases payload with
      | proof proof =>
        rw [updateOne_ok hresult]
        exact map_updateBatch _ _ _ fun _ => rfl
      | skippedProofGeneration =>
        rw [updateOne_ok hresult]
        exact map_updateBatch _ _ _ fun _ => rfl
    · cases h
      exact ⟨rfl, fun n hn => .inl hn⟩
  | insertProofGenerationDetails number url => exact absurd rfl (hinsert number url)

namespace MetadataSystem

structure Inv (env : TreeEnv Row) (contracts : ℕ → L1BatchMetaParameters)
    (s : MetadataSystem Trace Row) : Prop where
  sealRun : SealRun env.poseidonHashBytes s.io s.history
  tables : s.tables.Inv env contracts s.history
  calculators : ∀ c ∈ s.calculators, CalculatorInv env s.history s.tables c

variable {env : TreeEnv Row} {contracts : ℕ → L1BatchMetaParameters}
  {s s' : MetadataSystem Trace Row}

theorem processGenesisBatch_ok (hout : env.hasher.TraceOutput) (hkeys : env.CanonicalKeys)
    (hsep : env.SeparateKeys) (sched : Schedule Row) {logs : List WitnessStorageLog}
    (hne : logs ≠ []) : ∃ witness, MetadataCalculator.processGenesisBatch env sched logs =
      .ok { blockReport env (fun _ => treeKeyDefault) [] (blockOps env logs) with
        witness := some witness } := by
  have hnew := newWithDb_empty env
  obtain ⟨witness, tree', hblock, -⟩ :=
    processBlock_step hout hkeys hsep sched (savedInv_start hnew).db hne
  refine ⟨witness, ?_⟩
  unfold MetadataCalculator.processGenesisBatch
  rw [hnew]
  exact congrArg (fun result => result.bind fun result => .ok result.1) hblock

theorem processGenesisBatch_nil (env : TreeEnv Row) (sched : Schedule Row) :
    MetadataCalculator.processGenesisBatch env sched [] = .error noWrites := by
  have hpanic := processBlock_nil sched (savedInv_start (newWithDb_empty env)).db.nodes
  unfold MetadataCalculator.processGenesisBatch
  rw [newWithDb_empty]
  exact congrArg (fun result => result.bind fun result => .ok result.1) hpanic

/-- The genesis batch is reported with its reads, which are not seen in the report. -/
theorem genesisColumns_eq (hout : env.hasher.TraceOutput) (hkeys : env.CanonicalKeys)
    (hsep : env.SeparateKeys) {history : List SealedBatch}
    (hstore : SealedStore env.poseidonHashBytes history) (hpos : 0 < history.length)
    {sched : Schedule Row} {metadata : TreeMetadata Row} {columns : MetadataColumns}
    (hgenesis : MetadataCalculator.processGenesisBatch env sched history[0].witnessLogs =
      .ok metadata)
    (hcolumns : genesisColumns env metadata (contracts 0) = .ok columns) :
    columns = columnsAt env contracts history 0 := by
  have hne : history[0].witnessLogs ≠ [] := by
    intro hnil
    rw [hnil, processGenesisBatch_nil] at hgenesis
    cases hgenesis
  obtain ⟨witness, hblock⟩ := processGenesisBatch_ok hout hkeys hsep sched hne
  have hreport : batchReport env history 0 =
      blockReport env (fun _ => treeKeyDefault) [] (blockOps env history[0].witnessLogs) := by
    rw [batchReport_eq hpos]
    exact (hstore.readsCurrent hpos).blockReport_filter
  rw [hblock, ← hreport] at hgenesis
  have hcommitted : committedBatch metadata (contracts 0) =
      committedBatch (batchReport env history 0) (contracts 0) := by
    rw [← Except.ok.inj hgenesis]
    rfl
  rw [genesisColumns_ok, hcommitted] at hcolumns
  rw [columnsAt, committedAt, if_pos rfl, if_pos rfl]
  exact (Except.ok.inj hcolumns).symm

theorem inv_genesis (hout : env.hasher.TraceOutput) (hkeys : env.CanonicalKeys)
    (hsep : env.SeparateKeys) {io : SequencerIo} {batch : SealedBatch}
    {block : WitnessBlockWithLogs} {metadata : TreeMetadata Row} {columns : MetadataColumns}
    {sched : Schedule Row} (hregular : RegularHistory env [batch])
    (hrun : SealRun env.poseidonHashBytes io [batch])
    (hlogs : getLogsForL1Batch env.poseidonHashBytes io.storage 0 = .ok (some block))
    (hgenesis : MetadataCalculator.processGenesisBatch env sched block.storageLogs = .ok metadata)
    (hcolumns : genesisColumns env metadata (contracts 0) = .ok columns) :
    Inv env contracts (⟨io, [batch], { metadata := (∅ : KeyedMap ℕ _).insert 0 columns }, []⟩ :
      MetadataSystem Trace Row) := by
  have hread := (hregular.tablesRead hrun).logs 0 Nat.one_pos
  rw [hread] at hlogs
  cases hlogs
  have heq := genesisColumns_eq hout hkeys hsep (hrun.sealedStore hregular.hashed) Nat.one_pos
    hgenesis hcolumns
  have hlookup : ∀ n, ((∅ : KeyedMap ℕ MetadataColumns).insert 0 columns).lookup n =
      if n = 0 then some columns else none := fun n => KeyedMap.lookup_insert_eq _ _ _ _
  refine ⟨hrun, ⟨fun n found hfound => ?_, ?_, fun n hn => ?_, fun n hpos hn => ?_,
    fun n hn => ?_, fun n hn => ?_⟩, fun c hc => ?_⟩
  · change ((∅ : KeyedMap ℕ MetadataColumns).insert 0 columns).lookup n = some found at hfound
    rw [hlookup] at hfound
    split_ifs at hfound with h0
    cases hfound
    subst h0
    exact ⟨Nat.one_pos, heq⟩
  · change (((∅ : KeyedMap ℕ MetadataColumns).insert 0 columns).lookup 0).isSome
    rw [hlookup]
    rfl
  · change (((∅ : KeyedMap ℕ MetadataColumns).insert 0 columns).lookup (n + 1)).isSome at hn
    rw [hlookup, if_neg (Nat.succ_ne_zero n)] at hn
    cases hn
  · simp only [List.length_singleton] at hn
    omega
  · cases hn
  · cases hn
  · cases hc

/-- New batches of the sequencer. -/
theorem inv_of_longer {tables : CalculatorTables Trace Row} {history history' : List SealedBatch}
    (h : tables.Inv env contracts history) (hlonger : history <+: history')
    (htraces : ∀ n, history.length ≤ n → n < history'.length →
      ∃ job, tables.witnesses.lookup n = some job ∧ job.txTrace.isSome) :
    tables.Inv env contracts history' ∧ Grows env history history' tables tables := by
  have hwitnessed : ∀ n, n < history.length → tables.Witnessed env history n →
      tables.Witnessed env history' n := by
    rintro n hn ⟨job, hjob, hcomplete⟩
    refine ⟨job, hjob, hcomplete.txTrace, hcomplete.storage, ?_, ?_⟩
    · rw [stateRoot_of_longer hlonger hn.le]
      exact hcomplete.preRootHash
    · rw [stateRoot_of_longer hlonger hn]
      exact hcomplete.rootHash
  refine ⟨⟨fun n columns hcolumns => ?_, h.genesis, h.gapless, fun n hpos hn => ?_, fun n hn => ?_,
    h.handedOut⟩, hlonger, fun _ _ hc => hc, hwitnessed, fun _ hh => hh⟩
  · obtain ⟨hn, rfl⟩ := h.metadata n columns hcolumns
    exact ⟨hn.trans_le hlonger.length_le, (columnsAt_of_longer hlonger hn).symm⟩
  · by_cases hold : n < history.length
    · exact h.traces n hpos hold
    · exact htraces n (not_lt.mp hold) hn
  · obtain ⟨hpos, hmetadata, hold⟩ := h.proofs n hn
    obtain ⟨columns, hcolumns⟩ := Option.isSome_iff_exists.mp hmetadata
    exact ⟨hpos, hmetadata, hwitnessed n (h.metadata n columns hcolumns).1 hold⟩

/-- The traces of the batch that the sequencer works on, which no calculator has seen. -/
theorem inv_finishBatch {tables : CalculatorTables Trace Row} {history : List SealedBatch}
    (h : tables.Inv env contracts history) (job : PrepareBasicCircuitsJob Trace Row) :
    let tables' := { tables with witnesses := tables.witnesses.insert history.length job }
    tables'.Inv env contracts history ∧ Grows env history history tables tables' := by
  intro tables'
  have hlookup : ∀ n, n < history.length →
      tables'.witnesses.lookup n = tables.witnesses.lookup n := by
    intro n hn
    have hne : n ≠ history.length := hn.ne
    exact (KeyedMap.lookup_insert_eq _ _ _ _).trans (if_neg hne)
  have hwitnessed : ∀ n, n < history.length → tables.Witnessed env history n →
      tables'.Witnessed env history n := by
    rintro n hn ⟨job, hjob, hcomplete⟩
    exact ⟨job, (hlookup n hn).trans hjob, hcomplete⟩
  refine ⟨⟨h.metadata, h.genesis, h.gapless, fun n hpos hn => ?_, fun n hn => ?_, h.handedOut⟩,
    .of_eq List.prefix_rfl rfl hwitnessed fun _ hh => hh⟩
  · rw [hlookup n hn]
    exact h.traces n hpos hn
  · obtain ⟨hpos, hmetadata, hold⟩ := h.proofs n hn
    obtain ⟨columns, hcolumns⟩ := Option.isSome_iff_exists.mp hmetadata
    exact ⟨hpos, hmetadata, hwitnessed n (h.metadata n columns hcolumns).1 hold⟩

theorem inv_prover {tables : CalculatorTables Trace Row} {history : List SealedBatch}
    (h : tables.Inv env contracts history) {action : ProofDataAction} {proofs : ProofDataHandler}
    (hinsert : ∀ number url, action ≠ .insertProofGenerationDetails number url)
    (hstep : tables.proofs.step action = some proofs) :
    let tables' := { tables with proofs := proofs }
    tables'.Inv env contracts history ∧ Grows env history history tables tables' := by
  intro tables'
  obtain ⟨hrows, hout⟩ := ProofDataHandler.step_rows hinsert hstep
  have hhanded : ∀ n, tables'.Handed n ↔ tables.Handed n := by
    intro n
    change n ∈ proofs.table.map ProofGenerationRow.l1BatchNumber ↔ _
    rw [hrows]
    rfl
  refine ⟨⟨h.metadata, h.genesis, h.gapless, h.traces,
    fun n hn => h.proofs n ((hhanded n).mp hn), fun n hn => (hhanded n).mpr ?_⟩,
    .of_eq List.prefix_rfl rfl (fun _ _ hw => hw) fun n hn => (hhanded n).mpr hn⟩
  rcases hout n hn with hold | hnew
  · exact h.handedOut n hold
  · exact hnew

/-- A calculator whose database is still empty. -/
theorem calculatorInv_new (maxL1BatchesPerIter : ℕ) (hasObjectStore : Bool)
    (history : List SealedBatch) (tables : CalculatorTables Trace Row) :
    CalculatorInv env history tables
      ⟨maxL1BatchesPerIter, hasObjectStore, ⟨.new .empty, treeKeyDefault, 0⟩, .down⟩ :=
  ⟨dbInv_empty env, Nat.zero_le _, fun n hn => absurd hn (Nat.not_lt_zero n), .down⟩

/-- What the sequencer and the provers do leaves the calculators as they are. -/
theorem Inv.of_grows (h : s.Inv env contracts) {io : SequencerIo} {history : List SealedBatch}
    {tables : CalculatorTables Trace Row} (hrun : SealRun env.poseidonHashBytes io history)
    (htables : tables.Inv env contracts history)
    (hgrows : Grows env s.history history s.tables tables) :
    Inv env contracts ⟨io, history, tables, s.calculators⟩ :=
  ⟨hrun, htables, fun c hc => (h.calculators c hc).grows hgrows⟩

theorem UnaffectedStep.longer (h : UnaffectedStep env contracts s s') :
    s.history <+: s'.history := by
  obtain ⟨hstep, -⟩ := h
  cases hstep with
  | sequencer _ hlonger _ => exact hlonger
  | finishBatch => exact List.prefix_rfl
  | prover => exact List.prefix_rfl
  | addCalculator => exact List.prefix_rfl
  | exit => exact List.prefix_rfl
  | advance => exact List.prefix_rfl

section Steps

variable (hout : env.hasher.TraceOutput) (hkeys : env.CanonicalKeys) (hsep : env.SeparateKeys)

include hout hkeys hsep

theorem UnaffectedStep.inv (hstep : UnaffectedStep env contracts s s') (h : s.Inv env contracts)
    (hregular : RegularHistory env s.history) :
    s'.Inv env contracts ∧ Grows env s.history s'.history s.tables s'.tables := by
  obtain ⟨hstep, hunaffected⟩ := hstep
  cases hstep with
  | finishBatch trace =>
    obtain ⟨bound, hseal⟩ := h.sealRun.inv
    rw [hseal.currentL1BatchNumber]
    obtain ⟨htables, hgrows⟩ := inv_finishBatch h.tables ⟨some trace, none, none, none⟩
    exact ⟨h.of_grows h.sealRun htables hgrows, hgrows⟩
  | sequencer hrun hlonger htraces =>
    obtain ⟨htables, hgrows⟩ := inv_of_longer h.tables hlonger htraces
    exact ⟨h.of_grows hrun htables hgrows, hgrows⟩
  | prover hinsert hprover =>
    obtain ⟨htables, hgrows⟩ := inv_prover h.tables hinsert hprover
    exact ⟨h.of_grows h.sealRun htables hgrows, hgrows⟩
  | addCalculator maxL1BatchesPerIter hasObjectStore =>
    refine ⟨⟨h.sealRun, h.tables, fun c hc => ?_⟩, .refl env s.history s.tables⟩
    rcases List.mem_append.mp hc with hold | hnew
    · exact h.calculators c hold
    · obtain rfl := List.mem_singleton.mp hnew
      exact calculatorInv_new maxL1BatchesPerIter hasObjectStore s.history s.tables
  | exit hc =>
    refine ⟨⟨h.sealRun, h.tables, fun c' hc' => ?_⟩, .refl env s.history s.tables⟩
    rcases List.mem_or_eq_of_mem_set hc' with hold | rfl
    · exact h.calculators c' hold
    · have hold := h.calculators _ (List.mem_of_getElem? hc)
      exact ⟨hold.db, hold.saved_le, hold.done, .down⟩
  | advance sched written hc hadvance =>
    rcases advance_spec hout hkeys hsep hregular (hregular.tablesRead h.sealRun) h.tables
      (h.calculators _ (List.mem_of_getElem? hc)) (hunaffected _ rfl) sched written with
      ⟨next, hnext, hadvanced⟩ | ⟨hpanic, -⟩
    · rw [hnext] at hadvance
      cases hadvance
      refine ⟨⟨h.sealRun, hadvanced.inv, fun c' hc' => ?_⟩, hadvanced.grows⟩
      rcases List.mem_or_eq_of_mem_set hc' with hold | rfl
      · exact (h.calculators c' hold).grows hadvanced.grows
      · exact hadvanced.calculator
    · rw [hpanic] at hadvance
      cases hadvance

theorem Reachable.inv (h : Reachable env contracts s) (hregular : RegularHistory env s.history) :
    s.Inv env contracts := by
  induction h with
  | genesis sched hrun hlogs hgenesis hcolumns =>
    exact inv_genesis hout hkeys hsep hregular hrun hlogs hgenesis hcolumns
  | step _ hstep ih =>
    have hbefore := hregular.of_longer hstep.longer
    exact (hstep.inv hout hkeys hsep (ih hbefore) hbefore).1

end Steps

end MetadataSystem

end OlaOs
