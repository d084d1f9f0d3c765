import OlaOs.Metadata.CalculatorInvariant

/-! What one statement of a metadata calculator does: it keeps the invariants, or panics over a
batch without writes. -/
namespace OlaOs

open Enumerate AccountTree BatchOps TreeUpdater CalculatorTables

variable {Trace Row : Type}

/-- Where the statements lead. A save, when it is written, brings the database up to the tree. -/
inductive Follows (history : List SealedBatch) (written : Bool) (c c' : MetadataCalculator Row) :
    Prop where
  | opens {n : ℕ} : c.phase = .down → c'.phase = .waiting n →
      (written = true → c'.batchesSaved = n) → Follows history written c c'
  | waits {next last : ℕ} : c.phase = .waiting next → c'.phase = .waiting next →
      last = min ((next + c.maxL1BatchesPerIter + (2 ^ 32 - 1)) % 2 ^ 32) (history.length - 1) →
      last < next → c'.batchesSaved = c.batchesSaved → Follows history written c c'
  | loads {next last : ℕ} {data : Option WitnessBlockWithLogs} {root : H256} :
      c.phase = .waiting next → c'.phase = .iterating next last data root →
      last = min ((next + c.maxL1BatchesPerIter + (2 ^ 32 - 1)) % 2 ^ 32) (history.length - 1) →
      next ≤ last → c'.batchesSaved = c.batchesSaved → Follows history written c c'
  | processes {number last : ℕ} {data nextData : Option WitnessBlockWithLogs} {root : H256}
      {metadata : TreeMetadata Row} : c.phase = .iterating number last data root →
      c'.phase = .processed number last metadata nextData root →
      c'.batchesSaved = c.batchesSaved → Follows history written c c'
  | stores {number last : ℕ} {nextData : Option WitnessBlockWithLogs} {root root' : H256}
      {metadata : TreeMetadata Row} : c.phase = .processed number last metadata nextData root →
      c'.phase = .stored number last nextData root' → c'.batchesSaved = c.batchesSaved →
      Follows history written c c'
  | goesOn {number last : ℕ} {nextData : Option WitnessBlockWithLogs} {root : H256} :
      c.phase = .stored number last nextData root → number < last →
      c'.phase = .iterating (number + 1) last nextData root → c'.batchesSaved = c.batchesSaved →
      Follows history written c c'
  | ends {last : ℕ} {nextData : Option WitnessBlockWithLogs} {root : H256} :
      c.phase = .stored last last nextData root → c'.phase = .finished last →
      c'.batchesSaved = c.batchesSaved → Follows history written c c'
  | saves {last : ℕ} : c.phase = .finished last → c'.phase = .waiting (last + 1) →
      (written = true → c'.batchesSaved = last + 1) → Follows history written c c'

/-- The state after a statement of a calculator. -/
structure Advanced (env : TreeEnv Row) (contracts : ℕ → L1BatchMetaParameters)
    (history : List SealedBatch) (tables : CalculatorTables Trace Row) (written : Bool)
    (c : MetadataCalculator Row)
    (result : CalculatorTables Trace Row × MetadataCalculator Row) : Prop where
  inv : result.1.Inv env contracts history
  grows : Grows env history history tables result.1
  calculator : CalculatorInv env history result.1 result.2
  follows : Follows history written c result.2
  maxL1BatchesPerIter : result.2.maxL1BatchesPerIter = c.maxL1BatchesPerIter
  hasObjectStore : result.2.hasObjectStore = c.hasObjectStore

/-- No slot changes in some batch. -/
def HasEmptyBatch (history : List SealedBatch) : Prop :=
  ∃ batch ∈ history, filterBlockLogs batch.witnessLogs = []

/-- A statement keeps the invariants, or panics over a batch without writes. -/
def Advances (env : TreeEnv Row) (contracts : ℕ → L1BatchMetaParameters)
    (history : List SealedBatch) (tables : CalculatorTables Trace Row) (written : Bool)
    (c : MetadataCalculator Row)
    (result : Except Fault (CalculatorTables Trace Row × MetadataCalculator Row)) : Prop :=
  (∃ next, result = .ok next ∧ Advanced env contracts history tables written c next) ∨
    result = .error noWrites ∧ HasEmptyBatch history

section Advance

variable {env : TreeEnv Row} {contracts : ℕ → L1BatchMetaParameters} {history : List SealedBatch}
  {storage : StorageTables} {tables : CalculatorTables Trace Row} {c : MetadataCalculator Row}

theorem AccountTree.isEmpty_eq {tree : AccountTree} : tree.isEmpty env =
    .ok (tree.rootHash = referenceRoot env.hasher fun _ => treeKeyDefault) := by
  have hhead := TreeConfig.emptyEntries_hash env.hasher (Nat.zero_le rootTreeDepth)
  rw [← List.head?_eq_getElem?, Nat.sub_zero] at hhead
  simp only [isEmpty, TreeConfig.emptyTree_eq, hhead, orPanic_some, bind, Except.bind, pure,
    Except.pure, referenceRoot, SparseMerkle.node_const]

section Tables

theorem ProofGenerationDal.mem_insertProofGenerationDetails {table : List ProofGenerationRow}
    {m n : ℕ} {url : String} :
    m ∈ (insertProofGenerationDetails table n url).map ProofGenerationRow.l1BatchNumber ↔
      m ∈ table.map ProofGenerationRow.l1BatchNumber ∨ m = n := by
  unfold insertProofGenerationDetails
  split_ifs with hany
  · have hmem : n ∈ table.map ProofGenerationRow.l1BatchNumber := by
      obtain ⟨row, hrow, heq⟩ := List.any_eq_true.mp hany
      exact List.mem_map.mpr ⟨row, hrow, of_decide_eq_true heq⟩
    constructor
    · exact .inl
    · rintro (h | rfl)
      · exact h
      · exact hmem
  · rw [List.map_append, List.mem_append, List.map_singleton, List.mem_singleton]

/-- A completed witness. -/
theorem CalculatorTables.Inv.insertWitness (h : tables.Inv env contracts history) {n : ℕ}
    {job : PrepareBasicCircuitsJob Trace Row} (hjob : IsComplete env history n job) :
    let tables' := { tables with witnesses := tables.witnesses.insert n job }
    tables'.Inv env contracts history ∧ Grows env history history tables tables' ∧
      tables'.Witnessed env history n := by
  intro tables'
  have hlookup : ∀ k, tables'.witnesses.lookup k = if k = n then some job
      else tables.witnesses.lookup k := fun k => KeyedMap.lookup_insert_eq _ _ _ _
  have hself : tables'.Witnessed env history n := ⟨job, by rw [hlookup, if_pos rfl], hjob⟩
  have hwitnessed : ∀ k, tables.Witnessed env history k → tables'.Witnessed env history k := by
    rintro k ⟨old, hold, hcomplete⟩
    by_cases hk : k = n
    · rw [hk]
      exact hself
    · exact ⟨old, by rw [hlookup, if_neg hk, hold], hcomplete⟩
  refine ⟨⟨h.metadata, h.genesis, h.gapless, fun k hpos hk => ?_, fun k hk => ?_,
      h.handedOut⟩, .of_eq List.prefix_rfl rfl (fun k _ => hwitnessed k) (fun k hk => hk), hself⟩
  · by_cases heq : k = n
    · exact ⟨job, by rw [hlookup, if_pos heq], hjob.txTrace⟩
    · obtain ⟨old, hold, htrace⟩ := h.traces k hpos hk
      exact ⟨old, by rw [hlookup, if_neg heq, hold], htrace⟩
  · obtain ⟨hpos, hmetadata, hold⟩ := h.proofs k hk
    exact ⟨hpos, hmetadata, hwitnessed k hold⟩

/-- Metadata that is saved, or was there before. -/
theorem CalculatorTables.Inv.saveMetadata (h : tables.Inv env contracts history) {n : ℕ}
    (hn : n < history.length) (hbefore : (tables.metadata.lookup (n - 1)).isSome)
    {rows : KeyedMap ℕ MetadataColumns}
    (hrow : rows.lookup n = some (columnsAt env contracts history n))
    (hrest : ∀ k, k ≠ n → rows.lookup k = tables.metadata.lookup k) :
    let tables' := { tables with metadata := rows }
    tables'.Inv env contracts history ∧ Grows env history history tables tables' := by
  intro tables'
  have hkeeps : ∀ k old, tables.metadata.lookup k = some old → rows.lookup k = some old := by
    intro k old hlookup
    by_cases hk : k = n
    · subst hk
      rw [hrow, (h.metadata k old hlookup).2]
    · rw [hrest k hk, hlookup]
  have hsome : ∀ k, (tables.metadata.lookup k).isSome → (rows.lookup k).isSome := by
    intro k hk
    obtain ⟨old, hlookup⟩ := Option.isSome_iff_exists.mp hk
    rw [hkeeps k old hlookup]
    rfl
  refine ⟨⟨fun k found hfound => ?_, hsome 0 h.genesis, fun k hk => ?_, h.traces, fun k hk => ?_,
    h.handedOut⟩, List.prefix_rfl, hkeeps, fun _ _ hw => hw, fun _ hh => hh⟩
  · by_cases hk : k = n
    · subst hk
      rw [hrow] at hfound
      cases hfound
      exact ⟨hn, rfl⟩
    · rw [hrest k hk] at hfound
      exact h.metadata k found hfound
  · by_cases heq : k + 1 = n
    · subst heq
      exact hsome k hbefore
    · rw [hrest _ heq] at hk
      exact hsome k (h.gapless k hk)
  · obtain ⟨hpos', hmetadata, hwitnessed⟩ := h.proofs k hk
    exact ⟨hpos', hsome k hmetadata, hwitnessed⟩

/-- A batch that is handed to the proof data handler, when there is an object store. -/
theorem CalculatorTables.Inv.handOver (h : tables.Inv env contracts history) {n : ℕ}
    {hasObjectStore : Bool} (hpos : 0 < n) (hmetadata : (tables.metadata.lookup n).isSome)
    (hwitnessed : hasObjectStore = true → tables.Witnessed env history n) (url : String) :
    let tables' := { tables with
      proofs.table := if hasObjectStore then
          ProofGenerationDal.insertProofGenerationDetails tables.proofs.table n url
        else tables.proofs.table }
    tables'.Inv env contracts history ∧ Grows env history history tables tables' ∧
      (hasObjectStore = true → tables'.Handed n) := by
  intro tables'
  cases hasObjectStore with
  | false => exact ⟨h, .refl env history tables, nofun⟩
  | true =>
    have hhanded : ∀ k, tables'.Handed k ↔ tables.Handed k ∨ k = n := fun k =>
      ProofGenerationDal.mem_insertProofGenerationDetails
    refine ⟨⟨h.metadata, h.genesis, h.gapless, h.traces, fun k hk => ?_,
        fun k hk => (hhanded k).mpr (.inl (h.handedOut k hk))⟩,
      .of_eq List.prefix_rfl rfl (fun _ _ hw => hw) fun k hk => (hhanded k).mpr (.inl hk),
      fun _ => (hhanded n).mpr (.inr rfl)⟩
    rcases (hhanded k).mp hk with hold | rfl
    · exact h.proofs k hold
    · exact ⟨hpos, hmetadata, hwitnessed rfl⟩

end Tables

section Reads

variable (hreads : ReadsHistory env storage history)

include hreads

theorem advance_waiting {next : ℕ} (htables : tables.Inv env contracts history)
    (h : CalculatorInv env history tables c) (hphase : c.phase = .waiting next)
    (sched : Schedule Row) (written : Bool) :
    Advances env contracts history tables written c
      (c.advance env contracts storage sched written tables) := by
  have hp := h.phase
  rw [hphase] at hp
  cases hp with
  | waiting htree hpos hle hdone =>
    set last := min ((next + c.maxL1BatchesPerIter + (2 ^ 32 - 1)) % 2 ^ 32) (history.length - 1)
      with hlast
    by_cases hlt : last < next
    · refine .inl ⟨(tables, { c with phase := .waiting next }), ?_, htables,
        .refl env history tables, htree.calculatorInv hle h.done (.waiting htree hpos hle hdone),
        .waits hphase rfl hlast hlt rfl, rfl, rfl⟩
      simp only [MetadataCalculator.advance, hphase, MetadataCalculator.nextRange, hreads.sealed,
        bind, Except.bind, pure, Except.pure, ← hlast, if_pos hlt, Except.mapError]
    · have hlength := List.length_pos_iff.mpr hreads.ne_nil
      have hnext : next < history.length := by omega
      have hroot : treeKeyToH256 c.tree.rootHash = stateRoot env history next := by
        rw [htree.root, stateRoot]
      let data : WitnessBlockWithLogs := ⟨⟨next, true⟩, history[next].witnessLogs⟩
      refine .inl ⟨(tables, { c with
          phase := .iterating next last (some data) (stateRoot env history next) }), ?_,
        htables, .refl env history tables, htree.calculatorInv hle h.done
          (.iterating htree hpos (not_lt.mp hlt) (by omega) hdone ⟨hnext, rfl⟩),
        .loads hphase rfl hlast (not_lt.mp hlt) rfl, rfl, rfl⟩
      simp only [MetadataCalculator.advance, hphase, MetadataCalculator.nextRange, hreads.sealed,
        bind, Except.bind, pure, Except.pure, ← hlast, if_neg hlt, Except.mapError,
        hreads.logs next hnext, hroot, data]

theorem advance_processed {number last : ℕ} {metadata : TreeMetadata Row}
    {nextData : Option WitnessBlockWithLogs} {previousRootHash : H256}
    (htables : tables.Inv env contracts history) (h : CalculatorInv env history tables c)
    (hphase : c.phase = .processed number last metadata nextData previousRootHash)
    (sched : Schedule Row) (written : Bool) :
    Advances env contracts history tables written c
      (c.advance env contracts storage sched written tables) := by
  have hp := h.phase
  rw [hphase] at hp
  cases hp with
  | processed htree hsaved hpos hle hlt hdone hdata hwitness =>
    have hnumber : number < history.length := hle.trans_lt hlt
    have hroot := @rootHash_batchReport _ env _ _ hnumber
    have hne : number ≠ 0 := Nat.ne_of_gt hpos
    have hcommitted : committedAt env contracts history number =
        committedBatch (batchReport env history number) (contracts number) := if_neg hne
    have hcolumns : metadataColumns env (batchReport env history number) (contracts number)
        (stateRoot env history number) = .ok (columnsAt env contracts history number) := by
      rw [metadataColumns_ok, columnsAt, hcommitted, if_neg hne]
    have hparent : (columnsAt env contracts history number).parentHash.isSome := by
      rw [columnsAt, if_neg hne]
      rfl
    obtain ⟨rows, hsave, hrow, hrest⟩ :=
      BlocksDal.saveL1BatchMetadata_ok (hreads.headers number hnumber) hparent
        fun old hlookup => (htables.metadata number old hlookup).2
    obtain ⟨hinv, hgrows⟩ := htables.saveMetadata hnumber (hdone (number - 1) (by omega)).metadata
      hrow hrest
    refine .inl ⟨({ tables with metadata := rows }, { c with
        phase := .stored number last nextData (stateRoot env history (number + 1)) }), ?_, hinv,
      hgrows, htree.calculatorInv (by omega) (fun k hk => (h.done k hk).grows hgrows)
        (.stored htree hsaved hpos hle hlt (fun k hk => (hdone k hk).grows hgrows) hdata hwitness
          (Option.isSome_iff_exists.mpr ⟨_, hrow⟩)), .stores hphase rfl rfl, rfl, rfl⟩
    simp only [MetadataCalculator.advance, hphase, hcolumns, hsave, hroot, bind, Except.bind,
      Except.mapError, pure, Except.pure]

end Reads

theorem advance_stored {number last : ℕ} {nextData : Option WitnessBlockWithLogs}
    {previousRootHash : H256} (htables : tables.Inv env contracts history)
    (h : CalculatorInv env history tables c)
    (hphase : c.phase = .stored number last nextData previousRootHash)
    (sched : Schedule Row) (written : Bool) :
    Advances env contracts history tables written c
      (c.advance env contracts storage sched written tables) := by
  have hp := h.phase
  rw [hphase] at hp
  cases hp with
  | stored htree hsaved hpos hle hlt hdone hdata hwitness hmetadata =>
    obtain ⟨hinv, hgrows, hhanded⟩ := htables.handOver hpos hmetadata hwitness
      (prepareWitnessKey number)
    set tables' : CalculatorTables Trace Row := { tables with
      proofs.table := if c.hasObjectStore then
          ProofGenerationDal.insertProofGenerationDetails tables.proofs.table number
            (prepareWitnessKey number)
        else tables.proofs.table } with htables'
    have hdone' : ∀ k < number + 1, tables'.Done c.hasObjectStore k := by
      intro k hk
      rcases Nat.lt_succ_iff_lt_or_eq.mp hk with hbefore | rfl
      · exact (hdone k hbefore).grows hgrows
      · exact ⟨hmetadata, fun hstore _ => hhanded hstore⟩
    have hsavedDone : ∀ k < c.batchesSaved, tables'.Done c.hasObjectStore k :=
      fun k hk => (h.done k hk).grows hgrows
    by_cases hmore : number < last
    · refine .inl ⟨(tables', { c with
          phase := .iterating (number + 1) last nextData (stateRoot env history (number + 1)) }),
        ?_, hinv, hgrows,
        htree.calculatorInv (by omega) hsavedDone
          (.iterating htree (Nat.succ_pos _) hmore hlt hdone' (hdata hmore)),
        .goesOn hphase hmore rfl rfl, rfl, rfl⟩
      simp only [MetadataCalculator.advance, hphase, if_pos hmore, htables', pure, Except.pure]
    · obtain rfl : number = last := by omega
      refine .inl ⟨(tables', { c with phase := .finished number }), ?_, hinv, hgrows,
        htree.calculatorInv (by omega) hsavedDone (.finished htree hsaved hlt hdone'),
        .ends hphase rfl rfl, rfl, rfl⟩
      simp only [MetadataCalculator.advance, hphase, if_neg hmore, htables', pure, Except.pure]

theorem advance_finished {last : ℕ} (htables : tables.Inv env contracts history)
    (h : CalculatorInv env history tables c) (hphase : c.phase = .finished last)
    (sched : Schedule Row) (written : Bool) :
    Advances env contracts history tables written c
      (c.advance env contracts storage sched written tables) := by
  have hp := h.phase
  rw [hphase] at hp
  cases hp with
  | finished htree hsaved hlt hdone =>
    obtain ⟨saved', hle, hwritten, htree'⟩ := htree.save_cases hsaved written
    refine .inl ⟨(tables, { c with
        tree := AsyncTree.save c.tree written, phase := .waiting (last + 1) }), ?_, htables,
      .refl env history tables, htree'.calculatorInv hlt
        (fun k hk => hdone k (hk.trans_le hle)) (.waiting htree' (Nat.succ_pos _) hlt hdone),
      .saves hphase rfl fun h => htree'.saved_eq.trans (hwritten h), rfl, rfl⟩
    simp only [MetadataCalculator.advance, hphase, pure, Except.pure]

section Trees

variable (hout : env.hasher.TraceOutput) (hkeys : env.CanonicalKeys) (hsep : env.SeparateKeys)
  (hregular : RegularHistory env history) (hreads : ReadsHistory env storage history)

include hout hkeys hsep hregular hreads

theorem openTree_spec (htables : tables.Inv env contracts history)
    (h : CalculatorInv env history tables c) (sched : Schedule Row) (written : Bool) :
    (∃ tree saved n, openTree env storage sched written c.tree.storage.db = .ok tree ∧
      HeldTree env history saved n tree ∧ 0 < n ∧ n ≤ history.length ∧
      (∀ k < n, tables.Done c.hasObjectStore k) ∧ (written = true → saved = n)) ∨
    openTree env storage sched written c.tree.storage.db = .error noWrites ∧
      HasEmptyBatch history := by
  obtain ⟨tree, hnew, htree⟩ := HeldTree.opened h.db rfl
  by_cases hzero : c.batchesSaved = 0
  · rw [hzero] at htree
    have hempty : tree.isEmpty env = .ok true := by
      rw [AccountTree.isEmpty_eq, htree.root]
      exact congrArg Except.ok (decide_eq_true rfl)
    have hlength : 0 < history.length := List.length_pos_iff.mpr hreads.ne_nil
    by_cases hne : filterBlockLogs history[0].witnessLogs = []
    · refine .inr ⟨?_, _, List.getElem_mem hlength, hne⟩
      simp only [openTree, hnew, hempty, hreads.logs 0 hlength, htree.process_nil hne sched, bind,
        Except.bind, Except.mapError, ↓reduceIte]
    · left
      obtain ⟨witness, tree', hprocess, htree'⟩ := htree.process hout hkeys hsep hregular hlength
        rfl (fun _ _ => rfl) hne sched
      obtain ⟨saved', -, hwritten, hsaved⟩ := htree'.save_cases (by omega) written
      refine ⟨_, saved', 1, ?_, hsaved, Nat.one_pos, hlength, ?_, hwritten⟩
      · simp only [openTree, hnew, hempty, hreads.logs 0 hlength, hprocess, bind, Except.bind,
          Except.mapError, pure, Except.pure, ↓reduceIte]
      · intro k hk
        obtain rfl : k = 0 := by omega
        exact ⟨htables.genesis, fun _ hpos => absurd hpos (lt_irrefl 0)⟩
  · left
    have hempty : tree.isEmpty env = .ok false := by
      rw [AccountTree.isEmpty_eq, htree.root]
      exact congrArg Except.ok
        (decide_eq_false (hregular.root_ne _ (Nat.pos_of_ne_zero hzero) h.saved_le))
    refine ⟨tree, _, _, ?_, htree, Nat.pos_of_ne_zero hzero, h.saved_le, h.done, fun _ => rfl⟩
    simp only [openTree, hnew, hempty, bind, Except.bind, pure, Except.pure, Bool.false_eq_true,
      ↓reduceIte]

theorem advance_down (htables : tables.Inv env contracts history)
    (h : CalculatorInv env history tables c) (hphase : c.phase = .down) (sched : Schedule Row)
    (written : Bool) :
    Advances env contracts history tables written c
      (c.advance env contracts storage sched written tables) := by
  rcases openTree_spec hout hkeys hsep hregular hreads htables h sched written with
    ⟨tree, saved, n, hopen, htree, hpos, hn, hdone, hwritten⟩ | ⟨hpanic, hempty⟩
  · refine .inl ⟨(tables, { c with tree := tree, phase := .waiting n }), ?_, htables,
      .refl env history tables, htree.calculatorInv hn
        (fun k hk => hdone k (hk.trans_le htree.saved_le)) (.waiting htree hpos hn hdone),
      .opens hphase rfl fun h => htree.saved_eq.trans (hwritten h), rfl, rfl⟩
    simp only [MetadataCalculator.advance, hphase, hopen, htree.number, bind, Except.bind, pure,
      Except.pure]
  · refine .inr ⟨?_, hempty⟩
    simp only [MetadataCalculator.advance, hphase, hpanic, bind, Except.bind]

omit hreads in
/-- The next batch is processed; with an object store, its witness is completed. -/
theorem processWithStore_spec {saved number : ℕ} (htables : tables.Inv env contracts history)
    (htree : HeldTree env history saved number c.tree) (hpos : 0 < number)
    (hnumber : number < history.length)
    (horder : orderAt env history number = orderAt env history saved)
    (hleaves : ∀ k, k ∉ (history[number].treeOps env).map (fun op => treeKeyToU256 op.1) →
      leavesAt env history number k = leavesAt env history saved k)
    (hne : filterBlockLogs history[number].witnessLogs ≠ []) (sched : Schedule Row) :
    ∃ tree' witnesses, processWithStore env sched c.hasObjectStore tables.witnesses c.tree
        ⟨⟨number, true⟩, history[number].witnessLogs⟩ =
          .ok (batchReport env history number, tree', witnesses) ∧
      HeldTree env history saved (number + 1) tree' ∧
      let tables' := { tables with witnesses := witnesses }
      tables'.Inv env contracts history ∧ Grows env history history tables tables' ∧
        (c.hasObjectStore = true → tables'.Witnessed env history number) := by
  obtain ⟨witness, tree', hprocess, htree'⟩ :=
    htree.process hout hkeys hsep hregular hnumber horder hleaves hne sched
  cases hstore : c.hasObjectStore with
  | false =>
    refine ⟨tree', tables.witnesses, ?_, htree', htables, .refl env history tables, nofun⟩
    simp only [processWithStore, hprocess, bind, Except.bind, pure, Except.pure,
      Bool.false_eq_true, ↓reduceIte]
    rfl
  | true =>
    obtain ⟨job, hjob, htrace⟩ := htables.traces number hpos hnumber
    have hroot : h256ToTreeValue (treeKeyToH256 c.tree.rootHash) =
        h256ToTreeValue (stateRoot env history number) := by rw [htree.root, stateRoot]
    have hroot' : h256ToTreeValue (treeKeyToH256 tree'.rootHash) =
        h256ToTreeValue (stateRoot env history (number + 1)) := by rw [htree'.root, stateRoot]
    let job' : PrepareBasicCircuitsJob Trace Row := { job with
      storage := some witness
      preRootHash := some (h256ToTreeValue (stateRoot env history number))
      rootHash := some (h256ToTreeValue (stateRoot env history (number + 1))) }
    have hcomplete : IsComplete env history number job' := ⟨htrace, rfl, rfl, rfl⟩
    obtain ⟨hinv, hgrows, hwitnessed⟩ := htables.insertWitness hcomplete
    refine ⟨tree', tables.witnesses.insert number job', ?_, htree', hinv, hgrows,
      fun _ => hwitnessed⟩
    simp only [processWithStore, hprocess, hjob, hroot, hroot', orPanic_some, bind, Except.bind,
      pure, Except.pure, ↓reduceIte]
    rfl

theorem advance_iterating {number last : ℕ} {data : Option WitnessBlockWithLogs}
    {previousRootHash : H256} (htables : tables.Inv env contracts history)
    (h : CalculatorInv env history tables c)
    (hphase : c.phase = .iterating number last data previousRootHash)
    (hunaffected : MetadataSystem.Unaffected env history c) (sched : Schedule Row)
    (written : Bool) :
    Advances env contracts history tables written c
      (c.advance env contracts storage sched written tables) := by
  have hp := h.phase
  rw [hphase] at hp
  cases hp with
  | iterating htree hpos hle hlt hdone hdata =>
    obtain ⟨hnumber, rfl⟩ := hdata
    obtain ⟨horder, hleaves⟩ := hunaffected _ _ _ _ hphase
    by_cases hne : filterBlockLogs history[number].witnessLogs = []
    · refine .inr ⟨?_, _, List.getElem_mem hnumber, hne⟩
      simp only [MetadataCalculator.advance, hphase, processWithStore,
        htree.process_nil hne sched, bind, Except.bind]
    · obtain ⟨tree', witnesses, hstore, htree', hinv, hgrows, hwitnessed⟩ :=
        processWithStore_spec hout hkeys hsep hregular htables htree hpos hnumber horder
          hleaves hne sched
      -- the next batch is loaded only when it belongs to this iteration
      obtain ⟨nextData, hadvance, hinput⟩ : ∃ nextData,
          c.advance env contracts storage sched written tables =
            .ok ({ tables with witnesses := witnesses }, { c with
              tree := tree'
              phase := .processed number last (batchReport env history number) nextData
                (stateRoot env history number) }) ∧
          (number < last → IsInput history (number + 1) nextData) := by
        by_cases hmore : number < last
        · have hlt' : number + 1 < history.length := by omega
          refine ⟨some ⟨⟨number + 1, true⟩, history[number + 1].witnessLogs⟩, ?_,
            fun _ => ⟨hlt', rfl⟩⟩
          simp only [MetadataCalculator.advance, hphase, hstore, if_pos hmore,
            hreads.logs _ hlt', bind, Except.bind, Except.mapError, pure, Except.pure]
        · refine ⟨none, ?_, fun h => absurd h hmore⟩
          simp only [MetadataCalculator.advance, hphase, hstore, if_neg hmore, bind, Except.bind,
            pure, Except.pure]
      exact .inl ⟨_, hadvance, hinv, hgrows,
        htree'.calculatorInv hnumber (fun k hk => (h.done k hk).grows hgrows)
          (.processed htree' (Nat.lt_succ_of_le htree.saved_le) hpos hle hlt
            (fun k hk => (hdone k hk).grows hgrows) hinput hwitnessed),
        .processes hphase rfl (htree'.saved_eq.trans htree.saved_eq.symm), rfl, rfl⟩

/-- The next statement of a calculator, in any of its phases. -/
theorem advance_spec (htables : tables.Inv env contracts history)
    (h : CalculatorInv env history tables c)
    (hunaffected : MetadataSystem.Unaffected env history c) (sched : Schedule Row)
    (written : Bool) :
    Advances env contracts history tables written c
      (c.advance env contracts storage sched written tables) := by
  cases hphase : c.phase with
  | down =>
    exact advance_down hout hkeys hsep hregular hreads htables h hphase sched written
  | waiting => exact advance_waiting hreads htables h hphase sched written
  | iterating =>
    exact advance_iterating hout hkeys hsep hregular hreads htables h hphase hunaffected sched
      written
  | processed => exact advance_processed hreads htables h hphase sched written
  | stored => exact advance_stored htables h hphase sched written
  | finished => exact advance_finished htables h hphase sched written

end Trees

end Advance

end OlaOs
