import OlaOs.Dal.Pending
import OlaOs.Sequencer.BlockRows

/-! The batch that a restarted sequencer restores: its timestamps, and when they are those of the
newest miniblock. -/
namespace OlaOs

open TransactionsDal

namespace Sequencer

variable {σ T : Type} {env : SequencerEnv σ T} {s s' : BatchState σ}

theorem timestamp_reexecute {index : U32} {tx : Transaction} {loop : BatchState σ × U32}
    (h : reexecute env (s, index) tx = .ok loop) :
    loop.1.updates.batchTimestamp = s.updates.batchTimestamp ∧
      loop.1.updates.miniblock.timestamp = s.updates.miniblock.timestamp := by
  unfold reexecute at h
  obtain ⟨⟨execResult, executor⟩, -, h⟩ := Seq.bind_eq_ok.mp h
  cases execResult with
  | success txResult metrics dryRun =>
    obtain ⟨updates, hextend, h⟩ := Seq.bind_eq_ok.mp h
    cases h
    obtain ⟨hash, -, rfl⟩ := UpdatesManager.extendFromExecutedTransaction_eq_ok.mp hextend
    exact ⟨rfl, rfl⟩
  | rejectedByVm reason => cases h
  | bootloaderOutOfGasForTx => cases h
  | bootloaderOutOfGasForBlockTip => cases h

theorem timestamp_foldlM_reexecute {txs : List Transaction} {index : U32}
    {loop : BatchState σ × U32} (h : txs.foldlM (reexecute env) (s, index) = .ok loop) :
    loop.1.updates.batchTimestamp = s.updates.batchTimestamp ∧
      loop.1.updates.miniblock.timestamp = s.updates.miniblock.timestamp := by
  induction txs generalizing s index with
  | nil =>
    cases h
    exact ⟨rfl, rfl⟩
  | cons tx txs ih =>
    rw [List.foldlM_cons] at h
    obtain ⟨⟨s₁, index₁⟩, hone, hrest⟩ := Seq.bind_eq_ok.mp h
    obtain ⟨hbatch, hminiblock⟩ := timestamp_reexecute hone
    obtain ⟨hbatch', hminiblock'⟩ := ih hrest
    exact ⟨hbatch'.trans hbatch, hminiblock'.trans hminiblock⟩

/-- A transaction that is tried changes no timestamp. -/
theorem timestamp_processOneTx {tx : Transaction} {resolution : SealResolution}
    {execResult : TxExecutionResult T} {s₁ : BatchState σ}
    (hone : processOneTx env s tx = .ok ((resolution, execResult), s₁))
    (happly : applyResolution env s₁ tx execResult resolution = .ok s') :
    s'.updates.batchTimestamp = s.updates.batchTimestamp ∧
      s'.updates.miniblock.timestamp = s.updates.miniblock.timestamp := by
  obtain ⟨deduplicator, -, -, ⟨-, txResult, metrics, dryRun, -, hextend⟩ | ⟨-, heq⟩⟩ :=
    processOneTx_includes_cases hone happly
  · obtain ⟨hash, -, heq⟩ := UpdatesManager.extendFromExecutedTransaction_eq_ok.mp hextend
    rw [heq]
    exact ⟨rfl, rfl⟩
  · rw [heq]
    exact ⟨rfl, rfl⟩

/-- The open miniblock has the timestamp of the last one that was pushed. -/
theorem timestamp_reexecuteMiniblocks {first : Bool} {miniblocks : List MiniblockReexecuteData}
    {index : U32} {loop : BatchState σ × U32}
    (h : reexecuteMiniblocks env first miniblocks (s, index) = .ok loop) :
    loop.1.updates.batchTimestamp = s.updates.batchTimestamp ∧
      loop.1.updates.miniblock.timestamp =
        (((if first then miniblocks.tail else miniblocks).map
          MiniblockReexecuteData.timestamp).getLast?).getD s.updates.miniblock.timestamp := by
  induction miniblocks generalizing s index first with
  | nil =>
    cases h
    cases first <;> exact ⟨rfl, rfl⟩
  | cons miniblock miniblocks ih =>
    unfold reexecuteMiniblocks at h
    obtain ⟨⟨s₁, index₁⟩, hone, hrest⟩ := Seq.bind_eq_ok.mp h
    obtain ⟨hbatch, hminiblock⟩ := timestamp_foldlM_reexecute hone
    obtain ⟨hbatch', hminiblock'⟩ := ih hrest
    refine ⟨hbatch'.trans (hbatch.trans ?_), hminiblock'.trans ?_⟩
    · cases first <;> rfl
    · rw [hminiblock]
      cases first with
      | true => rfl
      | false =>
        simp only [Bool.false_eq_true, if_false, List.map_cons, List.getLast?_cons,
          Option.getD_some]
        rfl

end Sequencer

/-- The timestamps of the stored miniblocks are those of as many rows as there are groups. -/
theorem timestamps_getMiniblocksToReexecute {scan : List TransactionRow}
    {rows : List MiniblockHeaderRow} {miniblocks : List MiniblockReexecuteData} {first last : ℕ}
    {rest : List ℕ} (hnumbers : (pendingGroups scan).map groupNumber = first :: rest)
    (hlast : (first :: rest).getLast? = some last)
    (h : getMiniblocksToReexecute scan rows = .ok miniblocks) :
    miniblocks.map MiniblockReexecuteData.timestamp =
      (timestampsBetween rows first last).take (rest.length + 1) := by
  unfold getMiniblocksToReexecute at h
  obtain ⟨groups, hgroups, h⟩ := Seq.bind_eq_ok.mp h
  have hfst : groups.map Prod.fst = first :: rest := by
    rw [← hnumbers]
    refine Seq.map_of_mapM (fun group result hresult => ?_) hgroups
    obtain ⟨txs, -, hresult⟩ := Seq.bind_eq_ok.mp hresult
    cases hresult
    rfl
  have hlength : groups.length = rest.length + 1 := by
    have := congrArg List.length hfst
    simpa using this
  have hhead := congrArg List.head? hfst
  have hgetLast := congrArg List.getLast? hfst
  rw [List.head?_map] at hhead
  rw [List.getLast?_map, hlast] at hgetLast
  obtain ⟨firstGroup, hfirstGroup, hfirst⟩ := Option.map_eq_some_iff.mp hhead
  obtain ⟨lastGroup, hlastGroup, hlastNumber⟩ := Option.map_eq_some_iff.mp hgetLast
  rw [hfirstGroup, hlastGroup] at h
  cases h
  rw [List.map_zipWith, hfirst, hlastNumber, Seq.zipWith_right, hlength]

/-- The rows of a range that ends with the newest miniblock, in the order of the table. -/
theorem timestampsBetween_newest {rows : List MiniblockHeaderRow}
    (hnumbers : Numbered MiniblockHeaderRow.number rows) (first : ℕ) :
    timestampsBetween rows first (rows.length - 1) =
      (rows.drop first).map MiniblockHeaderRow.timestamp := by
  rw [timestampsBetween_eq hnumbers, List.take_of_length_le (by omega)]

/-- What the groups of pending rows say about the newest miniblock: a single group stands for it if
it is the only one stored, more groups do if they are the last miniblocks, without a gap. Without a
group the restart panics. -/
def restoresNewest : List ℕ → ℕ → ℕ → Bool
  | [], _, _ => true
  | [_], pendingMiniblockNumber, newest => pendingMiniblockNumber = newest
  | first :: rest, _, newest =>
    first :: rest = List.range' first (rest.length + 1) ∧ first + rest.length = newest

namespace RunState

variable {σ T : Type} {env : SequencerEnv σ T} {s s' : RunState σ T}

/-- A restart with a stored batch finds a transaction of the newest miniblock, and of every one
before it up to the first that it finds one of. -/
def restorable (s : RunState σ T) : RunAction σ → Bool
  | .start scan _ _ _ =>
    match s.newProcess with
    | .error _ => true
    | .ok p =>
      match s.pendingMiniblockHeader p.currentL1BatchNumber with
      | .ok (some header) => restoresNewest ((pendingGroups scan).map groupNumber) header.number
          s.tables.getSealedMiniblockNumber
      | .ok none | .error _ => true
  | _ => true

theorem restorable_start {scan : List TransactionRow} {previousBlockHash : U256} {executor : σ}
    {attempts : List (List ℕ)}
    (h : s.restorable (.start scan previousBlockHash executor attempts) = true)
    {p : SequencerProcess σ T} (hp : s.newProcess = .ok p) {header : MiniblockHeaderRow}
    (hheader : s.pendingMiniblockHeader p.currentL1BatchNumber = .ok (some header)) :
    restoresNewest ((pendingGroups scan).map groupNumber) header.number
      s.tables.getSealedMiniblockNumber = true := by
  unfold restorable at h
  rw [hp] at h
  dsimp only at h
  rw [hheader] at h
  exact h

theorem groupNumber_lt {scan : List TransactionRow} (hrange : ∀ row ∈ scan, row.InRange)
    {number : ℕ}
    (h : number ∈ (pendingGroups scan).map groupNumber) : number < 2 ^ 31 := by
  obtain ⟨group, hgroup, rfl⟩ := List.mem_map.mp h
  unfold groupNumber asU32
  cases hhead : group.head? with
  | none => decide
  | some row =>
    have hrow : row ∈ scan := by
      have hflatten : row ∈ (pendingGroups scan).flatten :=
        List.mem_flatten.mpr ⟨group, hgroup, List.mem_of_head? hhead⟩
      unfold pendingGroups at hflatten
      rw [List.flatten_splitBy] at hflatten
      exact List.mem_of_mem_filter ((List.mem_insertionSort _).mp hflatten)
    rw [Option.bind_some]
    cases hnumber : row.miniblockNumber with
    | none => decide
    | some number =>
      obtain ⟨hnonneg, hlt⟩ := hrange row hrow number hnumber
      rw [Option.getD_some]
      omega

/-- A restored batch: the first of its stored miniblocks gave its parameters, and the open miniblock
has the timestamp of the newest one. -/
theorem restored_timestamp (hchain : Chain s.tables)
    (hrange : ∀ row ∈ s.tables.transactions, row.InRange) {scan : List TransactionRow}
    (hscan : scan.Perm s.tables.transactions) {p : SequencerProcess σ T}
    (hp : s.newProcess = .ok p) {header : MiniblockHeaderRow}
    (hheader : s.pendingMiniblockHeader p.currentL1BatchNumber = .ok (some header))
    (hrestores : restoresNewest ((pendingGroups scan).map groupNumber) header.number
      s.tables.getSealedMiniblockNumber = true) {miniblocks : List MiniblockReexecuteData}
    (hminiblocks : getMiniblocksToReexecute scan s.tables.miniblocks = .ok miniblocks)
    (hnonempty : miniblocks ≠ []) {params : L1BatchParams} {executor : σ} {batch : BatchState σ}
    {index : U32} (htimestamp : params.blockTimestamp = header.timestamp)
    (hbatch : Sequencer.reexecuteMiniblocks env true miniblocks
      (newBatchState params executor, 0) = .ok (batch, index)) :
    s.tables.pendingMiniblocks.head? = some header ∧
      batch.updates.batchTimestamp = params.blockTimestamp ∧
      s.tables.miniblocks.getLast?.map MiniblockHeaderRow.timestamp =
        some batch.updates.miniblock.timestamp := by
  have hrow := pendingMiniblockHeader_eq hchain hp hheader
  have hlength := hchain.length_eq
  have hlengthLe := hchain.length_le
  have hsealedPos := hchain.sealed_pos
  have hnumber : header.number = s.tables.sealedMiniblocks.length % 2 ^ 32 :=
    hchain.numbers.number_eq hrow.symm
  rw [hchain.getSealedMiniblockNumber] at hrestores
  obtain ⟨hbatchTimestamp, hminiblock⟩ := Sequencer.timestamp_reexecuteMiniblocks hbatch
  have hsmall : ∀ number ∈ (pendingGroups scan).map groupNumber, number < 2 ^ 31 := fun number h =>
    groupNumber_lt (fun row hrow => hrange row (hscan.mem_iff.mp hrow)) h
  -- the miniblock after the sealed ones exists, since its number has not wrapped
  have hhead (hlt : s.tables.sealedMiniblocks.length < 2 ^ 32) :
      s.tables.pendingMiniblocks.head? = some header := by
    rw [Nat.mod_eq_of_lt hlt, hchain.split, List.getElem?_append_right (le_refl _), Nat.sub_self,
      ← List.head?_eq_getElem?] at hrow
    exact hrow.symm
  cases hnumbers : (pendingGroups scan).map groupNumber with
  | nil =>
    have hgroups : pendingGroups scan = [] := List.map_eq_nil_iff.mp hnumbers
    unfold getMiniblocksToReexecute at hminiblocks
    rw [hgroups] at hminiblocks
    cases hminiblocks
    exact absurd rfl hnonempty
  | cons first rest =>
    rw [hnumbers] at hrestores hsmall
    obtain ⟨last, hlast⟩ : ∃ last, (first :: rest).getLast? = some last :=
      ⟨_, List.getLast?_eq_some_getLast (List.cons_ne_nil _ _)⟩
    have htimestamps := timestamps_getMiniblocksToReexecute hnumbers hlast hminiblocks
    cases rest with
    | nil =>
      have hnewest : header.number = s.tables.miniblocks.length - 1 := of_decide_eq_true hrestores
      have hlt : s.tables.sealedMiniblocks.length < 2 ^ 32 := by omega
      refine ⟨hhead hlt, hbatchTimestamp, ?_⟩
      have htail : miniblocks.tail = [] := by
        refine List.eq_nil_of_length_eq_zero ?_
        have := congrArg List.length htimestamps
        rw [List.length_map, List.length_take, List.length_nil] at this
        rw [List.length_tail]
        omega
      simp only [if_true, htail, List.map_nil, List.getLast?_nil, Option.getD_none] at hminiblock
      rw [hminiblock, List.getLast?_eq_getElem?, ← hnewest, hnumber, ← hrow]
      exact congrArg some htimestamp.symm
    | cons second rest =>
      obtain ⟨hconsecutive, hnewest⟩ :
          first :: second :: rest = List.range' first (rest.length + 2) ∧
            first + (rest.length + 1) = s.tables.miniblocks.length - 1 :=
        of_decide_eq_true hrestores
      have hlastEq : last = s.tables.miniblocks.length - 1 := by
        rw [hconsecutive, List.getLast?_range'] at hlast
        simp at hlast
        omega
      have hlastLt := hsmall last (List.mem_of_getLast? hlast)
      refine ⟨hhead (by omega), hbatchTimestamp, ?_⟩
      rw [hlastEq, timestampsBetween_newest hchain.numbers, List.take_of_length_le (by
        rw [List.length_map, List.length_drop, List.length_cons]
        omega)] at htimestamps
      have htail : miniblocks.tail.map MiniblockReexecuteData.timestamp =
          (s.tables.miniblocks.drop (first + 1)).map MiniblockHeaderRow.timestamp := by
        rw [List.map_tail, htimestamps, ← List.map_tail, List.tail_drop]
      rw [if_pos rfl, htail, List.getLast?_map, List.getLast?_drop, if_neg (by omega)] at hminiblock
      obtain ⟨newest, hgetLast⟩ : ∃ newest, s.tables.miniblocks.getLast? = some newest :=
        ⟨_, List.getLast?_eq_some_getLast (List.ne_nil_of_length_pos (by omega))⟩
      rw [hgetLast] at hminiblock ⊢
      exact congrArg some hminiblock.symm

end RunState

end OlaOs
