import OlaOs.Lib.Numbered
import OlaOs.Sequencer.RunRows

/-! The rows of miniblocks and batches: the sealed ones first, then those of the open batch, and
what a restarted sequencer finds in them. -/
namespace OlaOs

theorem asI32_injOn {m n : ℕ} (hm : m < 2 ^ 32) (hn : n < 2 ^ 32) (h : asI32 m = asI32 n) :
    m = n := by
  unfold asI32 at h
  have hmod := congrArg (· % ((2 ^ 32 : ℕ) : ℤ)) h
  simp only [Int.bmod_emod] at hmod
  rw [Int.emod_eq_of_lt (by omega) (by exact_mod_cast hm),
    Int.emod_eq_of_lt (by omega) (by exact_mod_cast hn)] at hmod
  exact_mod_cast hmod

/-- A number that survives the cast. -/
theorem asI32_eq_natCast {m n : ℕ} (hm : m < 2 ^ 32) (hn : n < 2 ^ 32) (h : asI32 m = n) :
    m = n := by
  refine asI32_injOn hm hn (h.trans (asI32_of_lt ?_).symm)
  have hlt := asI32_lt m
  omega

theorem predU32_succU32 {n : ℕ} (h : n < 2 ^ 32) : predU32 (succU32 n) = n := by
  unfold predU32 succU32
  omega

/-- The miniblocks of sealed batches. -/
def SequencerTables.sealedMiniblocks (t : SequencerTables) : List MiniblockHeaderRow :=
  t.miniblocks.filter fun row => row.l1BatchNumber.isSome

/-- The stored miniblocks of the open batch. -/
def SequencerTables.pendingMiniblocks (t : SequencerTables) : List MiniblockHeaderRow :=
  t.miniblocks.filter fun row => row.l1BatchNumber.isNone

/-- The rows of miniblocks and batches are numbered, and the miniblocks of sealed batches come
first. -/
structure Chain (t : SequencerTables) : Prop where
  split : t.miniblocks = t.sealedMiniblocks ++ t.pendingMiniblocks
  numbers : Numbered MiniblockHeaderRow.number t.miniblocks
  batchNumbers : Numbered L1BatchRow.number t.l1Batches
  length_le : t.miniblocks.length ≤ 2 ^ 32
  batches_le : t.l1Batches.length ≤ 2 ^ 32
  batches_pos : 0 < t.l1Batches.length
  sealed_last : ∃ last ∈ t.sealedMiniblocks.getLast?,
    last.l1BatchNumber = some (asI32 (t.l1Batches.length - 1))
  sealed_batch : ∀ row ∈ t.sealedMiniblocks,
    ∃ n < t.l1Batches.length, row.l1BatchNumber = some (asI32 n)

namespace SequencerTables

variable {t t' : SequencerTables}

theorem pending_none {row : MiniblockHeaderRow} (h : row ∈ t.pendingMiniblocks) :
    row.l1BatchNumber = none :=
  Option.isNone_iff_eq_none.mp (List.mem_filter.mp h).2

/-- A miniblock without a batch is added. -/
theorem sealedMiniblocks_append {row : MiniblockHeaderRow} (hnone : row.l1BatchNumber = none)
    (h : t'.miniblocks = t.miniblocks ++ [row]) : t'.sealedMiniblocks = t.sealedMiniblocks := by
  unfold sealedMiniblocks
  rw [h, List.filter_append, List.filter_singleton, hnone]
  exact List.append_nil _

theorem pendingMiniblocks_append {row : MiniblockHeaderRow} (hnone : row.l1BatchNumber = none)
    (h : t'.miniblocks = t.miniblocks ++ [row]) :
    t'.pendingMiniblocks = t.pendingMiniblocks ++ [row] := by
  unfold pendingMiniblocks
  rw [h, List.filter_append, List.filter_singleton, hnone]
  rfl

/-- All miniblocks belong to a batch after one is sealed. -/
theorem sealedMiniblocks_markBatch {rows : List MiniblockHeaderRow} {batchNumber : ℕ}
    (h : t.miniblocks = rows.map (·.markBatch batchNumber)) :
    t.sealedMiniblocks = t.miniblocks := by
  refine List.filter_eq_self.mpr fun row hrow => ?_
  rw [h] at hrow
  obtain ⟨row, -, rfl⟩ := List.mem_map.mp hrow
  unfold MiniblockHeaderRow.markBatch
  rw [Option.isSome_or, Option.isSome_some, Bool.or_true]

theorem pendingMiniblocks_markBatch {rows : List MiniblockHeaderRow} {batchNumber : ℕ}
    (h : t.miniblocks = rows.map (·.markBatch batchNumber)) : t.pendingMiniblocks = [] := by
  have hall := sealedMiniblocks_markBatch h
  refine List.filter_eq_nil_iff.mpr fun row hrow hnone => ?_
  rw [← hall] at hrow
  have hsome := (List.mem_filter.mp hrow).2
  rw [Option.isNone_iff_eq_none.mp hnone] at hsome
  cases hsome

end SequencerTables

namespace Chain

variable {t t' : SequencerTables}

theorem sealed_pos (h : Chain t) : 0 < t.sealedMiniblocks.length := by
  obtain ⟨last, hlast, -⟩ := h.sealed_last
  exact List.length_pos_of_mem (List.mem_of_getLast? hlast)

theorem length_eq (h : Chain t) :
    t.miniblocks.length = t.sealedMiniblocks.length + t.pendingMiniblocks.length := by
  rw [← List.length_append, ← h.split]

theorem congr (h : Chain t) (hminiblocks : t'.miniblocks = t.miniblocks)
    (hbatches : t'.l1Batches = t.l1Batches) : Chain t' := by
  obtain ⟨miniblocks, l1Batches, transactions⟩ := t
  obtain ⟨miniblocks', l1Batches', transactions'⟩ := t'
  subst hminiblocks hbatches
  exact ⟨h.split, h.numbers, h.batchNumbers, h.length_le, h.batches_le, h.batches_pos,
    h.sealed_last, h.sealed_batch⟩

/-- `MempoolIO::new` reads the next numbers. -/
theorem getNewestL1BatchNumber (h : Chain t) :
    t.getNewestL1BatchNumber = some (t.l1Batches.length - 1) :=
  h.batchNumbers.max?_eq h.batches_pos

theorem getSealedMiniblockNumber (h : Chain t) :
    t.getSealedMiniblockNumber = t.miniblocks.length - 1 := by
  unfold SequencerTables.getSealedMiniblockNumber
  rw [h.numbers.max?_eq (by have := h.length_eq; have := h.sealed_pos; omega)]
  rfl

/-- The last miniblock of the last batch, if the number of the batch survived its cast. -/
theorem lastMiniblockOfL1Batch (h : Chain t) {last : ℕ}
    (hlast : t.lastMiniblockOfL1Batch (t.l1Batches.length - 1) = some last) :
    last = t.sealedMiniblocks.length - 1 := by
  unfold SequencerTables.lastMiniblockOfL1Batch at hlast
  obtain ⟨hmem, hmax⟩ := List.max?_eq_some_iff.mp hlast
  have hpos := h.sealed_pos
  have hbatches := h.batches_le
  have hbatchesPos := h.batches_pos
  have hnumber {k : ℕ} {row : MiniblockHeaderRow} (hk : t.sealedMiniblocks[k]? = some row) :
      row.number = k := by
    refine h.numbers.number_eq ?_
    rw [h.split, List.getElem?_append_left (List.getElem?_eq_some_iff.mp hk).1]
    exact hk
  -- a row of the batch is sealed, so its number is that of a sealed row
  obtain ⟨row, hrow, rfl⟩ := List.mem_map.mp hmem
  obtain ⟨hrow, hbatch⟩ := List.mem_filter.mp hrow
  rw [decide_eq_true_eq] at hbatch
  have hsealed : row ∈ t.sealedMiniblocks := List.mem_filter.mpr ⟨hrow, by rw [hbatch]; rfl⟩
  obtain ⟨k, hk⟩ := List.mem_iff_getElem?.mp hsealed
  have hklt := (List.getElem?_eq_some_iff.mp hk).1
  have hrowNumber := hnumber hk
  -- the last sealed row belongs to the batch too
  obtain ⟨lastRow, hlastRow, hlastBatch⟩ := h.sealed_last
  have hlastNumber : lastRow.number = t.sealedMiniblocks.length - 1 := by
    refine hnumber ?_
    rw [← List.getLast?_eq_getElem?]
    exact hlastRow
  obtain ⟨n, hn, hrowBatch⟩ := h.sealed_batch row hsealed
  have hn' : n = t.l1Batches.length - 1 := by
    refine asI32_eq_natCast (by omega) (by omega) ?_
    exact Option.some.inj (hrowBatch.symm.trans hbatch)
  have hlastMem : lastRow ∈ t.miniblocks :=
    List.mem_of_mem_filter (List.mem_of_getLast? hlastRow)
  have hle := hmax lastRow.number (List.mem_map_of_mem (List.mem_filter.mpr ⟨hlastMem, by
    rw [decide_eq_true_eq, hlastBatch, ← hn', ← hrowBatch, hbatch, hn']⟩))
  omega

theorem getMiniblockHeader (h : Chain t) (number : ℕ) :
    t.getMiniblockHeader number = t.miniblocks[number]? :=
  h.numbers.find?_eq number

/-- A miniblock of the queue is stored. -/
theorem insertMiniblock (h : Chain t) {row : MiniblockHeaderRow}
    (hnumber : row.number = t.miniblocks.length % 2 ^ 32) (hnone : row.l1BatchNumber = none)
    (hrun : t.insertMiniblock row = .ok t') :
    Chain t' ∧ t'.miniblocks = t.miniblocks ++ [row] ∧ t'.l1Batches = t.l1Batches := by
  unfold SequencerTables.insertMiniblock at hrun
  split_ifs at hrun with htaken
  cases hrun
  have hlt : t.miniblocks.length < 2 ^ 32 := by
    refine h.numbers.length_lt_of_free (by decide) h.length_le fun other hother heq => htaken ?_
    exact List.any_eq_true.mpr ⟨other, hother, decide_eq_true (heq.trans hnumber.symm)⟩
  rw [Nat.mod_eq_of_lt hlt] at hnumber
  refine ⟨⟨?_, h.numbers.append hnumber, h.batchNumbers, ?_, h.batches_le, h.batches_pos, ?_, ?_⟩,
    rfl, rfl⟩
  · rw [SequencerTables.sealedMiniblocks_append hnone rfl,
      SequencerTables.pendingMiniblocks_append hnone rfl, ← List.append_assoc, ← h.split]
  · rw [List.length_append]
    exact hlt
  · rw [SequencerTables.sealedMiniblocks_append hnone rfl]
    exact h.sealed_last
  · rw [SequencerTables.sealedMiniblocks_append hnone rfl]
    exact h.sealed_batch

/-- The miniblocks that get a batch are those of the open one. -/
theorem map_markBatch (h : Chain t) {fictive : MiniblockHeaderRow}
    (hnone : fictive.l1BatchNumber = none) (batchNumber : ℕ) :
    (t.miniblocks ++ [fictive]).map (·.markBatch batchNumber) = t.sealedMiniblocks ++
      (t.pendingMiniblocks ++ [fictive]).map fun row =>
        { row with l1BatchNumber := some (asI32 batchNumber) } := by
  have hsealed : t.sealedMiniblocks.map (·.markBatch batchNumber) = t.sealedMiniblocks := by
    refine (List.map_congr_left fun row hrow => ?_).trans (List.map_id _)
    obtain ⟨n, -, hn⟩ := h.sealed_batch row hrow
    unfold MiniblockHeaderRow.markBatch
    rw [hn, Option.some_or, ← hn]
    rfl
  conv_lhs => rw [h.split]
  rw [List.append_assoc, List.map_append, hsealed]
  refine congrArg (t.sealedMiniblocks ++ ·) (List.map_congr_left fun row hrow => ?_)
  have hrowNone : row.l1BatchNumber = none := by
    rcases List.mem_append.mp hrow with hrow | hrow
    · exact SequencerTables.pending_none hrow
    · cases List.mem_singleton.mp hrow
      exact hnone
  unfold MiniblockHeaderRow.markBatch
  rw [hrowNone, Option.none_or]

/-- A batch is sealed: all stored miniblocks of the open batch and the fictive one get its
number. -/
theorem insertBatch (h : Chain t) {batchNumber : ℕ} {fictive : MiniblockHeaderRow}
    {timestamp : U64} (hnumber : fictive.number = t.miniblocks.length % 2 ^ 32)
    (hnone : fictive.l1BatchNumber = none)
    (hbatchNumber : batchNumber = t.l1Batches.length % 2 ^ 32)
    (hfree : ∀ row ∈ t.miniblocks, row.number ≠ fictive.number)
    (hbatchFree : ∀ row ∈ t.l1Batches, row.number ≠ batchNumber)
    (hminiblocks : t'.miniblocks = (t.miniblocks ++ [fictive]).map (·.markBatch batchNumber))
    (hbatches : t'.l1Batches = t.l1Batches ++ [⟨batchNumber, timestamp⟩]) :
    Chain t' ∧ batchNumber = t.l1Batches.length ∧ t.l1Batches.length < 2 ^ 32 := by
  rw [hnumber] at hfree
  rw [hbatchNumber] at hbatchFree
  have hlt := h.numbers.length_lt_of_free (by decide) h.length_le hfree
  have hbatchLt := h.batchNumbers.length_lt_of_free (by decide) h.batches_le hbatchFree
  rw [Nat.mod_eq_of_lt hlt] at hnumber
  rw [Nat.mod_eq_of_lt hbatchLt] at hbatchNumber
  have hsealed := SequencerTables.sealedMiniblocks_markBatch hminiblocks
  have hrows := hminiblocks.trans (h.map_markBatch hnone batchNumber)
  have hlength : t'.l1Batches.length = t.l1Batches.length + 1 := by
    rw [hbatches, List.length_append, List.length_singleton]
  refine ⟨⟨?_, ?_, ?_, ?_, ?_, ?_, ?_, ?_⟩, hbatchNumber, hbatchLt⟩
  · rw [hsealed, SequencerTables.pendingMiniblocks_markBatch hminiblocks, List.append_nil]
  · rw [hminiblocks]
    exact (h.numbers.append hnumber).map fun _ => rfl
  · rw [hbatches]
    exact h.batchNumbers.append hbatchNumber
  · rw [hminiblocks, List.length_map, List.length_append]
    exact hlt
  · rw [hlength]
    exact hbatchLt
  · omega
  · rw [hsealed, hrows, hlength, hbatchNumber]
    simp [List.getLast?_append]
  · rw [hsealed, hrows, hlength, hbatchNumber]
    intro row hrow
    rcases List.mem_append.mp hrow with hrow | hrow
    · obtain ⟨n, hn, hbatch⟩ := h.sealed_batch row hrow
      exact ⟨n, Nat.lt_add_right _ hn, hbatch⟩
    · obtain ⟨row, -, rfl⟩ := List.mem_map.mp hrow
      exact ⟨t.l1Batches.length, Nat.lt_succ_self _, rfl⟩

end Chain

namespace RunState

variable {σ T : Type} {env : SequencerEnv σ T} {s s' : RunState σ T} {p : SequencerProcess σ T}

/-- The numbers of a new process. -/
theorem newProcess_eq (h : Chain s.tables) (hp : s.newProcess = .ok p) :
    p = {
      currentL1BatchNumber := s.tables.l1Batches.length % 2 ^ 32
      currentMiniblockNumber := s.tables.miniblocks.length % 2 ^ 32
      commands := []
      phase := .waiting none } := by
  unfold newProcess at hp
  rw [h.getNewestL1BatchNumber, h.getSealedMiniblockNumber] at hp
  have hbatches := h.batches_pos
  have hminiblocks := h.length_eq
  have hsealed := h.sealed_pos
  cases hp
  unfold succU32
  congr 2
  · omega
  · omega

/-- The header that `load_pending_batch` reads is that of the miniblock after the sealed ones. -/
theorem pendingMiniblockHeader_eq (h : Chain s.tables) (hp : s.newProcess = .ok p)
    {header : Option MiniblockHeaderRow}
    (hheader : s.pendingMiniblockHeader p.currentL1BatchNumber = .ok header) :
    header = s.tables.miniblocks[s.tables.sealedMiniblocks.length % 2 ^ 32]? := by
  have hbatches := h.batches_pos
  have hbatchesLe := h.batches_le
  have hsealed := h.sealed_pos
  unfold newProcess at hp
  rw [h.getNewestL1BatchNumber] at hp
  cases hp
  unfold pendingMiniblockHeader at hheader
  dsimp only at hheader
  rw [predU32_succU32 (by omega)] at hheader
  split at hheader
  · cases hheader
  · rename_i last hlast
    cases hheader
    rw [h.lastMiniblockOfL1Batch hlast, h.getMiniblockHeader]
    unfold succU32
    rw [show s.tables.sealedMiniblocks.length - 1 + 1 = s.tables.sealedMiniblocks.length by omega]

/-- No miniblock after the sealed ones is stored when `load_pending_batch` finds none. -/
theorem pendingMiniblocks_eq_nil (h : Chain s.tables) (hp : s.newProcess = .ok p)
    (hheader : s.pendingMiniblockHeader p.currentL1BatchNumber = .ok none) :
    s.tables.pendingMiniblocks = [] := by
  have hnone := pendingMiniblockHeader_eq h hp hheader
  have hlength := h.length_eq
  have hle := h.length_le
  refine List.eq_nil_of_length_eq_zero ?_
  have hge := List.getElem?_eq_none_iff.mp hnone.symm
  omega

/-- The next numbers that a process knows. -/
structure Counted (t : SequencerTables) (p : SequencerProcess σ T) : Prop where
  l1BatchNumber : p.currentL1BatchNumber = t.l1Batches.length % 2 ^ 32
  miniblockNumber :
    p.currentMiniblockNumber = (t.miniblocks.length + p.commands.length) % 2 ^ 32
  commandNumbers : p.commands.map Submission.miniblockNumber =
    (List.range' t.miniblocks.length p.commands.length).map (· % 2 ^ 32)
  waiting : ∀ version, p.phase = .waiting version → t.pendingMiniblocks = [] ∧ p.commands = []

/-- The rows of blocks in a state of a run. -/
structure BlocksInv (s : RunState σ T) : Prop where
  chain : Chain s.tables
  stored : s.stored = none ↔ s.tables.pendingMiniblocks = []
  process : ∀ p, s.process = some p → Counted s.tables p

theorem blocksInv_initial (h : s.Initial) : BlocksInv s := by
  obtain ⟨version, hminiblocks⟩ := h.miniblocks
  have hl1Batches := h.l1Batches
  have hprocess := h.process
  have hstored := h.stored
  obtain ⟨⟨miniblocks, l1Batches, transactions⟩, process, panic, stored⟩ := s
  dsimp only at hminiblocks hl1Batches hprocess hstored
  subst hminiblocks hl1Batches hprocess hstored
  have hzero : (some 0 : Option ℤ) = some (asI32 0) := rfl
  refine ⟨⟨rfl, rfl, rfl, Nat.one_le_two_pow, Nat.one_le_two_pow, Nat.one_pos, ⟨_, rfl, hzero⟩,
    fun row hrow => ?_⟩, iff_of_true rfl rfl, nofun⟩
  cases List.mem_singleton.mp hrow
  exact ⟨0, Nat.one_pos, hzero⟩

theorem Counted.atPhase {t : SequencerTables} (h : Counted t p) {phase : Phase σ T}
    (hwaiting : ∀ version, phase = .waiting version → t.pendingMiniblocks = [] ∧ p.commands = []) :
    Counted t { p with phase := phase } :=
  ⟨h.l1BatchNumber, h.miniblockNumber, h.commandNumbers, hwaiting⟩

theorem Counted.sealMiniblock {t : SequencerTables} (h : Counted t p) (updates : UpdatesManager)
    {phase : Phase σ T} (hwaiting : ∀ version, phase ≠ .waiting version) :
    Counted t { p.sealMiniblock updates with phase := phase } where
  l1BatchNumber := h.l1BatchNumber
  miniblockNumber := by
    simp only [SequencerProcess.sealMiniblock, List.length_append, List.length_singleton,
      h.miniblockNumber, succU32]
    omega
  commandNumbers := by
    simp only [SequencerProcess.sealMiniblock, List.map_append, h.commandNumbers,
      List.length_append, List.length_singleton, List.range'_concat, h.miniblockNumber,
      List.map_cons, List.map_nil, one_mul]
  waiting version hversion := absurd hversion (hwaiting version)

theorem BlocksInv.atPhase (h : BlocksInv s) {phase : Phase σ T}
    (hcounted : Counted s.tables { p with phase := phase }) : BlocksInv (s.atPhase p phase) := by
  refine ⟨h.chain, h.stored, fun p' hp' => ?_⟩
  cases hp'
  exact hcounted

theorem BlocksInv.newProcess (h : BlocksInv s) (hp : s.newProcess = .ok p) {phase : Phase σ T}
    (hwaiting : ∀ version, phase = .waiting version → s.tables.pendingMiniblocks = []) :
    BlocksInv (s.atPhase p phase) := by
  obtain rfl := newProcess_eq h.chain hp
  exact h.atPhase ⟨rfl, rfl, rfl, fun version hversion => ⟨hwaiting version hversion, rfl⟩⟩

/-- The first miniblock of the queue is stored. -/
theorem BlocksInv.insertMiniblock (h : BlocksInv s) (hp : s.process = some p)
    {submission : Submission} {commands : List Submission}
    (hcommands : p.commands = submission :: commands) {tables : SequencerTables}
    (hinsert : s.tables.insertMiniblock submission.command.header = .ok tables) :
    Chain tables ∧ tables.miniblocks = s.tables.miniblocks ++ [submission.command.header] ∧
      tables.l1Batches = s.tables.l1Batches := by
  have hnumbers := (h.process p hp).commandNumbers
  rw [hcommands] at hnumbers
  exact h.chain.insertMiniblock (List.cons.inj hnumbers).1 rfl hinsert

/-- The batch in `seal_l1_batch` is stored with its fictive miniblock. -/
theorem BlocksInv.insertBatch (h : BlocksInv s) (hp : s.process = some p)
    (hcommands : p.commands = []) {params : L1BatchParams} {updates : UpdatesManager}
    {prevTimestamp : U64} {tables : SequencerTables}
    (htables : s.insertBatch p params updates prevTimestamp = .ok tables) :
    Chain tables ∧ p.currentL1BatchNumber = s.tables.l1Batches.length ∧
      s.tables.l1Batches.length < 2 ^ 32 := by
  have hcounted := h.process p hp
  have hminiblock := hcounted.miniblockNumber
  rw [hcommands] at hminiblock
  obtain ⟨-, hfree, hbatchFree, rfl⟩ := insertBatch_eq_ok htables
  exact h.chain.insertBatch hminiblock rfl hcounted.l1BatchNumber hfree hbatchFree rfl rfl

theorem BlocksInv.moved (h : BlocksInv s) {action : RunAction σ} (hmoved : Moved env s action s') :
    BlocksInv s' := by
  cases hmoved with
  | started hp hheader =>
    exact h.newProcess hp fun _ _ => pendingMiniblocks_eq_nil h.chain hp hheader
  | @restored _ _ _ _ _ _ _ _ _ _ newTimestamp _ hp =>
    cases newTimestamp with
    | none => exact h.newProcess hp nofun
    | some newTimestamp => exact h.newProcess hp nofun
  | newBatch hp => exact h.atPhase ((h.process _ hp).atPhase nofun)
  | deadlinePassed hp => exact h.atPhase ((h.process _ hp).atPhase nofun)
  | unchanged => exact h
  | @sealedMiniblock _ _ _ _ _ _ newTimestamp hp =>
    cases newTimestamp with
    | none => exact h.atPhase ((h.process _ hp).sealMiniblock _ nofun)
    | some newTimestamp => exact h.atPhase ((h.process _ hp).sealMiniblock _ nofun)
  | @tried _ p _ _ _ _ resolution _ hp =>
    refine ⟨h.chain.congr rfl rfl, h.stored, fun p' hp' => ?_⟩
    cases hp'
    obtain ⟨hl1, hminiblock, hcommands, -⟩ := h.process p hp
    refine ⟨hl1, hminiblock, hcommands, fun version hversion => ?_⟩
    cases hseal : resolution.shouldSeal with
    | true =>
      rw [hseal] at hversion
      cases hversion
    | false =>
      rw [hseal] at hversion
      cases hversion
  | finished hp => exact h.atPhase ((h.process _ hp).atPhase nofun)
  | finishedMiniblock hp => exact h.atPhase ((h.process _ hp).sealMiniblock _ nofun)
  | stoppedFinishing hp => exact h.atPhase ((h.process _ hp).sealMiniblock _ nofun)
  | @sealedBatch p _ _ _ tables hp _ hcommands _ htables =>
    obtain ⟨hchain, hbatch, hlt⟩ := h.insertBatch hp hcommands htables
    have hminiblock := (h.process p hp).miniblockNumber
    obtain ⟨-, -, -, heq⟩ := insertBatch_eq_ok htables
    have hrows := congrArg SequencerTables.miniblocks heq
    have hbatches := congrArg SequencerTables.l1Batches heq
    have hpending := SequencerTables.pendingMiniblocks_markBatch hrows
    refine ⟨hchain, iff_of_true rfl hpending, fun p' hp' => ?_⟩
    cases hp'
    refine ⟨?_, ?_, rfl, fun _ _ => ⟨hpending, rfl⟩⟩
    · show succU32 p.currentL1BatchNumber = _
      rw [hbatch, hbatches, List.length_append, List.length_singleton]
      rfl
    · show succU32 p.currentMiniblockNumber = _
      rw [hminiblock, hcommands, hrows, List.length_map, List.length_append,
        List.length_singleton]
      unfold succU32
      simp
  | @wroteMiniblock p submission commands tables _ hp hcommands hinsert _ =>
    obtain ⟨hchain, hrows, hbatches⟩ := h.insertMiniblock hp hcommands hinsert
    obtain ⟨hl1, hminiblock, hnumbers, hwaiting⟩ := h.process p hp
    rw [hcommands] at hminiblock hnumbers
    have hpending := SequencerTables.pendingMiniblocks_append rfl hrows
    refine ⟨hchain.congr rfl rfl, iff_of_false nofun fun hnil => ?_, fun p' hp' => ?_⟩
    · have hnil : tables.pendingMiniblocks = [] := hnil
      rw [hpending] at hnil
      exact List.append_ne_nil_of_right_ne_nil _ (List.cons_ne_nil _ _) hnil
    · cases hp'
      refine ⟨?_, ?_, ?_, fun version hversion => ?_⟩
      · rw [hl1, hbatches]
      · rw [hminiblock, hrows, List.length_cons, List.length_append, List.length_singleton,
          Nat.add_assoc, Nat.add_comm 1]
      · rw [hrows, List.length_append, List.length_singleton]
        exact (List.cons.inj hnumbers).2
      · rw [(hwaiting version hversion).2] at hcommands
        cases hcommands
  | stopped _ hp => exact h.atPhase ((h.process _ hp).atPhase nofun)
  | crashed => exact ⟨h.chain, h.stored, nofun⟩
  | statement =>
    refine ⟨h.chain.congr rfl rfl, h.stored, fun p hp => ?_⟩
    obtain ⟨hl1, hminiblock, hcommands, hwaiting⟩ := h.process p hp
    exact ⟨hl1, hminiblock, hcommands, hwaiting⟩

theorem BlocksInv.step (h : BlocksInv s) {action : RunAction σ}
    (hstep : s.step env action = some s') : BlocksInv s' :=
  step_invariant BlocksInv h.moved (fun _ _ => ⟨h.chain, h.stored, fun _ hp => nomatch hp⟩) hstep

end RunState

end OlaOs
