import OlaOs.Prover.WitnessGenerator

/-! What holds of the witness inputs and their generators in every interleaving. -/
namespace OlaOs

open FriWitnessGeneratorDal FriProtocolVersionsDal

/-- What becomes of a row: its input stays, a batch in progress is not picked again, and an ended
one does not change any more. -/
structure WitnessInputRow.Advances (row row' : WitnessInputRow) : Prop where
  number_eq : row'.l1BatchNumber = row.l1BatchNumber
  url_eq : row'.merkleTreePathsBlobUrl = row.merkleTreePathsBlobUrl
  version_eq : row'.protocolVersion = row.protocolVersion
  picked : row.status ≠ .queued →
    row'.status ≠ .queued ∧ row'.attempts = row.attempts ∧ row'.pickedBy = row.pickedBy
  final : row.status.isFinal = true → row' = row

theorem WitnessInputRow.Advances.refl (row : WitnessInputRow) : row.Advances row :=
  ⟨rfl, rfl, rfl, fun h => ⟨h, rfl, rfl⟩, fun _ => rfl⟩

theorem WitnessInputRow.Advances.trans {row row' row'' : WitnessInputRow} (h : row.Advances row')
    (h' : row'.Advances row'') : row.Advances row'' where
  number_eq := h'.number_eq.trans h.number_eq
  url_eq := h'.url_eq.trans h.url_eq
  version_eq := h'.version_eq.trans h.version_eq
  picked hstatus := by
    obtain ⟨hstatus', hattempts, hpicked⟩ := h.picked hstatus
    obtain ⟨hstatus'', hattempts', hpicked'⟩ := h'.picked hstatus'
    exact ⟨hstatus'', hattempts'.trans hattempts, hpicked'.trans hpicked⟩
  final hfinal := by
    obtain rfl := h.final hfinal
    exact h'.final hfinal

namespace BasicWitnessGenerator

/-- The row was picked by a generator with these settings. -/
structure PickedWith (config : FriWitnessGeneratorConfig)
    (protocolVersions : List FriProtocolVersionId) (podName : String) (row : WitnessInputRow) :
    Prop where
  attempts_eq : row.attempts = 1
  pickedBy_eq : row.pickedBy = some podName
  le_lastBatch : row.l1BatchNumber ≤ config.lastBatch
  version_mem : ∃ version ∈ protocolVersions, row.protocolVersion = some version
  not_queued : row.status ≠ .queued
  skips : row.status = .skipped → ∃ threshold < 100, config.skips threshold row.l1BatchNumber = true

abbrev Owns (w : BasicWitnessGenerator) (row : WitnessInputRow) : Prop :=
  PickedWith w.config w.protocolVersions w.podName row

/-- The status of a job that is not reported on. -/
def taskStatus : Option WitnessTaskResult → FriWitnessJobStatus
  | some .skipped => .skipped
  | _ => .inProgress

/-- Facts about one generator and the rows that it was handed. -/
structure Inv (table : List WitnessInputRow) (w : BasicWitnessGenerator) : Prop where
  nodup : w.taken.Nodup
  taken : w.run.Taken w.batchSize w.taken.length
  backsOff : w.run.BacksOff
  owned : ∀ n ∈ w.taken, ∃ row, rowOf table n = some row ∧ w.Owns row ∧
    (w.pending ≠ some n → row.status.isFinal = true)
  pending_mem : ∀ n, w.pending = some n → n ∈ w.taken ∧ ∃ result row, w.task = some (n, result) ∧
    rowOf table n = some row ∧ row.status = taskStatus result
  idle : w.pending = none → ∀ n, w.task ≠ some (n, none)

variable {table table' : List WitnessInputRow} {w w' : BasicWitnessGenerator}

/-- Only the rows that the generator was handed matter. -/
theorem Inv.of_rows (h : Inv table w) (hrows : ∀ n ∈ w.taken, rowOf table' n = rowOf table n) :
    Inv table' w where
  nodup := h.nodup
  taken := h.taken
  backsOff := h.backsOff
  owned n hn := by
    rw [hrows n hn]
    exact h.owned n hn
  pending_mem n hn := by
    obtain ⟨hmem, hrest⟩ := h.pending_mem n hn
    rw [hrows n hmem]
    exact ⟨hmem, hrest⟩
  idle := h.idle

theorem inv_start (config : FriWitnessGeneratorConfig) (versions : List FriProtocolVersionId)
    (podName : String) (batchSize : Option ℕ) :
    Inv table (start config versions podName batchSize) where
  nodup := List.nodup_nil
  taken := JobRun.taken_start batchSize
  backsOff := JobRun.backsOff_start batchSize
  owned := nofun
  pending_mem := nofun
  idle _ := nofun

/-- What an update that ends a job keeps. -/
structure Ends (f : WitnessInputRow → WitnessInputRow) (row : WitnessInputRow) : Prop where
  number_eq : ∀ row, (f row).l1BatchNumber = row.l1BatchNumber
  url_eq : (f row).merkleTreePathsBlobUrl = row.merkleTreePathsBlobUrl
  version_eq : (f row).protocolVersion = row.protocolVersion
  attempts_eq : (f row).attempts = row.attempts
  pickedBy_eq : (f row).pickedBy = row.pickedBy
  isFinal : (f row).status.isFinal = true

/-- All that a step of a generator does to the table: it picks a batch, or ends one of its own, or
nothing. -/
inductive Effect (table : List WitnessInputRow) (w w' : BasicWitnessGenerator) :
    List WitnessInputRow → Prop where
  | none : w'.taken = w.taken → Effect table w w' table
  | pick (n : ℕ) (row : WitnessInputRow) : rowOf table n = some row →
      isPickable w.config.lastBatch w.protocolVersions row = true → w'.taken = w.taken ++ [n] →
      Effect table w w' (updateRow table n (pickRow w.podName))
  | finish (n : ℕ) (row : WitnessInputRow) (f : WitnessInputRow → WitnessInputRow) :
      n ∈ w.taken → w'.taken = w.taken → rowOf table n = some row → row.status = .inProgress →
      Ends f row → Effect table w w' (updateRow table n f)

theorem Effect.keyed (h : Effect table w w' table') (hkeyed : Keyed table) : Keyed table' := by
  cases h with
  | none htaken => exact hkeyed
  | pick n row hrow hpick htaken => exact hkeyed.updateRow (f := pickRow w.podName) (fun _ => rfl) n
  | finish n row f hmem htaken hrow hstatus hf => exact hkeyed.updateRow hf.number_eq n

theorem Effect.taken (h : Effect table w w' table') : w.taken ⊆ w'.taken ∧
    ∀ m ∈ w'.taken, m ∈ w.taken ∨ ∃ row, rowOf table m = some row ∧ row.status = .queued := by
  cases h with
  | none htaken => exact ⟨htaken ▸ List.Subset.refl _, fun m hm => .inl (htaken ▸ hm)⟩
  | pick n row hrow hpick htaken =>
    rw [htaken]
    refine ⟨List.subset_append_left _ _, fun m hm => ?_⟩
    rcases List.mem_append.mp hm with hm | hm
    · exact .inl hm
    · obtain rfl := List.mem_singleton.mp hm
      simp only [isPickable, Bool.and_eq_true, decide_eq_true_eq] at hpick
      exact .inr ⟨row, hrow, hpick.1.2⟩
  | finish n row f hmem htaken hrow hstatus hf =>
    exact ⟨htaken ▸ List.Subset.refl _, fun m hm => .inl (htaken ▸ hm)⟩

/-- The rows that a step changes are the generator's own. -/
theorem Effect.row (h : Effect table w w' table') (m : ℕ) : rowOf table' m = rowOf table m ∨
    ∃ row row', rowOf table m = some row ∧ rowOf table' m = some row' ∧ row.Advances row' ∧
      row'.status ≠ .queued ∧ m ∈ w'.taken := by
  cases h with
  | none htaken => exact .inl rfl
  | pick n row hrow hpick htaken =>
    by_cases hne : m = n
    · subst hne
      simp only [isPickable, Bool.and_eq_true, decide_eq_true_eq] at hpick
      refine .inr ⟨row, pickRow w.podName row, hrow, ?_, ⟨rfl, rfl, rfl, ?_, ?_⟩, nofun, ?_⟩
      · rw [rowOf_updateRow (f := pickRow w.podName) (fun _ => rfl), if_pos rfl, hrow,
          Option.map_some]
      · exact fun hstatus => absurd hpick.1.2 hstatus
      · intro hfinal
        rw [hpick.1.2] at hfinal
        cases hfinal
      · rw [htaken]
        exact List.mem_append_right _ (List.mem_singleton.mpr rfl)
    · left
      rw [rowOf_updateRow (f := pickRow w.podName) (fun _ => rfl), if_neg hne]
  | finish n row f hmem htaken hrow hstatus hf =>
    by_cases hne : m = n
    · subst hne
      have hended : (f row).status ≠ .queued := by
        intro hqueued
        have hfinal := hf.isFinal
        rw [hqueued] at hfinal
        cases hfinal
      refine .inr ⟨row, f row, hrow, ?_, ⟨hf.number_eq row, hf.url_eq, hf.version_eq, ?_, ?_⟩,
        hended, htaken ▸ hmem⟩
      · rw [rowOf_updateRow hf.number_eq, if_pos rfl, hrow, Option.map_some]
      · exact fun _ => ⟨hended, hf.attempts_eq, hf.pickedBy_eq⟩
      · intro hfinal
        rw [hstatus] at hfinal
        cases hfinal
    · left
      rw [rowOf_updateRow hf.number_eq, if_neg hne]

theorem pending_of_polling (h : w.run.phase = .polling) : w.pending = none := by
  simp [pending, h]

/-- With nothing pending, all batches of the generator have ended. -/
theorem Inv.final (h : Inv table w) (hpending : w.pending = none) {n : ℕ} (hn : n ∈ w.taken) :
    ∃ row, rowOf table n = some row ∧ w.Owns row ∧ row.status.isFinal = true := by
  obtain ⟨row, hrow, howns, hfinal⟩ := h.owned n hn
  exact ⟨row, hrow, howns, hfinal (by simp [hpending])⟩

/-- A queued batch was not handed to the generator. -/
theorem Inv.notMem_of_queued (h : Inv table w) {n : ℕ} {row : WitnessInputRow}
    (hrow : rowOf table n = some row) (hqueued : row.status = .queued) : n ∉ w.taken := by
  intro hn
  obtain ⟨row', hrow', howns, -⟩ := h.owned n hn
  obtain rfl : row = row' := Option.some.inj (hrow.symm.trans hrow')
  exact howns.not_queued hqueued

/-- A job that the loop takes. -/
theorem Inv.pick (h : Inv table w) (hphase : w.run.phase = .polling) {n : ℕ}
    {row : WitnessInputRow} (hrow : rowOf table n = some row)
    (hpick : isPickable w.config.lastBatch w.protocolVersions row = true) {run : JobRun ℕ}
    (hphase' : run.phase = .attempts n) (htaken : run.Taken w.batchSize (w.taken.length + 1))
    (hbacks : run.BacksOff) (hattempts : row.attempts = 0) :
    Inv (updateRow table n (pickRow w.podName))
      { w with run := run, task := some (n, none), taken := w.taken ++ [n] } := by
  simp only [isPickable, Bool.and_eq_true, decide_eq_true_eq, Option.any_eq_true] at hpick
  obtain ⟨⟨hle, hqueued⟩, version, hversion, hmem⟩ := hpick
  have hnew := h.notMem_of_queued hrow hqueued
  have hsame : rowOf (updateRow table n (pickRow w.podName)) n = some (pickRow w.podName row) := by
    rw [rowOf_updateRow (f := pickRow w.podName) (fun _ => rfl), if_pos rfl, hrow,
      Option.map_some]
  have hpending : ({ w with run := run, task := some (n, none), taken := w.taken ++ [n] } :
      BasicWitnessGenerator).pending = some n := by
    simp [pending, hphase']
  refine ⟨?_, ?_, hbacks, ?_, ?_, ?_⟩
  · exact List.nodup_append.mpr ⟨h.nodup, List.nodup_singleton n, fun m hm m' hm' heq =>
      hnew (List.mem_singleton.mp hm' ▸ heq ▸ hm)⟩
  · rw [List.length_append]
    exact htaken
  · intro m hm
    rcases List.mem_append.mp hm with hm | hm
    · have hne : m ≠ n := fun heq => hnew (heq ▸ hm)
      obtain ⟨row', hrow', howns, hfinal⟩ := h.final (pending_of_polling hphase) hm
      refine ⟨row', ?_, howns, fun _ => hfinal⟩
      rw [rowOf_updateRow (f := pickRow w.podName) (fun _ => rfl), if_neg hne, hrow']
    · obtain rfl := List.mem_singleton.mp hm
      refine ⟨_, hsame, ⟨?_, rfl, hle, ⟨version, hmem, hversion⟩, nofun, nofun⟩, ?_⟩
      · simp [pickRow, hattempts]
      · exact fun hne => absurd hpending hne
  · intro m hm
    rw [hpending] at hm
    obtain rfl := Option.some.inj hm
    exact ⟨List.mem_append_right _ (List.mem_singleton.mpr rfl), none, _, rfl, hsame, rfl⟩
  · intro hnone
    rw [hpending] at hnone
    cases hnone

/-- The end of the job under way. -/
theorem Inv.finish (h : Inv table w) {n : ℕ} {row : WitnessInputRow} (hmem : n ∈ w.taken)
    (hpending : w.pending = some n) (hrow : rowOf table n = some row)
    {f : WitnessInputRow → WitnessInputRow} (hf : Ends f row)
    (hskips : (f row).status = .skipped →
      ∃ threshold < 100, w.config.skips threshold row.l1BatchNumber = true)
    {run : JobRun ℕ} (htaken : run.Taken w.batchSize w.taken.length) (hbacks : run.BacksOff)
    {result : WitnessTaskResult} (hend : ({ w with run := run, task := some (n, some result) } :
      BasicWitnessGenerator).pending = none ∨ (result = .skipped ∧ (f row).status = .skipped ∧
        ({ w with run := run, task := some (n, some result) } : BasicWitnessGenerator).pending =
          some n)) :
    Inv (updateRow table n f) { w with run := run, task := some (n, some result) } := by
  have hsame : rowOf (updateRow table n f) n = some (f row) := by
    rw [rowOf_updateRow hf.number_eq, if_pos rfl, hrow, Option.map_some]
  refine ⟨h.nodup, htaken, hbacks, ?_, ?_, ?_⟩
  · intro m hm
    by_cases hne : m = n
    · subst hne
      refine ⟨f row, hsame, ?_, fun _ => hf.isFinal⟩
      obtain ⟨row', hrow', howns, -⟩ := h.owned m hm
      obtain rfl : row = row' := Option.some.inj (hrow.symm.trans hrow')
      refine ⟨?_, ?_, ?_, ?_, ?_, ?_⟩
      · rw [hf.attempts_eq, howns.attempts_eq]
      · rw [hf.pickedBy_eq, howns.pickedBy_eq]
      · rw [hf.number_eq]
        exact howns.le_lastBatch
      · rw [hf.version_eq]
        exact howns.version_mem
      · intro hqueued
        have hfinal := hf.isFinal
        rw [hqueued] at hfinal
        cases hfinal
      · rw [hf.number_eq]
        exact hskips
    · obtain ⟨row', hrow', howns, hfinal⟩ := h.owned m hm
      refine ⟨row', ?_, howns, fun _ => hfinal ?_⟩
      · rw [rowOf_updateRow hf.number_eq, if_neg hne, hrow']
      · rw [hpending]
        exact fun heq => hne (Option.some.inj heq).symm
  · intro m hm
    rcases hend with hnone | ⟨rfl, hstatus, hsome⟩
    · rw [hnone] at hm
      cases hm
    · rw [hsome] at hm
      obtain rfl := Option.some.inj hm
      exact ⟨hmem, _, _, rfl, hsame, hstatus⟩
  · rintro - m hm
    cases hm

/-- A step of the loop between two reports leaves the rows alone. -/
theorem Inv.keep (h : Inv table w) {run : JobRun ℕ} {task : Option (ℕ × Option WitnessTaskResult)}
    (htaken : run.Taken w.batchSize w.taken.length) (hbacks : run.BacksOff)
    (hpending : ({ w with run := run, task := task } : BasicWitnessGenerator).pending = w.pending)
    (htask : ∀ n result, w.pending = some n → w.task = some (n, result) →
      ∃ result', task = some (n, result') ∧ taskStatus result' = taskStatus result)
    (hidle : w.pending = none → task = w.task) : Inv table { w with run := run, task := task } where
  nodup := h.nodup
  taken := htaken
  backsOff := hbacks
  owned n hn := by
    rw [hpending]
    exact h.owned n hn
  pending_mem n hn := by
    rw [hpending] at hn
    obtain ⟨hmem, result, row, heq, hrow, hstatus⟩ := h.pending_mem n hn
    obtain ⟨result', htask, hsame⟩ := htask n result hn heq
    exact ⟨hmem, result', row, htask, hrow, hstatus.trans hsame.symm⟩
  idle hnone := by
    rw [hpending] at hnone
    show ∀ n, task ≠ some (n, none)
    rw [hidle hnone]
    exact h.idle hnone

theorem Inv.flags (h : Inv table w) (stopped exited : Bool) :
    Inv table { w with stopped := stopped, exited := exited } :=
  ⟨h.nodup, h.taken, h.backsOff, h.owned, h.pending_mem, h.idle⟩

theorem poll_spec (h : Inv table w) (hkeyed : Keyed table)
    (hfresh : ∀ n row, rowOf table n = some row → row.status = .queued → row.attempts = 0)
    {blobs : KeyedMap String (List UInt8)}
    (hblobs : ∀ n row, rowOf table n = some row → (blobs.lookup (prepareWitnessKey n)).isSome)
    {locked : List ℕ} (hpoll : w.poll table blobs locked = some (w', table')) :
    Effect table w w' table' ∧ Inv table' w' := by
  unfold poll at hpoll
  split at hpoll
  case h_2 => cases hpoll
  rename_i hphase
  have hpending := pending_of_polling hphase
  split_ifs at hpoll with hleave
  · cases hpoll
    exact ⟨.none rfl, h.keep h.taken h.backsOff hpending.symm
      (fun n _ hn => by simp [hpending] at hn) fun _ => rfl⟩
  · have hcontinues : w.run.continues = true := by
      simp only [Bool.or_eq_true, not_or, Bool.not_eq_true] at hleave
      simpa using hleave.1
    unfold getNextBasicCircuitWitnessJob at hpoll
    cases hnext : nextBatch table w.config.lastBatch w.protocolVersions locked with
    | none =>
      simp only [hnext, Option.some.injEq, Prod.mk.injEq] at hpoll
      obtain ⟨rfl, rfl⟩ := hpoll
      refine ⟨.none rfl, h.keep h.taken.poll_none (h.backsOff.poll _) ?_
        (fun n _ hn => by simp [hpending] at hn) fun _ => rfl⟩
      unfold JobRun.poll
      split_ifs
      · simp [pending, hphase]
      · simp [pending, hphase]
    | some n =>
      obtain ⟨⟨row, hrow, hpick⟩, -⟩ := nextBatch_eq_some hkeyed hnext
      simp only [hnext, hblobs n row hrow, if_true, Option.some.injEq, Prod.mk.injEq] at hpoll
      obtain ⟨rfl, rfl⟩ := hpoll
      have hqueued : row.status = .queued := by
        simp only [isPickable, Bool.and_eq_true, decide_eq_true_eq] at hpick
        exact hpick.1.2
      exact ⟨.pick n row hrow hpick rfl, h.pick hphase hrow hpick rfl
        (h.taken.poll_some hcontinues n) (h.backsOff.poll _) (hfresh n row hrow hqueued)⟩

theorem pending_task {n : ℕ} {result : Option WitnessTaskResult} (h : w.task = some (n, result))
    (result' : Option WitnessTaskResult) :
    ({ w with task := some (n, result') } : BasicWitnessGenerator).pending = w.pending := by
  unfold pending
  cases hphase : w.run.phase with
  | polling => rfl
  | attempts m => rfl
  | waiting m => rfl
  | returned result =>
    cases result with
    | error e => simp [h]
    | ok _ => rfl

/-- A running task belongs to the batch that is pending. -/
theorem Inv.pending_of_running (h : Inv table w) {n : ℕ} (htask : w.task = some (n, none)) :
    w.pending = some n ∧ n ∈ w.taken ∧
      ∃ row, rowOf table n = some row ∧ row.status = .inProgress := by
  have hpending : w.pending = some n := by
    cases hpending : w.pending with
    | none => exact absurd htask (h.idle hpending n)
    | some m =>
      obtain ⟨-, result, row, heq, -⟩ := h.pending_mem m hpending
      rw [htask] at heq
      cases heq
      rfl
  obtain ⟨hmem, result, row, heq, hrow, hstatus⟩ := h.pending_mem n hpending
  rw [htask] at heq
  cases heq
  exact ⟨hpending, hmem, row, hrow, hstatus⟩

theorem processJobImpl_spec (h : Inv table w) {threshold : ℕ} {outcome : Except String Unit}
    (hstep : w.processJobImpl table threshold outcome = some (w', table')) :
    Effect table w w' table' ∧ Inv table' w' := by
  unfold processJobImpl at hstep
  split at hstep
  case h_2 => cases hstep
  rename_i n htask
  split_ifs at hstep with hdrawn hskip
  · cases hstep
    obtain ⟨hpending, hmem, row, hrow, hstatus⟩ := h.pending_of_running htask
    have hf : Ends (fun row => { row with status := .skipped }) row :=
      ⟨fun _ => rfl, rfl, rfl, rfl, rfl, rfl⟩
    refine ⟨.finish n row _ hmem rfl hrow hstatus hf, ?_⟩
    refine h.finish hmem hpending hrow hf ?_ h.taken h.backsOff
      (.inr ⟨rfl, rfl, (pending_task htask _).trans hpending⟩)
    rw [number_of_rowOf hrow]
    exact fun _ => ⟨threshold, hdrawn.2, hskip⟩
  · have hkeep (result : WitnessTaskResult) (hresult : result ≠ .skipped) :
        Inv table { w with task := some (n, some result) } := by
      refine h.keep h.taken h.backsOff (pending_task htask _) ?_ ?_
      · intro m result' hm heq
        rw [htask] at heq
        cases heq
        refine ⟨some result, rfl, ?_⟩
        cases result with
        | skipped => exact absurd rfl hresult
        | artifacts => rfl
        | panicked error => rfl
      · intro hnone
        exact absurd htask (h.idle hnone n)
    cases outcome with
    | ok _ =>
      cases hstep
      exact ⟨.none rfl, hkeep .artifacts nofun⟩
    | error error =>
      cases hstep
      exact ⟨.none rfl, hkeep (.panicked error) nofun⟩

theorem getJobAttempts_spec (h : Inv table w) {failure : Option String}
    (hstep : w.getJobAttempts table failure = some (w', table')) :
    Effect table w w' table' ∧ Inv table' w' := by
  unfold getJobAttempts at hstep
  split at hstep
  case h_2 => cases hstep
  rename_i n hphase
  have hpending : w.pending = some n := by simp [pending, hphase]
  obtain ⟨-, result, row, htask, -⟩ := h.pending_mem n hpending
  cases hstep
  refine ⟨.none rfl, h.keep ?_ ?_ ?_ (fun m result hm heq => ⟨result, heq, rfl⟩) fun _ => rfl⟩
  · cases failure <;> exact h.taken
  · cases failure <;> exact h.backsOff
  · cases failure with
    | none => exact hpending.symm
    | some e => simp [pending, JobRun.getJobAttempts, htask, hphase]

theorem waitForTask_spec (h : Inv table w)
    (hstep : w.waitForTask table = some (w', table')) :
    Effect table w w' table' ∧ Inv table' w' := by
  unfold waitForTask at hstep
  split at hstep
  case h_2 => cases hstep
  rename_i n m result hphase htask
  have hpending : w.pending = some n := by simp [pending, hphase]
  obtain ⟨hmem, result', row, heq, hrow, hstatus⟩ := h.pending_mem n hpending
  rw [htask] at heq
  cases heq
  have hsaved : ({ w with run := w.run.jobSaved (.ok ()) } : BasicWitnessGenerator) =
      { w with run := w.run.jobSaved (.ok ()), task := some (n, some result) } := by
    rw [← htask]
  have htaken : (w.run.jobSaved (.ok ())).Taken w.batchSize w.taken.length := h.taken
  have hbacks : (w.run.jobSaved (.ok ())).BacksOff := h.backsOff
  cases result with
  | skipped =>
    cases hstep
    refine ⟨.none rfl, h.nodup, htaken, hbacks, ?_, nofun, ?_⟩
    · intro m hm
      obtain ⟨row', hrow', howns, hfinal⟩ := h.owned m hm
      refine ⟨row', hrow', howns, fun _ => ?_⟩
      by_cases hne : m = n
      · subst hne
        obtain rfl : row = row' := Option.some.inj (hrow.symm.trans hrow')
        rw [hstatus]
        rfl
      · rw [hpending] at hfinal
        exact hfinal fun heq => hne (Option.some.inj heq).symm
    · rintro - m hm
      rw [htask] at hm
      cases hm
  | artifacts =>
    simp only at hstep
    split_ifs at hstep
    · cases hstep
      have hf : Ends (fun row => { row with status := .successful }) row :=
        ⟨fun _ => rfl, rfl, rfl, rfl, rfl, rfl⟩
      rw [hsaved]
      exact ⟨.finish n row _ hmem rfl hrow hstatus hf,
        h.finish hmem hpending hrow hf nofun htaken hbacks (.inl rfl)⟩
    · cases hstep
      exact ⟨.none rfl, h.flags w.stopped true⟩
  | panicked error =>
    cases hstep
    have hf : Ends (fun row => { row with status := .failed, error := some error }) row :=
      ⟨fun _ => rfl, rfl, rfl, rfl, rfl, rfl⟩
    rw [hsaved]
    exact ⟨.finish n row _ hmem rfl hrow hstatus hf,
      h.finish hmem hpending hrow hf nofun htaken hbacks (.inl rfl)⟩

end BasicWitnessGenerator

namespace WitnessSystem

open BasicWitnessGenerator

section Inputs

variable (blobs : KeyedMap String (List UInt8)) (versions : List FriProtocolVersionId)

/-- What a call of `save_proof_gen_data` has saved. -/
def Saved : ProofGenerationData × SaveStage → Prop
  | (_, .received) => True
  | (data, .blobSaved) => (blobs.lookup (prepareWitnessKey data.l1BatchNumber)).isSome = true
  | (data, .versionSaved) => (blobs.lookup (prepareWitnessKey data.l1BatchNumber)).isSome = true ∧
    data.friProtocolVersionId ∈ versions

/-- The row has its input and its version. -/
structure HasInput (row : WitnessInputRow) : Prop where
  url_eq : row.merkleTreePathsBlobUrl = prepareWitnessKey row.l1BatchNumber
  blob : (blobs.lookup row.merkleTreePathsBlobUrl).isSome = true
  version : ∃ version ∈ versions, row.protocolVersion = some version

end Inputs

/-- Facts of every run. -/
structure Inv (s : WitnessSystem) : Prop where
  keyed : Keyed s.table
  workers : ∀ w ∈ s.workers, w.Inv s.table
  disjoint : ∀ (i j : ℕ) (w w' : BasicWitnessGenerator), s.workers[i]? = some w →
    s.workers[j]? = some w' → i ≠ j → ∀ n ∈ w.taken, n ∉ w'.taken
  queued : ∀ n row, rowOf s.table n = some row → row.status = .queued → row.attempts = 0
  picked : ∀ n row, rowOf s.table n = some row → row.status ≠ .queued →
    ∃ w ∈ s.workers, n ∈ w.taken
  inputs : ∀ n row, rowOf s.table n = some row → HasInput s.blobs s.versions row
  saves : ∀ entry ∈ s.saves, Saved s.blobs s.versions entry

variable {s s' : WitnessSystem}

theorem inv_stepWorker (h : s.Inv) {i : ℕ} {w w' : BasicWitnessGenerator}
    {table' : List WitnessInputRow} (hi : s.workers[i]? = some w)
    (heffect : Effect s.table w w' table') (hw' : w'.Inv table') :
    Inv { s with workers := s.workers.set i w', table := table' } := by
  obtain ⟨hsubset, hnew⟩ := heffect.taken
  have hlt : i < s.workers.length := (List.getElem?_eq_some_iff.mp hi).1
  -- another generator was handed none of these batches
  have hother : ∀ j v, s.workers[j]? = some v → i ≠ j → ∀ m ∈ w'.taken, m ∉ v.taken := by
    intro j v hj hne m hm
    rcases hnew m hm with hm | ⟨row, hrow, hqueued⟩
    · exact h.disjoint i j w v hi hj hne m hm
    · exact (h.workers v (List.mem_of_getElem? hj)).notMem_of_queued hrow hqueued
  have hget : ∀ j v, (s.workers.set i w')[j]? = some v →
      (j = i ∧ v = w') ∨ (i ≠ j ∧ s.workers[j]? = some v) := by
    intro j v hj
    by_cases hne : i = j
    · subst hne
      rw [List.getElem?_set_self hlt] at hj
      exact .inl ⟨rfl, (Option.some.inj hj).symm⟩
    · rw [List.getElem?_set_ne hne] at hj
      exact .inr ⟨hne, hj⟩
  refine ⟨heffect.keyed h.keyed, ?_, ?_, ?_, ?_, ?_, h.saves⟩
  · intro v hv
    obtain ⟨j, hj⟩ := List.getElem?_of_mem hv
    rcases hget j v hj with ⟨-, rfl⟩ | ⟨hne, hj⟩
    · exact hw'
    · refine (h.workers v (List.mem_of_getElem? hj)).of_rows fun m hm => ?_
      rcases heffect.row m with hsame | ⟨row, row', -, -, -, -, hmem⟩
      · exact hsame
      · exact absurd hm (hother j v hj hne m hmem)
  · intro j k v v' hj hk hne m hm
    rcases hget j v hj with ⟨rfl, rfl⟩ | ⟨hij, hold⟩
    · rcases hget k v' hk with ⟨rfl, -⟩ | ⟨hik, hold'⟩
      · exact absurd rfl hne
      · exact hother k v' hold' hik m hm
    · rcases hget k v' hk with ⟨rfl, rfl⟩ | ⟨hik, hold'⟩
      · exact fun hm' => hother j v hold hij m hm' hm
      · exact h.disjoint j k v v' hold hold' hne m hm
  · intro n row hrow hqueued
    rcases heffect.row n with hsame | ⟨-, row', -, hrow', -, hstatus, -⟩
    · exact h.queued n row (hsame ▸ hrow) hqueued
    · obtain rfl := Option.some.inj (hrow.symm.trans hrow')
      exact absurd hqueued hstatus
  · intro n row hrow hstatus
    rcases heffect.row n with hsame | ⟨-, row', -, -, -, -, hmem⟩
    · obtain ⟨v, hv, hn⟩ := h.picked n row (hsame ▸ hrow) hstatus
      obtain ⟨j, hj⟩ := List.getElem?_of_mem hv
      by_cases hne : i = j
      · subst hne
        obtain rfl := Option.some.inj (hi.symm.trans hj)
        exact ⟨w', List.mem_set hlt w', hsubset hn⟩
      · exact ⟨v, List.mem_of_getElem? ((List.getElem?_set_ne hne).trans hj), hn⟩
    · exact ⟨w', List.mem_set hlt w', hmem⟩
  · intro n row hrow
    rcases heffect.row n with hsame | ⟨old, row', hold, hrow', hadv, -, -⟩
    · exact h.inputs n row (hsame ▸ hrow)
    · obtain rfl := Option.some.inj (hrow.symm.trans hrow')
      obtain ⟨hurl, hblob, hversion⟩ := h.inputs n old hold
      refine ⟨?_, ?_, ?_⟩
      · rw [hadv.url_eq, hadv.number_eq, hurl]
      · rw [hadv.url_eq]
        exact hblob
      · rw [hadv.version_eq]
        exact hversion

/-- All that a step can do. -/
theorem step_cases (h : s.Inv) {a : WitnessAction} (hstep : s.step a = some s') :
    (∃ i w w' table', s.workers[i]? = some w ∧ Effect s.table w w' table' ∧ w'.Inv table' ∧
      s' = { s with workers := s.workers.set i w', table := table' }) ∨
    (∃ config podName batchSize, s' = { s with
      workers := s.workers ++ [.start config s.versions podName batchSize] }) ∨
    (∃ saves, (∀ entry ∈ saves, Saved s.blobs s.versions entry) ∧ s' = { s with saves := saves }) ∨
    (∃ i data, s.saves[i]? = some (data, .received) ∧ s' = { s with
      blobs := s.blobs.insert (prepareWitnessKey data.l1BatchNumber) data.data
      saves := s.saves.set i (data, .blobSaved) }) ∨
    (∃ i data, s.saves[i]? = some (data, .blobSaved) ∧ s' = { s with
      versions := saveProverProtocolVersion s.versions data.friProtocolVersionId
      saves := s.saves.set i (data, .versionSaved) }) ∨
    (∃ i data, s.saves[i]? = some (data, .versionSaved) ∧ s' = { s with
      table := saveWitnessInputs s.table data.l1BatchNumber (prepareWitnessKey data.l1BatchNumber)
        data.friProtocolVersionId
      saves := s.saves.eraseIdx i }) := by
  have hworker : ∀ i (f : BasicWitnessGenerator →
      Option (BasicWitnessGenerator × List WitnessInputRow)), s.stepWorker i f = some s' →
      (∀ w w' table', w.Inv s.table → f w = some (w', table') →
        Effect s.table w w' table' ∧ w'.Inv table') →
      ∃ i w w' table', s.workers[i]? = some w ∧ Effect s.table w w' table' ∧ w'.Inv table' ∧
        s' = { s with workers := s.workers.set i w', table := table' } := by
    intro i f hf hspec
    obtain ⟨next, hnext, rfl⟩ := Option.map_eq_some_iff.mp hf
    obtain ⟨w, hw, hrun⟩ := Option.bind_eq_some_iff.mp hnext
    split_ifs at hrun
    obtain ⟨heffect, hinv⟩ := hspec w _ _ (h.workers w (List.mem_of_getElem? hw)) hrun
    exact ⟨i, w, _, _, hw, heffect, hinv, rfl⟩
  cases a with
  | handleResponse data =>
    cases hstep
    refine .inr (.inr (.inl ⟨_, ?_, rfl⟩))
    intro entry hentry
    rcases List.mem_append.mp hentry with hentry | hentry
    · exact h.saves entry hentry
    · rw [List.mem_singleton.mp hentry]
      trivial
  | saveProofGenData i =>
    simp only [step, saveProofGenData] at hstep
    split at hstep
    · rename_i data hget
      exact .inr (.inr (.inr (.inl ⟨i, data, hget, (Option.some.inj hstep).symm⟩)))
    · rename_i data hget
      exact .inr (.inr (.inr (.inr (.inl ⟨i, data, hget, (Option.some.inj hstep).symm⟩))))
    · rename_i data hget
      rw [if_pos (h.saves _ (List.mem_of_getElem? hget)).2] at hstep
      exact .inr (.inr (.inr (.inr (.inr ⟨i, data, hget, (Option.some.inj hstep).symm⟩))))
    · cases hstep
  | gatewayExits i =>
    cases hstep
    exact .inr (.inr (.inl ⟨_, fun entry hentry =>
      h.saves entry (List.mem_of_mem_eraseIdx hentry), rfl⟩))
  | start config podName batchSize =>
    simp only [step] at hstep
    split_ifs at hstep
    exact .inr (.inl ⟨config, podName, batchSize, (Option.some.inj hstep).symm⟩)
  | stop i =>
    refine .inl (hworker i _ hstep fun w w' table' hinv hf => ?_)
    cases hf
    exact ⟨.none rfl, hinv.flags true w.exited⟩
  | exit i =>
    refine .inl (hworker i _ hstep fun w w' table' hinv hf => ?_)
    cases hf
    exact ⟨.none rfl, hinv.flags w.stopped true⟩
  | poll i locked =>
    refine .inl (hworker i _ hstep fun w w' table' hinv hf => ?_)
    refine poll_spec hinv h.keyed h.queued (fun n row hrow => ?_) hf
    obtain ⟨hurl, hblob, -⟩ := h.inputs n row hrow
    rwa [hurl, number_of_rowOf hrow] at hblob
  | processJobImpl i threshold result =>
    exact .inl (hworker i _ hstep fun w w' table' hinv hf => processJobImpl_spec hinv hf)
  | getJobAttempts i failure =>
    exact .inl (hworker i _ hstep fun w w' table' hinv hf => getJobAttempts_spec hinv hf)
  | waitForTask i =>
    exact .inl (hworker i _ hstep fun w w' table' hinv hf => waitForTask_spec hinv hf)

section Keeps

variable {blobs blobs' : KeyedMap String (List UInt8)}
  {versions versions' : List FriProtocolVersionId}

theorem Saved.mono {entry : ProofGenerationData × SaveStage} (h : Saved blobs versions entry)
    (hblobs : ∀ key, (blobs.lookup key).isSome = true → (blobs'.lookup key).isSome = true)
    (hversions : versions ⊆ versions') : Saved blobs' versions' entry := by
  obtain ⟨data, stage⟩ := entry
  cases stage with
  | received => trivial
  | blobSaved => exact hblobs _ h
  | versionSaved => exact ⟨hblobs _ h.1, hversions h.2⟩

theorem HasInput.mono {row : WitnessInputRow} (h : HasInput blobs versions row)
    (hblobs : ∀ key, (blobs.lookup key).isSome = true → (blobs'.lookup key).isSome = true)
    (hversions : versions ⊆ versions') : HasInput blobs' versions' row := by
  obtain ⟨version, hmem, hversion⟩ := h.version
  exact ⟨h.url_eq, hblobs _ h.blob, version, hversions hmem, hversion⟩

/-- A statement of the gateway before the last one. -/
theorem Inv.save (h : s.Inv)
    (hblobs : ∀ key, (s.blobs.lookup key).isSome = true → (blobs.lookup key).isSome = true)
    (hversions : s.versions ⊆ versions) (i : ℕ) {entry : ProofGenerationData × SaveStage}
    (hentry : Saved blobs versions entry) :
    Inv { s with blobs := blobs, versions := versions, saves := s.saves.set i entry } := by
  refine ⟨h.keyed, h.workers, h.disjoint, h.queued, h.picked, ?_, ?_⟩
  · exact fun n row hrow => (h.inputs n row hrow).mono hblobs hversions
  · intro entry' hentry'
    rcases List.mem_or_eq_of_mem_set hentry' with hentry' | rfl
    · exact (h.saves entry' hentry').mono hblobs hversions
    · exact hentry

end Keeps

/-- The last statement of the gateway. -/
theorem Inv.insert (h : s.Inv) {i : ℕ} {data : ProofGenerationData}
    (hget : s.saves[i]? = some (data, .versionSaved)) :
    Inv { s with
      table := saveWitnessInputs s.table data.l1BatchNumber (prepareWitnessKey data.l1BatchNumber)
        data.friProtocolVersionId
      saves := s.saves.eraseIdx i } := by
  obtain ⟨hblob, hversion⟩ := h.saves _ (List.mem_of_getElem? hget)
  have hrows (n : ℕ) (row : WitnessInputRow) (hrow : rowOf (saveWitnessInputs s.table
      data.l1BatchNumber (prepareWitnessKey data.l1BatchNumber) data.friProtocolVersionId) n =
        some row) : rowOf s.table n = some row ∨ row = ⟨data.l1BatchNumber,
          prepareWitnessKey data.l1BatchNumber, some data.friProtocolVersionId, .queued, 0, none,
            none⟩ := by
    rw [rowOf_saveWitnessInputs] at hrow
    split_ifs at hrow
    · rcases Option.or_eq_some_iff.mp hrow with hrow | ⟨-, hrow⟩
      · exact .inl hrow
      · exact .inr (Option.some.inj hrow).symm
    · exact .inl hrow
  refine ⟨h.keyed.saveWitnessInputs _ _ _, ?_, h.disjoint, ?_, ?_, ?_, ?_⟩
  · intro w hw
    refine (h.workers w hw).of_rows fun n hn => ?_
    obtain ⟨row, hrow, -⟩ := (h.workers w hw).owned n hn
    rw [rowOf_saveWitnessInputs, hrow]
    simp
  · intro n row hrow hqueued
    rcases hrows n row hrow with hrow | rfl
    · exact h.queued n row hrow hqueued
    · rfl
  · intro n row hrow hstatus
    rcases hrows n row hrow with hrow | rfl
    · exact h.picked n row hrow hstatus
    · exact absurd rfl hstatus
  · intro n row hrow
    rcases hrows n row hrow with hrow | rfl
    · exact h.inputs n row hrow
    · exact ⟨rfl, hblob, _, hversion, rfl⟩
  · exact fun entry hentry => h.saves entry (List.mem_of_mem_eraseIdx hentry)

theorem inv_step (h : s.Inv) {a : WitnessAction} (hstep : s.step a = some s') : s'.Inv := by
  rcases step_cases h hstep with ⟨i, w, w', table', hi, heffect, hw', rfl⟩ |
    ⟨config, podName, batchSize, rfl⟩ | ⟨saves, hsaves, rfl⟩ | ⟨i, data, hget, rfl⟩ |
    ⟨i, data, hget, rfl⟩ | ⟨i, data, hget, rfl⟩
  · exact inv_stepWorker h hi heffect hw'
  · refine ⟨h.keyed, ?_, ?_, h.queued, ?_, h.inputs, h.saves⟩
    · intro w hw
      rcases List.mem_append.mp hw with hw | hw
      · exact h.workers w hw
      · rw [List.mem_singleton.mp hw]
        exact inv_start config s.versions podName batchSize
    · intro i j w w' hi hj hne n hn
      rw [List.getElem?_append] at hi hj
      split_ifs at hi hj
      · exact h.disjoint i j w w' hi hj hne n hn
      · obtain rfl := List.mem_singleton.mp (List.mem_of_getElem? hj)
        exact List.not_mem_nil
      · obtain rfl := List.mem_singleton.mp (List.mem_of_getElem? hi)
        cases hn
      · obtain rfl := List.mem_singleton.mp (List.mem_of_getElem? hi)
        cases hn
    · intro n row hrow hstatus
      obtain ⟨w, hw, hn⟩ := h.picked n row hrow hstatus
      exact ⟨w, List.mem_append_left _ hw, hn⟩
  · exact ⟨h.keyed, h.workers, h.disjoint, h.queued, h.picked, h.inputs, hsaves⟩
  · refine h.save ?_ (List.Subset.refl _) i ?_
    · intro key hkey
      rw [KeyedMap.lookup_insert_eq]
      split_ifs
      · rfl
      · exact hkey
    · show ((s.blobs.insert _ _).lookup _).isSome = true
      rw [AList.lookup_insert]
      rfl
  · have hblob := h.saves _ (List.mem_of_getElem? hget)
    refine h.save (fun _ hkey => hkey) ?_ i ⟨hblob, mem_saveProverProtocolVersion.mpr (.inr rfl)⟩
    exact fun version hversion => mem_saveProverProtocolVersion.mpr (.inl hversion)
  · exact h.insert hget

theorem inv_init : WitnessSystem.Inv {} := by
  have hrow (n : ℕ) (row : WitnessInputRow) : rowOf [] n ≠ some row := nofun
  refine ⟨List.nodup_nil, ?_, ?_, ?_, ?_, ?_, ?_⟩
  · exact fun w hw => absurd hw List.not_mem_nil
  · intro i j w w' hi
    cases hi
  · exact fun n row h => absurd h (hrow n row)
  · exact fun n row h => absurd h (hrow n row)
  · exact fun n row h => absurd h (hrow n row)
  · exact fun entry hentry => absurd hentry List.not_mem_nil

theorem Reachable.inv (h : s.Reachable) : s.Inv := by
  refine h.invariant WitnessSystem.Inv ?_ fun s a s' hs _ hstep => inv_step hs hstep
  rintro _ rfl
  exact inv_init

/-- All batches that were handed out. -/
def handedOut (s : WitnessSystem) : List ℕ := s.workers.flatMap BasicWitnessGenerator.taken

/-- What has become of the batches: a batch is handed out once at most, to a generator that may
take it, with its input in the bucket; one in progress is pending with the generator that took it.
A generator takes no more batches than it was started for. -/
structure HandsOutOnce (s : WitnessSystem) : Prop where
  once : s.handedOut.Nodup
  queued_iff : ∀ row ∈ s.table, row.status = .queued ↔ row.l1BatchNumber ∉ s.handedOut
  attempts_eq : ∀ row ∈ s.table, row.attempts = s.handedOut.count row.l1BatchNumber
  owned : ∀ w ∈ s.workers, ∀ n ∈ w.taken, ∃ row ∈ s.table, row.l1BatchNumber = n ∧ w.Owns row
  inProgress_iff : ∀ row ∈ s.table, row.status = .inProgress ↔ ∃ w ∈ s.workers,
    w.pending = some row.l1BatchNumber ∧ w.task ≠ some (row.l1BatchNumber, some .skipped)
  bounded : ∀ w ∈ s.workers, ∀ size, w.batchSize = some size → w.taken.length ≤ size
  backsOff : ∀ w ∈ s.workers, w.run.BacksOff
  inputs : ∀ row ∈ s.table, HasInput s.blobs s.versions row

theorem Inv.nodup_handedOut (h : s.Inv) : s.handedOut.Nodup := by
  rw [handedOut, List.nodup_flatMap]
  refine ⟨fun w hw => (h.workers w hw).nodup, ?_⟩
  rw [List.pairwise_iff_getElem]
  intro i j hi hj hlt n hn hn'
  exact h.disjoint i j _ _ (List.getElem?_eq_getElem hi) (List.getElem?_eq_getElem hj) hlt.ne n hn
    hn'

theorem Inv.queued_iff (h : s.Inv) {row : WitnessInputRow} (hrow : row ∈ s.table) :
    row.status = .queued ↔ row.l1BatchNumber ∉ s.handedOut := by
  have hget := h.keyed.rowOf_eq hrow
  rw [handedOut, List.mem_flatMap]
  constructor
  · rintro hqueued ⟨w, hw, hn⟩
    exact (h.workers w hw).notMem_of_queued hget hqueued hn
  · intro hn
    by_contra hstatus
    exact hn (h.picked _ row hget hstatus)

theorem handsOutOnce_of_inv (h : s.Inv) : s.HandsOutOnce where
  once := h.nodup_handedOut
  queued_iff row hrow := h.queued_iff hrow
  attempts_eq row hrow := by
    have hget := h.keyed.rowOf_eq hrow
    by_cases hqueued : row.status = .queued
    · rw [h.queued _ row hget hqueued, List.count_eq_zero.mpr ((h.queued_iff hrow).mp hqueued)]
    · obtain ⟨w, hw, hn⟩ := h.picked _ row hget hqueued
      obtain ⟨row', hrow', howns, -⟩ := (h.workers w hw).owned _ hn
      obtain rfl := Option.some.inj (hget.symm.trans hrow')
      rw [howns.attempts_eq, List.count_eq_one_of_mem h.nodup_handedOut
        (List.mem_flatMap.mpr ⟨w, hw, hn⟩)]
  owned w hw n hn := by
    obtain ⟨row, hrow, howns, -⟩ := (h.workers w hw).owned n hn
    exact ⟨row, Upsert.mem_of_row hrow, number_of_rowOf hrow, howns⟩
  inProgress_iff row hrow := by
    have hget := h.keyed.rowOf_eq hrow
    constructor
    · intro hstatus
      obtain ⟨w, hw, hn⟩ := h.picked _ row hget (by simp [hstatus])
      obtain ⟨row', hrow', -, hfinal⟩ := (h.workers w hw).owned _ hn
      obtain rfl := Option.some.inj (hget.symm.trans hrow')
      have hpending : w.pending = some row.l1BatchNumber := by
        by_contra hne
        have hended := hfinal hne
        rw [hstatus] at hended
        cases hended
      refine ⟨w, hw, hpending, fun htask => ?_⟩
      obtain ⟨-, result, row', heq, hrow', hsame⟩ := (h.workers w hw).pending_mem _ hpending
      obtain rfl := Option.some.inj (hget.symm.trans hrow')
      rw [htask] at heq
      cases heq
      rw [hstatus] at hsame
      cases hsame
    · rintro ⟨w, hw, hpending, htask⟩
      obtain ⟨-, result, row', heq, hrow', hsame⟩ := (h.workers w hw).pending_mem _ hpending
      obtain rfl := Option.some.inj (hget.symm.trans hrow')
      rw [hsame]
      unfold taskStatus
      split
      · exact absurd heq htask
      · rfl
  bounded w hw size hsize := by
    have htaken := (h.workers w hw).taken
    rw [hsize] at htaken
    exact htaken.le
  backsOff w hw := (h.workers w hw).backsOff
  inputs row hrow := h.inputs _ row (h.keyed.rowOf_eq hrow)

/-- However gateways and generators interleave, and whichever of them exit, every batch is handed
out once at most. -/
theorem Reachable.handsOutOnce (h : s.Reachable) : s.HandsOutOnce :=
  handsOutOnce_of_inv h.inv

/-- Two batches arrive and two generators take one each; the first one ends its batch. -/
def sampleTaken : List WitnessAction :=
  [.handleResponse ⟨7, [1], .version0⟩, .saveProofGenData 0, .saveProofGenData 0,
    .saveProofGenData 0, .handleResponse ⟨8, [2], .version0⟩, .saveProofGenData 0,
    .saveProofGenData 0, .saveProofGenData 0, .start {} "a" (some 2), .start {} "b" none,
    .poll 0 [], .poll 1 [], .getJobAttempts 0 none, .processJobImpl 0 50 (.ok ()), .waitForTask 0]

theorem Reachable.handsOutOnce_sample : ∃ s : WitnessSystem, s.Reachable ∧ s.handedOut = [7, 8] ∧
    s.table.map WitnessInputRow.status = [.successful, .inProgress] ∧ s.HandsOutOnce := by
  have hrun : ((Transition.run step {} sampleTaken).map fun s =>
      (s.handedOut, s.table.map WitnessInputRow.status)) =
        some ([7, 8], [.successful, .inProgress]) := by decide +kernel
  obtain ⟨s, hs, heq⟩ := Option.map_eq_some_iff.mp hrun
  have hreach : s.Reachable :=
    Transition.reaches_run sampleTaken (.start rfl) (fun _ _ => trivial) hs
  exact ⟨s, hreach, congrArg Prod.fst heq, congrArg Prod.snd heq, hreach.handsOutOnce⟩

/-- What a step does to a row that is there. -/
theorem advances_step (h : s.Inv) {a : WitnessAction} (hstep : s.step a = some s') {n : ℕ}
    {row : WitnessInputRow} (hrow : rowOf s.table n = some row) :
    ∃ row', rowOf s'.table n = some row' ∧ row.Advances row' := by
  rcases step_cases h hstep with ⟨i, w, w', table', hi, heffect, hw', rfl⟩ |
    ⟨config, podName, batchSize, rfl⟩ | ⟨saves, hsaves, rfl⟩ | ⟨i, data, hget, rfl⟩ |
    ⟨i, data, hget, rfl⟩ | ⟨i, data, hget, rfl⟩
  · rcases heffect.row n with hsame | ⟨old, row', hold, hrow', hadv, -, -⟩
    · exact ⟨row, hsame.trans hrow, .refl row⟩
    · obtain rfl := Option.some.inj (hrow.symm.trans hold)
      exact ⟨row', hrow', hadv⟩
  · exact ⟨row, hrow, .refl row⟩
  · exact ⟨row, hrow, .refl row⟩
  · exact ⟨row, hrow, .refl row⟩
  · exact ⟨row, hrow, .refl row⟩
  · refine ⟨row, ?_, .refl row⟩
    simp only
    rw [rowOf_saveWitnessInputs, hrow]
    simp

/-- In every run from there on, no row is lost, a batch in progress is not picked again, and an
ended one stays as it is. -/
theorem Reachable.run_advances (h : s.Reachable) {actions : List WitnessAction}
    (hrun : Transition.run step s actions = some s') :
    ∀ row ∈ s.table, ∃ row' ∈ s'.table, row.Advances row' := by
  have hinv := h.inv
  have hmain : s'.Inv ∧ ∀ n row, rowOf s.table n = some row →
      ∃ row', rowOf s'.table n = some row' ∧ row.Advances row' := by
    refine Transition.run_preserves (fun t => t.Inv ∧ ∀ n row, rowOf s.table n = some row →
      ∃ row', rowOf t.table n = some row' ∧ row.Advances row') ?_ actions
        ⟨hinv, fun n row hrow => ⟨row, hrow, .refl row⟩⟩ hrun
    rintro t a t' ⟨ht, hadv⟩ hstep
    refine ⟨inv_step ht hstep, fun n row hrow => ?_⟩
    obtain ⟨row', hrow', hfirst⟩ := hadv n row hrow
    obtain ⟨row'', hrow'', hnext⟩ := advances_step ht hstep hrow'
    exact ⟨row'', hrow'', hfirst.trans hnext⟩
  intro row hrow
  obtain ⟨row', hrow', hadv⟩ := hmain.2 _ row (hinv.keyed.rowOf_eq hrow)
  exact ⟨row', Upsert.mem_of_row hrow', hadv⟩

/-- The gateway gets the first batch again and the second generator exits. -/
def sampleAgain : List WitnessAction :=
  [.handleResponse ⟨7, [3], .version1⟩, .saveProofGenData 0, .saveProofGenData 0,
    .saveProofGenData 0, .exit 1, .poll 0 []]

theorem Reachable.run_advances_sample : ∃ s s' : WitnessSystem, s.Reachable ∧
    Transition.run step s sampleAgain = some s' ∧
    s'.table.map WitnessInputRow.status = [.successful, .inProgress] ∧
    ∀ row ∈ s.table, ∃ row' ∈ s'.table, row.Advances row' := by
  have hrun : ((Transition.run step {} (sampleTaken ++ sampleAgain)).map fun s =>
      s.table.map WitnessInputRow.status) = some [.successful, .inProgress] := by decide +kernel
  obtain ⟨s', hs', heq⟩ := Option.map_eq_some_iff.mp hrun
  rw [Transition.run_append] at hs'
  obtain ⟨s, hs, hnext⟩ := Option.bind_eq_some_iff.mp hs'
  have hreach : s.Reachable :=
    Transition.reaches_run sampleTaken (.start rfl) (fun _ _ => trivial) hs
  exact ⟨s, s', hreach, hnext, heq, hreach.run_advances hnext⟩

end WitnessSystem

end OlaOs
