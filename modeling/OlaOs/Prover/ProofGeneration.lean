import Mathlib.Data.List.MinMax
import Mathlib.Data.List.Nodup
import OlaOs.Lib.Transition

/-! The table `proof_generation_details` (`dal/src/proof_generation_dal.rs`) and the requests that
the provers send (`ola_core/src/proof_data_handler/request_processor.rs`). -/
namespace OlaOs

inductive ProofGenerationJobStatus where
  | readyToBeProven
  | pickedByProver
  | generated
  | skipped
  deriving DecidableEq

/-- A row of `proof_generation_details`; times are in the unit of the clock of the database. -/
structure ProofGenerationRow where
  l1BatchNumber : ℕ
  status : ProofGenerationJobStatus
  proofGenDataBlobUrl : String
  proofBlobUrl : Option String
  proverTakenAt : Option ℤ
  deriving DecidableEq

namespace ProofGenerationDal

/-- `WHERE status = 'ready_to_be_proven' OR (status = 'picked_by_prover' AND ...)`; a comparison
with a missing time is not true. -/
def isToBeProven (now processingTimeout : ℤ) (row : ProofGenerationRow) : Bool :=
  row.status = .readyToBeProven || (row.status = .pickedByProver &&
    match row.proverTakenAt with
    | some proverTakenAt => proverTakenAt < now - processingTimeout
    | none => false)

/-- The batch that the inner `SELECT` returns. Rows that another transaction has locked are
skipped. -/
def nextBlock (table : List ProofGenerationRow) (now processingTimeout : ℤ) (locked : List ℕ) :
    Option ℕ :=
  ((table.filter fun row => isToBeProven now processingTimeout row &&
    row.l1BatchNumber ∉ locked).map ProofGenerationRow.l1BatchNumber).min?

def pickRow (now : ℤ) (row : ProofGenerationRow) : ProofGenerationRow :=
  { row with status := .pickedByProver, proverTakenAt := some now }

/-- `UPDATE ... WHERE l1_batch_number = ...` -/
def updateBatch (table : List ProofGenerationRow) (blockNumber : ℕ)
    (f : ProofGenerationRow → ProofGenerationRow) : List ProofGenerationRow :=
  table.map fun row => if row.l1BatchNumber = blockNumber then f row else row

def getNextBlockToBeProven (table : List ProofGenerationRow) (now processingTimeout : ℤ)
    (locked : List ℕ) : Option ℕ × List ProofGenerationRow :=
  match nextBlock table now processingTimeout locked with
  | some blockNumber => (some blockNumber, updateBatch table blockNumber (pickRow now))
  | none => (none, table)

/-- `ON CONFLICT (l1_batch_number) DO NOTHING` -/
def insertProofGenerationDetails (table : List ProofGenerationRow) (blockNumber : ℕ)
    (proofGenDataBlobUrl : String) : List ProofGenerationRow :=
  if table.any fun row => row.l1BatchNumber = blockNumber then table
  else table ++ [⟨blockNumber, .readyToBeProven, proofGenDataBlobUrl, none, none⟩]

/-- An update that has to find its row. -/
def updateOne (table : List ProofGenerationRow) (blockNumber : ℕ)
    (f : ProofGenerationRow → ProofGenerationRow) : Except String (List ProofGenerationRow) :=
  if (table.filter fun row => row.l1BatchNumber = blockNumber).length = 1 then
    .ok (updateBatch table blockNumber f)
  else .error "no rows returned by a query that expected to return at least one row"

def markProofGenerationJobAsSkipped (table : List ProofGenerationRow) (blockNumber : ℕ) :
    Except String (List ProofGenerationRow) :=
  updateOne table blockNumber fun row => { row with status := .skipped }

def saveProofArtifactsMetadata (table : List ProofGenerationRow) (blockNumber : ℕ)
    (proofBlobUrl : String) : Except String (List ProofGenerationRow) :=
  updateOne table blockNumber fun row =>
    { row with status := .generated, proofBlobUrl := some proofBlobUrl }

end ProofGenerationDal

inductive SubmitProofRequest where
  | proof (proof : List UInt8)
  | skippedProofGeneration

/-- The name under which the object store keeps the proof of a batch. -/
def l1BatchProofKey (l1BatchNumber : ℕ) : String :=
  "l1_batch_proof_" ++ toString l1BatchNumber ++ ".bin"

/-- The table, and the batches that were handed out, each as often as it was. -/
structure ProofDataHandler where
  table : List ProofGenerationRow := []
  handedOut : List ℕ := []

inductive ProofDataAction where
  | getProofGenerationData (now proofGenerationTimeout : ℤ) (locked : List ℕ)
  | submitProof (l1BatchNumber : ℕ) (payload : SubmitProofRequest)
  | insertProofGenerationDetails (l1BatchNumber : ℕ) (proofGenDataBlobUrl : String)

namespace ProofDataHandler

open ProofGenerationDal

/-- One request, or one batch from the sequencer. A prover only answers for a batch that was handed
out. -/
def step (s : ProofDataHandler) : ProofDataAction → Option ProofDataHandler
  | .getProofGenerationData now proofGenerationTimeout locked =>
    let (blockNumber, table) := getNextBlockToBeProven s.table now proofGenerationTimeout locked
    some ⟨table, s.handedOut ++ blockNumber.toList⟩
  | .submitProof l1BatchNumber payload =>
    if l1BatchNumber ∈ s.handedOut then
      let result := match payload with
        | .proof _ => saveProofArtifactsMetadata s.table l1BatchNumber
            (l1BatchProofKey l1BatchNumber)
        | .skippedProofGeneration => markProofGenerationJobAsSkipped s.table l1BatchNumber
      -- a failed request leaves the table as it is
      match result with
      | .ok table => some { s with table := table }
      | .error _ => some s
    else none
  | .insertProofGenerationDetails l1BatchNumber proofGenDataBlobUrl =>
    some { s with table :=
      ProofGenerationDal.insertProofGenerationDetails s.table l1BatchNumber proofGenDataBlobUrl }

/-- The batch has a row with a proof. -/
def Generated (s : ProofDataHandler) (l1BatchNumber : ℕ) : Prop :=
  ∃ row ∈ s.table, row.l1BatchNumber = l1BatchNumber ∧ row.status = .generated

/-- In the run `actions` from an empty table, a batch with a proof keeps it and is not handed out
again. -/
def GeneratedIsFinal (actions : List ProofDataAction) : Prop :=
  ∀ before between after s s' l1BatchNumber, actions = before ++ (between ++ after) →
    Transition.run step {} before = some s → Transition.run step s between = some s' →
    s.Generated l1BatchNumber →
      s'.Generated l1BatchNumber ∧
        s'.handedOut.count l1BatchNumber = s.handedOut.count l1BatchNumber

/-- No prover reports a batch as skipped once its proof is saved. -/
def NoLateSkip (actions : List ProofDataAction) : Prop :=
  ∀ before after s l1BatchNumber,
    actions = before ++ (.submitProof l1BatchNumber .skippedProofGeneration :: after) →
    Transition.run step {} before = some s → ¬ s.Generated l1BatchNumber

variable {s s' : ProofDataHandler} {l1BatchNumber : ℕ}

/-- The primary key. -/
def Keyed (s : ProofDataHandler) : Prop :=
  (s.table.map ProofGenerationRow.l1BatchNumber).Nodup

theorem map_updateBatch (table : List ProofGenerationRow) (blockNumber : ℕ)
    (f : ProofGenerationRow → ProofGenerationRow)
    (hf : ∀ row, (f row).l1BatchNumber = row.l1BatchNumber) :
    (updateBatch table blockNumber f).map ProofGenerationRow.l1BatchNumber =
      table.map ProofGenerationRow.l1BatchNumber := by
  rw [updateBatch, List.map_map]
  apply List.map_congr_left
  intro row _
  simp only [Function.comp_apply]
  split_ifs
  · exact hf row
  · rfl

theorem updateOne_ok {table table' : List ProofGenerationRow} {blockNumber : ℕ}
    {f : ProofGenerationRow → ProofGenerationRow} (h : updateOne table blockNumber f = .ok table') :
    table' = updateBatch table blockNumber f := by
  unfold updateOne at h
  split_ifs at h
  exact (Except.ok.inj h).symm

/-- All that a step can do to the table and to the batches handed out. -/
theorem step_cases {a : ProofDataAction} (h : s.step a = some s') :
    (s'.table = s.table ∧ s'.handedOut = s.handedOut) ∨
    (∃ row ∈ s.table, ∃ now timeout, isToBeProven now timeout row = true ∧
      s'.table = updateBatch s.table row.l1BatchNumber (pickRow now) ∧
      s'.handedOut = s.handedOut ++ [row.l1BatchNumber]) ∨
    (∃ number blobUrl, s'.table = updateBatch s.table number (fun row =>
      { row with status := .generated, proofBlobUrl := some blobUrl }) ∧
      s'.handedOut = s.handedOut) ∨
    (∃ number, a = .submitProof number .skippedProofGeneration ∧
      s'.table = updateBatch s.table number (fun row => { row with status := .skipped }) ∧
      s'.handedOut = s.handedOut) ∨
    (∃ number url, number ∉ s.table.map ProofGenerationRow.l1BatchNumber ∧
      s'.table = s.table ++ [⟨number, .readyToBeProven, url, none, none⟩] ∧
      s'.handedOut = s.handedOut) := by
  cases a with
  | getProofGenerationData now timeout locked =>
    simp only [step, getNextBlockToBeProven] at h
    cases hnext : nextBlock s.table now timeout locked with
    | none =>
      rw [hnext] at h
      cases h
      exact .inl ⟨rfl, List.append_nil _⟩
    | some number =>
      rw [hnext] at h
      cases h
      obtain ⟨row, hrow, rfl⟩ := List.mem_map.mp (List.min?_mem hnext)
      obtain ⟨hmem, hcond⟩ := List.mem_filter.mp hrow
      exact .inr (.inl ⟨row, hmem, now, timeout, (Bool.and_eq_true_iff.mp hcond).1, rfl, rfl⟩)
  | submitProof number payload =>
    simp only [step] at h
    split_ifs at h with hmem
    cases payload with
    | proof _ =>
      cases hsave : saveProofArtifactsMetadata s.table number (l1BatchProofKey number) with
      | error e =>
        simp only [hsave] at h
        cases h
        exact .inl ⟨rfl, rfl⟩
      | ok table =>
        simp only [hsave] at h
        cases h
        exact .inr (.inr (.inl ⟨number, _, updateOne_ok hsave, rfl⟩))
    | skippedProofGeneration =>
      cases hskip : markProofGenerationJobAsSkipped s.table number with
      | error e =>
        simp only [hskip] at h
        cases h
        exact .inl ⟨rfl, rfl⟩
      | ok table =>
        simp only [hskip] at h
        cases h
        exact .inr (.inr (.inr (.inl ⟨number, rfl, updateOne_ok hskip, rfl⟩)))
  | insertProofGenerationDetails number url =>
    simp only [step, Option.some.injEq] at h
    subst h
    unfold ProofGenerationDal.insertProofGenerationDetails
    split_ifs with hany
    · exact .inl ⟨rfl, rfl⟩
    · refine .inr (.inr (.inr (.inr ⟨number, url, ?_, rfl, rfl⟩)))
      intro hmem
      obtain ⟨row, hrow, rfl⟩ := List.mem_map.mp hmem
      exact hany (List.any_eq_true.mpr ⟨row, hrow, by simp⟩)

theorem keyed_step {a : ProofDataAction} (hs : s.Keyed) (h : s.step a = some s') : s'.Keyed := by
  unfold Keyed at *
  rcases step_cases h with ⟨ht, -⟩ | ⟨row, -, now, timeout, -, ht, -⟩ | ⟨number, blobUrl, ht, -⟩ |
    ⟨number, -, ht, -⟩ | ⟨number, url, hnew, ht, -⟩
  · rwa [ht]
  · rw [ht, map_updateBatch]
    · exact hs
    · exact fun _ => rfl
  · rw [ht, map_updateBatch]
    · exact hs
    · exact fun _ => rfl
  · rw [ht, map_updateBatch]
    · exact hs
    · exact fun _ => rfl
  · rw [ht, List.map_append, List.map_singleton, List.nodup_append]
    refine ⟨hs, List.nodup_singleton _, ?_⟩
    rintro k hk k' hk' rfl
    obtain rfl := List.mem_singleton.mp hk'
    exact hnew hk

theorem keyed_run {actions : List ProofDataAction}
    (h : Transition.run step {} actions = some s) : s.Keyed :=
  Transition.run_preserves Keyed (fun _ _ _ hs hstep => keyed_step hs hstep) actions
    (s := {}) List.nodup_nil h

/-- The row of a batch is the only one. -/
theorem Keyed.row_eq (hs : s.Keyed) {row row' : ProofGenerationRow} (hrow : row ∈ s.table)
    (hrow' : row' ∈ s.table) (h : row.l1BatchNumber = row'.l1BatchNumber) : row = row' :=
  List.inj_on_of_nodup_map hs hrow hrow' h

/-- Every step but a skip of the batch keeps its proof and does not hand it out. -/
theorem generated_step {a : ProofDataAction} (hs : s.Keyed) (h : s.step a = some s')
    (hgen : s.Generated l1BatchNumber)
    (ha : a ≠ .submitProof l1BatchNumber .skippedProofGeneration) :
    s'.Generated l1BatchNumber ∧
      s'.handedOut.count l1BatchNumber = s.handedOut.count l1BatchNumber := by
  obtain ⟨row, hrow, rfl, hstatus⟩ := hgen
  have hkeep : ∀ number f, number ≠ row.l1BatchNumber →
      row ∈ updateBatch s.table number f := fun number f hne =>
    List.mem_map.mpr ⟨row, hrow, if_neg (Ne.symm hne)⟩
  rcases step_cases h with ⟨ht, ho⟩ | ⟨row', hrow', now, timeout, hnext, ht, ho⟩ |
    ⟨number, blobUrl, ht, ho⟩ | ⟨number, hskip, ht, ho⟩ | ⟨number, url, -, ht, ho⟩
  · exact ⟨⟨row, ht ▸ hrow, rfl, hstatus⟩, by rw [ho]⟩
  · have hne : row'.l1BatchNumber ≠ row.l1BatchNumber := by
      intro heq
      rw [hs.row_eq hrow' hrow heq] at hnext
      simp [isToBeProven, hstatus] at hnext
    refine ⟨⟨row, ht ▸ hkeep _ _ hne, rfl, hstatus⟩, ?_⟩
    rw [ho, List.count_append, List.count_singleton]
    simp [hne]
  · refine ⟨?_, by rw [ho]⟩
    by_cases heq : number = row.l1BatchNumber
    · refine ⟨{ row with status := .generated, proofBlobUrl := some blobUrl }, ?_, rfl, rfl⟩
      rw [ht]
      exact List.mem_map.mpr ⟨row, hrow, if_pos heq.symm⟩
    · exact ⟨row, ht ▸ hkeep _ _ heq, rfl, hstatus⟩
  · have hne : number ≠ row.l1BatchNumber := by
      rintro rfl
      exact ha hskip
    exact ⟨⟨row, ht ▸ hkeep _ _ hne, rfl, hstatus⟩, by rw [ho]⟩
  · exact ⟨⟨row, ht ▸ List.mem_append_left _ hrow, rfl, hstatus⟩, by rw [ho]⟩

/-- A skip takes the proof of its batch away. -/
theorem not_generated_of_skip (hs : s.Keyed) (hgen : s.Generated l1BatchNumber)
    (h : s.step (.submitProof l1BatchNumber .skippedProofGeneration) = some s') :
    ¬ s'.Generated l1BatchNumber := by
  obtain ⟨row, hrow, rfl, -⟩ := hgen
  have hone : (s.table.filter fun row' => row'.l1BatchNumber = row.l1BatchNumber).length = 1 := by
    rw [← List.countP_eq_length_filter]
    have hcount := List.count_eq_one_of_mem hs (List.mem_map.mpr ⟨row, hrow, rfl⟩)
    rw [List.count, List.countP_map] at hcount
    rw [← hcount]
    apply List.countP_congr
    intro row' _
    simp
  simp only [step, markProofGenerationJobAsSkipped, updateOne, hone, ↓reduceIte] at h
  split_ifs at h
  cases h
  rintro ⟨row', hrow', hnumber, hstatus⟩
  obtain ⟨old, hold, rfl⟩ := List.mem_map.mp hrow'
  by_cases heq : old.l1BatchNumber = row.l1BatchNumber
  · rw [if_pos heq] at hstatus
    cases hstatus
  · rw [if_neg heq] at hnumber
    exact heq hnumber

/-- A proof stays and its batch is never handed out again, in exactly the runs in which no prover
reports the batch as skipped afterwards. -/
theorem generatedIsFinal_iff (actions : List ProofDataAction) (last : ProofDataHandler)
    (hrun : Transition.run step {} actions = some last) :
    GeneratedIsFinal actions ↔ NoLateSkip actions := by
  constructor
  · intro hfinal before after s number hactions hbefore hgen
    rw [hactions, Transition.run_append, hbefore, Option.bind_some] at hrun
    obtain ⟨s', hstep, -⟩ := Option.bind_eq_some_iff.mp hrun
    have hone : Transition.run step s [.submitProof number .skippedProofGeneration] = some s' := by
      rw [Transition.run, hstep]
      rfl
    exact not_generated_of_skip (keyed_run hbefore) hgen hstep
      (hfinal before _ after s s' number hactions hbefore hone hgen).1
  · intro hskip before between after s s' number hactions hbefore hbetween hgen
    -- the actions in between, one by one, with those done so far moved to the front
    induction between generalizing before s with
    | nil =>
      cases hbetween
      exact ⟨hgen, rfl⟩
    | cons a between ih =>
      obtain ⟨s₁, hstep, hrest⟩ := Option.bind_eq_some_iff.mp hbetween
      have hne : a ≠ .submitProof number .skippedProofGeneration := by
        rintro rfl
        exact hskip before _ s number hactions hbefore hgen
      obtain ⟨hgen₁, hcount₁⟩ := generated_step (keyed_run hbefore) hstep hgen hne
      have hbefore₁ : Transition.run step {} (before ++ [a]) = some s₁ := by
        rw [Transition.run_append, hbefore]
        simp only [Option.bind_some, Transition.run, hstep]
      obtain ⟨hgen', hcount'⟩ := ih (before ++ [a]) s₁ (by rw [hactions]; simp) hbefore₁ hrest hgen₁
      exact ⟨hgen', hcount'.trans hcount₁⟩

/-- Two provers work on batch 1 after a timeout; one sends a proof, the other then skips the
batch. -/
def sampleLateSkip : List ProofDataAction :=
  [.insertProofGenerationDetails 1 "data", .getProofGenerationData 10 5 [],
    .getProofGenerationData 20 5 [], .submitProof 1 (.proof [1]),
    .submitProof 1 .skippedProofGeneration]

theorem generatedIsFinal_counterexample :
    (∃ last, Transition.run step {} sampleLateSkip = some last ∧ last.handedOut = [1, 1]) ∧
      ¬ GeneratedIsFinal sampleLateSkip := by
  refine ⟨⟨_, rfl, rfl⟩, ?_⟩
  intro hfinal
  obtain ⟨⟨row, hrow, -, hstatus⟩, -⟩ := hfinal (sampleLateSkip.take 4) (sampleLateSkip.drop 4) []
    _ _ 1 rfl rfl rfl ⟨_, List.mem_singleton.mpr rfl, rfl, rfl⟩
  obtain rfl := List.mem_singleton.mp hrow
  cases hstatus

/-- After the proof of batch 1 the provers ask again, its row is inserted again, and batch 2 is
proved. -/
def sampleProved : List ProofDataAction :=
  sampleLateSkip.take 4 ++ [.getProofGenerationData 40 5 [],
    .insertProofGenerationDetails 1 "data", .insertProofGenerationDetails 2 "more",
    .getProofGenerationData 50 5 [], .submitProof 2 (.proof [2])]

theorem generatedIsFinal_iff_sample :
    (∃ last, Transition.run step {} sampleProved = some last ∧ last.handedOut = [1, 1, 2]) ∧
      GeneratedIsFinal sampleProved := by
  refine ⟨⟨_, rfl, rfl⟩, (generatedIsFinal_iff sampleProved _ rfl).mpr ?_⟩
  intro before after s number hactions
  have hmem : ProofDataAction.submitProof number .skippedProofGeneration ∈ sampleProved := by
    rw [hactions]
    simp
  simp [sampleProved, sampleLateSkip] at hmem

end ProofDataHandler

end OlaOs
