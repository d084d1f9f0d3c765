import Mathlib.Data.List.MinMax
import OlaOs.Lib.Upsert

/-! The tables `witness_inputs_fri` and `prover_fri_protocol_versions`
(`dal/src/fri_witness_generator_dal.rs`, `dal/src/fri_protocol_versions_dal.rs`). Times are left
out. -/
namespace OlaOs

inductive FriProtocolVersionId where
  | version0
  | version1
  | version2
  deriving DecidableEq

inductive FriWitnessJobStatus where
  | failed
  | skipped
  | successful
  | inProgress
  | queued
  deriving DecidableEq

/-- No statement takes a job out of such a status. -/
def FriWitnessJobStatus.isFinal : FriWitnessJobStatus → Bool
  | .failed | .skipped | .successful => true
  | .inProgress | .queued => false

/-- A row of `witness_inputs_fri`. -/
structure WitnessInputRow where
  l1BatchNumber : ℕ
  merkleTreePathsBlobUrl : String
  protocolVersion : Option FriProtocolVersionId
  status : FriWitnessJobStatus
  attempts : ℕ := 0
  pickedBy : Option String := none
  error : Option String := none
  deriving DecidableEq

namespace FriWitnessGeneratorDal

open Upsert

/-- The row of a batch. -/
def rowOf (table : List WitnessInputRow) (blockNumber : ℕ) : Option WitnessInputRow :=
  row WitnessInputRow.l1BatchNumber table blockNumber

/-- `UPDATE witness_inputs_fri ... WHERE l1_batch_number = ...` -/
def updateRow (table : List WitnessInputRow) (blockNumber : ℕ)
    (f : WitnessInputRow → WitnessInputRow) : List WitnessInputRow :=
  modify WitnessInputRow.l1BatchNumber table blockNumber f

/-- `ON CONFLICT (l1_batch_number) DO NOTHING` -/
def saveWitnessInputs (table : List WitnessInputRow) (blockNumber : ℕ) (objectKey : String)
    (protocolVersionId : FriProtocolVersionId) : List WitnessInputRow :=
  upsert WitnessInputRow.l1BatchNumber (fun old _ => old) table
    ⟨blockNumber, objectKey, some protocolVersionId, .queued, 0, none, none⟩

/-- The condition of the inner `SELECT`; a missing version is not in the list. -/
def isPickable (lastL1BatchToProcess : ℕ) (protocolVersions : List FriProtocolVersionId)
    (row : WitnessInputRow) : Bool :=
  row.l1BatchNumber ≤ lastL1BatchToProcess && row.status = .queued &&
    row.protocolVersion.any fun version => version ∈ protocolVersions

/-- The batch that the inner `SELECT` returns. Rows that another transaction has locked are
skipped. -/
def nextBatch (table : List WitnessInputRow) (lastL1BatchToProcess : ℕ)
    (protocolVersions : List FriProtocolVersionId) (locked : List ℕ) : Option ℕ :=
  ((table.filter fun row => isPickable lastL1BatchToProcess protocolVersions row &&
    row.l1BatchNumber ∉ locked).map WitnessInputRow.l1BatchNumber).min?

def pickRow (pickedBy : String) (row : WitnessInputRow) : WitnessInputRow :=
  { row with status := .inProgress, attempts := row.attempts + 1, pickedBy := some pickedBy }

def getNextBasicCircuitWitnessJob (table : List WitnessInputRow) (lastL1BatchToProcess : ℕ)
    (protocolVersions : List FriProtocolVersionId) (pickedBy : String) (locked : List ℕ) :
    Option ℕ × List WitnessInputRow :=
  match nextBatch table lastL1BatchToProcess protocolVersions locked with
  | some blockNumber => (some blockNumber, updateRow table blockNumber (pickRow pickedBy))
  | none => (none, table)

def getBasicCircuitWitnessJobAttempts (table : List WitnessInputRow) (l1BatchNumber : ℕ) :
    Option ℕ :=
  (rowOf table l1BatchNumber).map WitnessInputRow.attempts

def markWitnessJob (table : List WitnessInputRow) (status : FriWitnessJobStatus)
    (blockNumber : ℕ) : List WitnessInputRow :=
  updateRow table blockNumber fun row => { row with status := status }

def markWitnessJobAsSuccessful (table : List WitnessInputRow) (blockNumber : ℕ) :
    List WitnessInputRow :=
  updateRow table blockNumber fun row => { row with status := .successful }

def markWitnessJobFailed (table : List WitnessInputRow) (error : String) (blockNumber : ℕ) :
    List WitnessInputRow :=
  updateRow table blockNumber fun row => { row with status := .failed, error := some error }

/-- Without a row or a version the call panics. -/
def protocolVersionForL1Batch (table : List WitnessInputRow) (l1BatchNumber : ℕ) :
    Option FriProtocolVersionId :=
  (rowOf table l1BatchNumber).bind WitnessInputRow.protocolVersion

/-- The primary key. -/
def Keyed (table : List WitnessInputRow) : Prop :=
  (table.map WitnessInputRow.l1BatchNumber).Nodup

variable {table : List WitnessInputRow}

theorem number_of_rowOf {number : ℕ} {row : WitnessInputRow} (h : rowOf table number = some row) :
    row.l1BatchNumber = number :=
  key_of_row h

theorem Keyed.rowOf_eq (h : Keyed table) {row : WitnessInputRow} (hrow : row ∈ table) :
    rowOf table row.l1BatchNumber = some row :=
  row_of_mem h hrow

theorem Keyed.updateRow (h : Keyed table) {f : WitnessInputRow → WitnessInputRow}
    (hf : ∀ row, (f row).l1BatchNumber = row.l1BatchNumber) (number : ℕ) :
    Keyed (updateRow table number f) := by
  rw [Keyed, FriWitnessGeneratorDal.updateRow, map_key_modify hf]
  exact h

theorem rowOf_updateRow {f : WitnessInputRow → WitnessInputRow}
    (hf : ∀ row, (f row).l1BatchNumber = row.l1BatchNumber) (number number' : ℕ) :
    rowOf (updateRow table number f) number' =
      if number' = number then (rowOf table number').map f else rowOf table number' :=
  row_modify hf table number number'

theorem Keyed.saveWitnessInputs (h : Keyed table) (number : ℕ) (objectKey : String)
    (version : FriProtocolVersionId) : Keyed (saveWitnessInputs table number objectKey version) :=
  nodup_upsert (fun _ _ => rfl) h _

/-- An insertion leaves the rows that are there. -/
theorem rowOf_saveWitnessInputs (number number' : ℕ) (objectKey : String)
    (version : FriProtocolVersionId) :
    rowOf (saveWitnessInputs table number objectKey version) number' =
      if number' = number then
        (rowOf table number').or (some ⟨number, objectKey, some version, .queued, 0, none, none⟩)
      else rowOf table number' := by
  have hrow := @row_upsert _ _ _ WitnessInputRow.l1BatchNumber (fun old _ => old) (fun _ _ => rfl)
    table ⟨number, objectKey, some version, .queued, 0, none, none⟩ number'
  rw [rowOf, FriWitnessGeneratorDal.saveWitnessInputs, hrow]
  by_cases hnumber : number' = number
  · subst hnumber
    rw [if_pos rfl, if_pos rfl, rowOf]
    cases row WitnessInputRow.l1BatchNumber table number' <;> rfl
  · rw [if_neg (Ne.symm hnumber), if_neg hnumber, rowOf]

/-- The batch handed out is the least one that may be picked. -/
theorem nextBatch_eq_some (h : Keyed table) {last : ℕ} {versions : List FriProtocolVersionId}
    {locked : List ℕ} {number : ℕ} (hnext : nextBatch table last versions locked = some number) :
    (∃ row, rowOf table number = some row ∧ isPickable last versions row = true) ∧
      ∀ row ∈ table, isPickable last versions row = true → row.l1BatchNumber ∉ locked →
        number ≤ row.l1BatchNumber := by
  rw [nextBatch, List.min?_eq_some_iff] at hnext
  obtain ⟨hmem, hle⟩ := hnext
  constructor
  · obtain ⟨row, hrow, rfl⟩ := List.mem_map.mp hmem
    obtain ⟨hrow, hcond⟩ := List.mem_filter.mp hrow
    exact ⟨row, h.rowOf_eq hrow, (Bool.and_eq_true_iff.mp hcond).1⟩
  · intro row hrow hpick hfree
    refine hle _ (List.mem_map_of_mem (List.mem_filter.mpr ⟨hrow, ?_⟩))
    simp [hpick, hfree]

end FriWitnessGeneratorDal

namespace FriProtocolVersionsDal

/-- `ON CONFLICT (id) DO NOTHING` -/
def saveProverProtocolVersion (ids : List FriProtocolVersionId) (id : FriProtocolVersionId) :
    List FriProtocolVersionId :=
  if id ∈ ids then ids else ids ++ [id]

theorem mem_saveProverProtocolVersion {ids : List FriProtocolVersionId}
    {id id' : FriProtocolVersionId} :
    id' ∈ saveProverProtocolVersion ids id ↔ id' ∈ ids ∨ id' = id := by
  unfold saveProverProtocolVersion
  split_ifs with h
  · constructor
    · exact .inl
    · rintro (hmem | rfl)
      · exact hmem
      · exact h
  · simp

end FriProtocolVersionsDal

end OlaOs
