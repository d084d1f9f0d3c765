import Mathlib.Data.List.MinMax
import Mathlib.Data.List.Nodup
import Mathlib.Data.List.Sort
import OlaOs.Lib.Transition

/-! The table `prover_jobs_fri`, statement by statement (`dal/src/fri_prover_dal.rs`). Times and the
columns that no statement reads back are left out. -/
namespace OlaOs

inductive FriProofJobStatus where
  | queued
  | inProgress
  | successful
  | failed
  | sentToServer
  | skipped
  deriving DecidableEq

inductive AggregationRound where
  | basicCircuits
  deriving DecidableEq

/-- The columns of the unique index. -/
structure FriProverJobKey where
  l1BatchNumber : ℕ
  aggregationRound : AggregationRound
  circuitId : ℕ
  depth : ℕ
  sequenceNumber : ℕ
  deriving DecidableEq

structure FriProverJob extends FriProverJobKey where
  id : ℕ
  circuitBlobUrl : String
  isNodeFinalProof : Bool
  protocolVersion : ℕ
  status : FriProofJobStatus
  attempts : ℕ := 0
  pickedBy : Option String := none
  proofBlobUrl : Option String := none
  error : Option String := none
  deriving DecidableEq

/-- The rows and the next value of the serial column `id`. -/
structure FriProverJobs where
  rows : List FriProverJob := []
  nextId : ℕ := 1

structure CircuitIdRoundTuple where
  circuitId : ℕ
  aggregationRound : AggregationRound

/-- The arguments of `insert_prover_jobs`. -/
structure InsertProverJobs where
  l1BatchNumber : ℕ
  circuitIdsAndUrls : List (ℕ × String)
  aggregationRound : AggregationRound
  depth : ℕ
  protocolVersionId : ℕ

namespace FriProverJobs

/-- A conflict only sets `updated_at`; the serial number is used up all the same. -/
def insertProverJob (t : FriProverJobs) (key : FriProverJobKey) (circuitBlobUrl : String)
    (isNodeFinalProof : Bool) (protocolVersionId : ℕ) : FriProverJobs :=
  if t.rows.any fun job => job.toFriProverJobKey = key then { t with nextId := t.nextId + 1 }
  else ⟨t.rows ++ [⟨key, t.nextId, circuitBlobUrl, isNodeFinalProof, protocolVersionId, .queued, 0,
    none, none, none⟩], t.nextId + 1⟩

def jobKey (call : InsertProverJobs) (entry : (ℕ × String) × ℕ) : FriProverJobKey :=
  ⟨call.l1BatchNumber, call.aggregationRound, entry.1.1, call.depth, entry.2⟩

def insertProverJobs (t : FriProverJobs) (call : InsertProverJobs) : FriProverJobs :=
  call.circuitIdsAndUrls.zipIdx.foldl (fun t entry =>
    t.insertProverJob (jobKey call entry) entry.1.2 false call.protocolVersionId) t

/-- `UPDATE ... WHERE p` -/
def update (t : FriProverJobs) (p : FriProverJob → Prop) [DecidablePred p]
    (f : FriProverJob → FriProverJob) : FriProverJobs :=
  { t with rows := t.rows.map fun job => if p job then f job else job }

def saveProof (t : FriProverJobs) (id : ℕ) (blobUrl : String) : FriProverJobs :=
  t.update (fun job => job.id = id) fun job =>
    { job with status := .successful, proofBlobUrl := some blobUrl }

def markProofSentToServer (t : FriProverJobs) (blockNumber : ℕ) : FriProverJobs :=
  t.update (fun job => job.l1BatchNumber = blockNumber) fun job =>
    { job with status := .sentToServer }

def saveProofError (t : FriProverJobs) (id : ℕ) (error : String) : FriProverJobs :=
  t.update (fun job => job.id = id) fun job => { job with status := .failed, error := some error }

def pick (t : FriProverJobs) (id : ℕ) (pickedBy : String) : FriProverJobs :=
  t.update (fun job => job.id = id) fun job =>
    { job with status := .inProgress, attempts := job.attempts + 1, pickedBy := some pickedBy }

/-- `ORDER BY l1_batch_number ASC, id ASC`; there is one aggregation round only. -/
def Precedes (a b : FriProverJob) : Prop :=
  a.l1BatchNumber < b.l1BatchNumber ∨ (a.l1BatchNumber = b.l1BatchNumber ∧ a.id ≤ b.id)

instance : DecidableRel Precedes := fun _ _ => inferInstanceAs (Decidable (_ ∨ _))

def isPickable (protocolVersions : List ℕ) (job : FriProverJob) : Bool :=
  job.status = .queued && job.protocolVersion ∈ protocolVersions

/-- The job of `get_next_job`; rows locked by another transaction are skipped. -/
def nextJob (t : FriProverJobs) (protocolVersions : List ℕ) (locked : List ℕ) :
    Option FriProverJob :=
  ((t.rows.filter fun job => isPickable protocolVersions job && job.id ∉ locked).insertionSort
    Precedes).head?

/-- The job of `get_next_job_for_circuit_id_round`: the first one for each circuit and round, and
of these the first that is not locked. -/
def nextJobForCircuitIdRound (t : FriProverJobs) (circuitsToPick : List CircuitIdRoundTuple)
    (protocolVersions : List ℕ) (locked : List ℕ) : Option FriProverJob :=
  let firsts := circuitsToPick.flatMap fun tuple =>
    ((t.rows.filter fun job => isPickable protocolVersions job && job.circuitId = tuple.circuitId &&
      job.aggregationRound = tuple.aggregationRound).insertionSort Precedes).head?.toList
  ((firsts.filter fun job => job.id ∉ locked).insertionSort Precedes).head?

def isProven (job : FriProverJob) : Bool := job.status = .successful || job.status = .skipped

/-- The inner `SELECT MIN(l1_batch_number)`. -/
def leastProvenBlock (t : FriProverJobs) : Option ℕ :=
  ((t.rows.filter isProven).map fun job => job.l1BatchNumber).min?

/-- The rows that `get_least_proven_block_number_not_sent_to_server` may return: `fetch_optional`
takes any row of the batch. -/
def leastProvenRows (t : FriProverJobs) : List FriProverJob :=
  t.rows.filter fun job => t.leastProvenBlock = some job.l1BatchNumber

variable {t : FriProverJobs}

theorem mem_update {p : FriProverJob → Prop} [DecidablePred p] {f : FriProverJob → FriProverJob}
    {job : FriProverJob} : job ∈ (t.update p f).rows ↔
      ∃ old ∈ t.rows, (p old ∧ job = f old) ∨ (¬ p old ∧ job = old) := by
  rw [update, List.mem_map]
  refine exists_congr fun old => and_congr_right fun _ => ?_
  by_cases hp : p old
  · simp [hp, eq_comm]
  · simp [hp, eq_comm]

theorem nextJob_mem {protocolVersions locked : List ℕ} {job : FriProverJob}
    (h : t.nextJob protocolVersions locked = some job) :
    job ∈ t.rows ∧ isPickable protocolVersions job = true := by
  have hmem := List.mem_of_mem_head? h
  rw [List.mem_insertionSort] at hmem
  obtain ⟨hrow, hcond⟩ := List.mem_filter.mp hmem
  exact ⟨hrow, (Bool.and_eq_true_iff.mp hcond).1⟩

theorem nextJobForCircuitIdRound_mem {circuitsToPick : List CircuitIdRoundTuple}
    {protocolVersions locked : List ℕ} {job : FriProverJob}
    (h : t.nextJobForCircuitIdRound circuitsToPick protocolVersions locked = some job) :
    job ∈ t.rows ∧ isPickable protocolVersions job = true := by
  have hmem := List.mem_of_mem_head? h
  rw [List.mem_insertionSort] at hmem
  obtain ⟨tuple, -, hfirst⟩ := List.mem_flatMap.mp (List.mem_of_mem_filter hmem)
  have hhead := List.mem_of_mem_head? (Option.mem_toList.mp hfirst)
  rw [List.mem_insertionSort] at hhead
  obtain ⟨hrow, hcond⟩ := List.mem_filter.mp hhead
  simp only [Bool.and_eq_true] at hcond
  exact ⟨hrow, hcond.1.1⟩

theorem mem_leastProvenRows {job : FriProverJob} (h : job ∈ t.leastProvenRows) :
    job ∈ t.rows ∧ ∃ proven ∈ t.rows, isProven proven = true ∧
      proven.l1BatchNumber = job.l1BatchNumber := by
  obtain ⟨hrow, hleast⟩ := List.mem_filter.mp h
  obtain ⟨proven, hproven, hbatch⟩ := List.mem_map.mp (List.min?_mem (of_decide_eq_true hleast))
  obtain ⟨hmem, hcond⟩ := List.mem_filter.mp hproven
  exact ⟨hrow, proven, hmem, hcond, hbatch⟩

theorem leastProvenBlock_eq {number : ℕ} (hbatch : ∀ job ∈ t.rows, job.l1BatchNumber = number)
    {proven : FriProverJob} (hmem : proven ∈ t.rows) (hproven : isProven proven = true) :
    t.leastProvenBlock = some number := by
  rw [leastProvenBlock, List.min?_eq_some_iff]
  constructor
  · exact List.mem_map.mpr ⟨proven, List.mem_filter.mpr ⟨hmem, hproven⟩, hbatch proven hmem⟩
  · intro b hb
    obtain ⟨job, hjob, rfl⟩ := List.mem_map.mp hb
    exact (hbatch job (List.mem_of_mem_filter hjob)).ge

/-- The unique index, and the serial numbers given out so far. -/
structure Keyed (t : FriProverJobs) : Prop where
  keys : (t.rows.map FriProverJob.toFriProverJobKey).Nodup
  ids : (t.rows.map FriProverJob.id).Nodup
  id_lt : ∀ job ∈ t.rows, job.id < t.nextId

theorem Keyed.eq_of_key (h : t.Keyed) {job job' : FriProverJob} (hjob : job ∈ t.rows)
    (hjob' : job' ∈ t.rows) (heq : job.toFriProverJobKey = job'.toFriProverJobKey) : job = job' :=
  List.inj_on_of_nodup_map h.keys hjob hjob' heq

theorem Keyed.eq_of_id (h : t.Keyed) {job job' : FriProverJob} (hjob : job ∈ t.rows)
    (hjob' : job' ∈ t.rows) (heq : job.id = job'.id) : job = job' :=
  List.inj_on_of_nodup_map h.ids hjob hjob' heq

theorem Keyed.update (h : t.Keyed) (p : FriProverJob → Prop) [DecidablePred p]
    (f : FriProverJob → FriProverJob)
    (hkey : ∀ job, (f job).toFriProverJobKey = job.toFriProverJobKey)
    (hid : ∀ job, (f job).id = job.id) : (t.update p f).Keyed := by
  have hmap {α : Type} (g : FriProverJob → α) (hg : ∀ job, g (f job) = g job) :
      (t.update p f).rows.map g = t.rows.map g := by
    rw [FriProverJobs.update, List.map_map]
    apply List.map_congr_left
    intro job _
    simp only [Function.comp_apply]
    split_ifs
    · exact hg job
    · rfl
  refine ⟨by rw [hmap _ hkey]; exact h.keys, by rw [hmap _ hid]; exact h.ids, ?_⟩
  intro job hjob
  obtain ⟨old, hold, ⟨-, rfl⟩ | ⟨-, rfl⟩⟩ := mem_update.mp hjob
  · rw [hid old]
    exact h.id_lt old hold
  · exact h.id_lt job hold

/-- What inserting jobs with the keys `keys` does to the table. -/
structure Inserted (keys : List FriProverJobKey) (versionId : ℕ) (t t' : FriProverJobs) : Prop where
  keyed : t'.Keyed
  nextId_le : t.nextId ≤ t'.nextId
  old : ∀ job ∈ t.rows, job ∈ t'.rows
  new : ∀ job ∈ t'.rows, job ∈ t.rows ∨ job.toFriProverJobKey ∈ keys ∧ job.status = .queued ∧
    job.protocolVersion = versionId ∧ t.nextId ≤ job.id
  keys_mem : ∀ key ∈ keys, ∃ job ∈ t'.rows, job.toFriProverJobKey = key

theorem insertProverJob_spec (h : t.Keyed) (key : FriProverJobKey) (circuitBlobUrl : String)
    (isNodeFinalProof : Bool) (protocolVersionId : ℕ) : Inserted [key] protocolVersionId t
      (t.insertProverJob key circuitBlobUrl isNodeFinalProof protocolVersionId) := by
  unfold insertProverJob
  split_ifs with hany
  · obtain ⟨job, hjob, heq⟩ := List.any_eq_true.mp hany
    refine ⟨⟨h.keys, h.ids, fun job hjob => (h.id_lt job hjob).trans (Nat.lt_succ_self _)⟩,
      Nat.le_succ _, fun _ hjob => hjob, fun _ hjob => .inl hjob, ?_⟩
    intro key' hkey'
    rw [List.mem_singleton] at hkey'
    exact ⟨job, hjob, by simpa [hkey'] using heq⟩
  · have hfresh : key ∉ t.rows.map FriProverJob.toFriProverJobKey := by
      intro hmem
      obtain ⟨job, hjob, heq⟩ := List.mem_map.mp hmem
      exact hany (List.any_eq_true.mpr ⟨job, hjob, by simp [heq]⟩)
    refine ⟨⟨?_, ?_, ?_⟩, Nat.le_succ _, fun _ hjob => List.mem_append_left _ hjob, ?_, ?_⟩
    · rw [List.map_append, List.map_singleton]
      exact List.nodup_append.mpr ⟨h.keys, List.nodup_singleton _, by
        rintro k hk k' hk' rfl
        obtain rfl := List.mem_singleton.mp hk'
        exact hfresh hk⟩
    · rw [List.map_append, List.map_singleton]
      refine List.nodup_append.mpr ⟨h.ids, List.nodup_singleton _, ?_⟩
      rintro i hi i' hi' rfl
      obtain ⟨job, hjob, hid⟩ := List.mem_map.mp hi
      obtain rfl := List.mem_singleton.mp hi'
      exact absurd (h.id_lt job hjob) (by simp [hid])
    · intro job hjob
      rcases List.mem_append.mp hjob with hjob | hjob
      · exact (h.id_lt job hjob).trans (Nat.lt_succ_self _)
      · obtain rfl := List.mem_singleton.mp hjob
        exact Nat.lt_succ_self _
    · intro job hjob
      rcases List.mem_append.mp hjob with hjob | hjob
      · exact .inl hjob
      · obtain rfl := List.mem_singleton.mp hjob
        exact .inr ⟨List.mem_singleton.mpr rfl, rfl, rfl, le_rfl⟩
    · intro key' hkey'
      obtain rfl := List.mem_singleton.mp hkey'
      exact ⟨_, List.mem_append_right _ (List.mem_singleton.mpr rfl), rfl⟩

theorem Inserted.trans {keys keys' : List FriProverJobKey} {versionId : ℕ} {t' t'' : FriProverJobs}
    (h : Inserted keys versionId t t') (h' : Inserted keys' versionId t' t'') :
    Inserted (keys ++ keys') versionId t t'' where
  keyed := h'.keyed
  nextId_le := h.nextId_le.trans h'.nextId_le
  old job hjob := h'.old job (h.old job hjob)
  new job hjob := by
    rcases h'.new job hjob with hjob | ⟨hkey, hstatus, hversion, hid⟩
    · rcases h.new job hjob with hjob | ⟨hkey, hrest⟩
      · exact .inl hjob
      · exact .inr ⟨List.mem_append_left _ hkey, hrest⟩
    · exact .inr ⟨List.mem_append_right _ hkey, hstatus, hversion, h.nextId_le.trans hid⟩
  keys_mem key hkey := by
    rcases List.mem_append.mp hkey with hkey | hkey
    · obtain ⟨job, hjob, heq⟩ := h.keys_mem key hkey
      exact ⟨job, h'.old job hjob, heq⟩
    · exact h'.keys_mem key hkey

/-- The keys of the jobs that a call inserts. -/
def callKeys (call : InsertProverJobs) : List FriProverJobKey :=
  call.circuitIdsAndUrls.zipIdx.map (jobKey call)

theorem insertProverJobs_spec (h : t.Keyed) (call : InsertProverJobs) :
    Inserted (callKeys call) call.protocolVersionId t (t.insertProverJobs call) := by
  unfold insertProverJobs callKeys
  generalize call.circuitIdsAndUrls.zipIdx = entries
  induction entries generalizing t with
  | nil => exact ⟨h, le_rfl, fun _ hjob => hjob, fun _ hjob => .inl hjob, nofun⟩
  | cons entry entries ih =>
    have hfirst := insertProverJob_spec h (jobKey call entry) entry.1.2 false call.protocolVersionId
    exact hfirst.trans (ih hfirst.keyed)

end FriProverJobs

end OlaOs
