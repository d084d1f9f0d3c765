import OlaOs.Lib.Seq
import OlaOs.Prover.FriProverJobs
import OlaOs.Prover.ProofGeneration

/-! The provers (`queued_job_processor`, `prover_fri`) and the gateway that submits their proofs
(`prover_fri_gateway/src/proof_submitter.rs`), over the table of jobs. -/
namespace OlaOs

open FriProverJobs

/-- The request of `next_submit_proof_request` for the row that the query returned. -/
def nextSubmitProofRequest (blobStore : ℕ → List UInt8) (row : FriProverJob) :
    Except String (ℕ × SubmitProofRequest) :=
  match row.status with
  | .successful => .ok (row.l1BatchNumber, .proof (blobStore row.l1BatchNumber))
  | .skipped => .ok (row.l1BatchNumber, .skippedProofGeneration)
  | _ => .error "Trying to send proof that are not successful status"

/-- The table, the jobs in the hands of the provers, and the batch that the gateway is sending. -/
structure ProverSystem where
  jobs : FriProverJobs := {}
  picked : List ℕ := []
  submitting : Option ℕ := none

inductive ProverAction where
  | insertProverJobs (call : InsertProverJobs)
  | getNextJob (protocolVersions : List ℕ) (pickedBy : String) (locked : List ℕ)
  | getNextJobForCircuitIdRound (circuitsToPick : List CircuitIdRoundTuple)
      (protocolVersions : List ℕ) (pickedBy : String) (locked : List ℕ)
  | saveProof (id : ℕ) (blobUrl : String)
  | saveProofError (id : ℕ) (error : String)
  | nextSubmitProofRequest (blobStore : ℕ → List UInt8) (row : FriProverJob)
  | requestFailed
  | handleResponse

namespace ProverSystem

def pickJob (s : ProverSystem) (pickedBy : String) : Option FriProverJob → ProverSystem
  | some job => { s with jobs := s.jobs.pick job.id pickedBy, picked := job.id :: s.picked }
  | none => s

/-- One step. A prover reports once for a job that it has picked, and the gateway has one request
under way. A step that panics, and one that is not due, leads nowhere. -/
def step (s : ProverSystem) : ProverAction → Option ProverSystem
  | .insertProverJobs call => some { s with jobs := s.jobs.insertProverJobs call }
  | .getNextJob protocolVersions pickedBy locked =>
    some (s.pickJob pickedBy (s.jobs.nextJob protocolVersions locked))
  | .getNextJobForCircuitIdRound circuitsToPick protocolVersions pickedBy locked =>
    some (s.pickJob pickedBy
      (s.jobs.nextJobForCircuitIdRound circuitsToPick protocolVersions locked))
  | .saveProof id blobUrl =>
    if id ∈ s.picked then
      some { s with jobs := s.jobs.saveProof id blobUrl, picked := s.picked.erase id }
    else none
  | .saveProofError id error =>
    if id ∈ s.picked then
      some { s with jobs := s.jobs.saveProofError id error, picked := s.picked.erase id }
    else none
  | .nextSubmitProofRequest blobStore row =>
    if s.submitting = none ∧ row ∈ s.jobs.leastProvenRows then
      (OlaOs.nextSubmitProofRequest blobStore row).toOption.map fun request =>
        { s with submitting := some request.1 }
    else none
  | .requestFailed => if s.submitting.isSome then some { s with submitting := none } else none
  | .handleResponse =>
    match s.submitting with
    | some l1BatchNumber =>
      some { s with jobs := s.jobs.markProofSentToServer l1BatchNumber, submitting := none }
    | none => none

/-- The jobs come from the calls in `calls`. -/
def InsertedBy (calls : Set InsertProverJobs) (_ : ProverSystem) (a : ProverAction) : Prop :=
  ∀ call, a = .insertProverJobs call → call ∈ calls

/-- The states that are reached with these calls, from an empty table. -/
abbrev Reachable (calls : Set InsertProverJobs) : ProverSystem → Prop :=
  Transition.Reaches step (InsertedBy calls) fun s => s = {}

/-- Every job of the batch is `Successful` or `Skipped`. -/
def Complete (s : ProverSystem) (l1BatchNumber : ℕ) : Prop :=
  ∀ job ∈ s.jobs.rows, job.l1BatchNumber = l1BatchNumber →
    job.status = .successful ∨ job.status = .skipped

/-- Only complete batches are submitted and set to `sent_to_server`. -/
structure SubmitsComplete (s : ProverSystem) : Prop where
  noPanic : ∀ blobStore, ∀ row ∈ s.jobs.leastProvenRows, ∃ request,
    OlaOs.nextSubmitProofRequest blobStore row = .ok request
  submitted : ∀ blobStore, ∀ row ∈ s.jobs.leastProvenRows, ∀ request,
    OlaOs.nextSubmitProofRequest blobStore row = .ok request → s.Complete request.1
  marked : ∀ l1BatchNumber, s.submitting = some l1BatchNumber → s.Complete l1BatchNumber

/-- No batch has two jobs. -/
def OneJobPerBatch (calls : Set InsertProverJobs) : Prop :=
  ∀ call ∈ calls, ∀ call' ∈ calls, call.l1BatchNumber = call'.l1BatchNumber →
    ∀ key ∈ callKeys call, ∀ key' ∈ callKeys call', key = key'

variable {calls : Set InsertProverJobs} {s s' : ProverSystem}

theorem nextSubmitProofRequest_ok {blobStore : ℕ → List UInt8} {row : FriProverJob}
    {request : ℕ × SubmitProofRequest}
    (h : OlaOs.nextSubmitProofRequest blobStore row = .ok request) :
    isProven row = true ∧ request.1 = row.l1BatchNumber := by
  unfold OlaOs.nextSubmitProofRequest at h
  cases hstatus : row.status <;> simp only [hstatus] at h <;> cases h <;> simp [isProven, hstatus]

theorem exists_request {row : FriProverJob} (blobStore : ℕ → List UInt8)
    (h : isProven row = true) :
    ∃ request, OlaOs.nextSubmitProofRequest blobStore row = .ok request := by
  unfold isProven at h
  unfold OlaOs.nextSubmitProofRequest
  cases hstatus : row.status <;> simp [hstatus] at h ⊢

/-- All that a step can do. -/
theorem step_cases {a : ProverAction} (h : s.step a = some s') :
    s' = s ∨
    (∃ call, a = .insertProverJobs call ∧ s' = { s with jobs := s.jobs.insertProverJobs call }) ∨
    (∃ job ∈ s.jobs.rows, ∃ pickedBy, job.status = .queued ∧
      s' = { s with jobs := s.jobs.pick job.id pickedBy, picked := job.id :: s.picked }) ∨
    (∃ id ∈ s.picked, ∃ f : FriProverJob → FriProverJob,
      (∀ job, (f job).toFriProverJobKey = job.toFriProverJobKey ∧ (f job).id = job.id) ∧
      s' = { s with
        jobs := s.jobs.update (fun job => job.id = id) f
        picked := s.picked.erase id }) ∨
    (∃ row ∈ s.jobs.leastProvenRows, isProven row = true ∧
      s' = { s with submitting := some row.l1BatchNumber }) ∨
    s' = { s with submitting := none } ∨
    (∃ number, s.submitting = some number ∧
      s' = { s with jobs := s.jobs.markProofSentToServer number, submitting := none }) := by
  have hpick : ∀ pickedBy protocolVersions (next : Option FriProverJob),
      (∀ job, next = some job → job ∈ s.jobs.rows ∧ isPickable protocolVersions job = true) →
      s.pickJob pickedBy next = s ∨ ∃ job ∈ s.jobs.rows, ∃ prover, job.status = .queued ∧
        s.pickJob pickedBy next =
          { s with jobs := s.jobs.pick job.id prover, picked := job.id :: s.picked } := by
    intro pickedBy protocolVersions next hnext
    cases next with
    | none => exact .inl rfl
    | some job =>
      obtain ⟨hjob, hcond⟩ := hnext job rfl
      rw [isPickable, Bool.and_eq_true, decide_eq_true_eq] at hcond
      exact .inr ⟨job, hjob, pickedBy, hcond.1, rfl⟩
  cases a with
  | insertProverJobs call =>
    cases h
    exact .inr (.inl ⟨call, rfl, rfl⟩)
  | getNextJob protocolVersions pickedBy locked =>
    cases h
    rcases hpick pickedBy protocolVersions _ fun job hjob => nextJob_mem hjob with hsame | hjob
    · exact .inl hsame
    · exact .inr (.inr (.inl hjob))
  | getNextJobForCircuitIdRound circuitsToPick protocolVersions pickedBy locked =>
    cases h
    rcases hpick pickedBy protocolVersions _
      fun job hjob => nextJobForCircuitIdRound_mem hjob with hsame | hjob
    · exact .inl hsame
    · exact .inr (.inr (.inl hjob))
  | saveProof id blobUrl =>
    simp only [step, Option.ite_none_right_eq_some, Option.some.injEq] at h
    refine .inr (.inr (.inr (.inl ⟨id, h.1, _, ?_, h.2.symm⟩)))
    exact fun _ => ⟨rfl, rfl⟩
  | saveProofError id error =>
    simp only [step, Option.ite_none_right_eq_some, Option.some.injEq] at h
    refine .inr (.inr (.inr (.inl ⟨id, h.1, _, ?_, h.2.symm⟩)))
    exact fun _ => ⟨rfl, rfl⟩
  | nextSubmitProofRequest blobStore row =>
    simp only [step, Option.ite_none_right_eq_some, Option.map_eq_some_iff] at h
    obtain ⟨⟨-, hrow⟩, request, hrequest, rfl⟩ := h
    rw [Seq.toOption_eq_some] at hrequest
    obtain ⟨hproven, hnumber⟩ := nextSubmitProofRequest_ok hrequest
    exact .inr (.inr (.inr (.inr (.inl ⟨row, hrow, hproven, by rw [hnumber]⟩))))
  | requestFailed =>
    simp only [step, Option.ite_none_right_eq_some, Option.some.injEq] at h
    exact .inr (.inr (.inr (.inr (.inr (.inl h.2.symm)))))
  | handleResponse =>
    simp only [step] at h
    cases hsubmitting : s.submitting with
    | none =>
      rw [hsubmitting] at h
      cases h
    | some number =>
      rw [hsubmitting] at h
      cases h
      exact .inr (.inr (.inr (.inr (.inr (.inr ⟨number, rfl, rfl⟩)))))

/-- Facts of every run: the jobs come from the calls, and a job in a prover's hands is in
progress. -/
structure Inv (calls : Set InsertProverJobs) (s : ProverSystem) : Prop where
  keyed : s.jobs.Keyed
  inserted : ∀ job ∈ s.jobs.rows, ∃ call ∈ calls, job.toFriProverJobKey ∈ callKeys call
  picked_lt : ∀ id ∈ s.picked, id < s.jobs.nextId
  picked_nodup : s.picked.Nodup

/-- With one job per batch, the batch under way stays complete. -/
structure Marked (s : ProverSystem) : Prop where
  picked : ∀ id ∈ s.picked, ∀ job ∈ s.jobs.rows, job.id = id → job.status = .inProgress
  marked : ∀ number, s.submitting = some number →
    s.Complete number ∧ ∃ job ∈ s.jobs.rows, job.l1BatchNumber = number

theorem mem_callKeys {call : InsertProverJobs} {key : FriProverJobKey} (h : key ∈ callKeys call) :
    key.l1BatchNumber = call.l1BatchNumber := by
  obtain ⟨entry, -, rfl⟩ := List.mem_map.mp h
  rfl

/-- With one job per batch, the job of a batch is the only one. -/
theorem Inv.eq_of_batch (h : Inv calls s) (hone : OneJobPerBatch calls) {job job' : FriProverJob}
    (hjob : job ∈ s.jobs.rows) (hjob' : job' ∈ s.jobs.rows)
    (hbatch : job.l1BatchNumber = job'.l1BatchNumber) : job = job' := by
  obtain ⟨call, hcall, hkey⟩ := h.inserted job hjob
  obtain ⟨call', hcall', hkey'⟩ := h.inserted job' hjob'
  have hnumber : call.l1BatchNumber = call'.l1BatchNumber := by
    rw [← mem_callKeys hkey, ← mem_callKeys hkey', hbatch]
  exact h.keyed.eq_of_key hjob hjob' (hone call hcall call' hcall' hnumber _ hkey _ hkey')

/-- An update that keeps the keys and the serial numbers keeps the facts about them. -/
theorem Inv.update (h : Inv calls s) (p : FriProverJob → Prop) [DecidablePred p]
    (f : FriProverJob → FriProverJob)
    (hf : ∀ job, (f job).toFriProverJobKey = job.toFriProverJobKey ∧ (f job).id = job.id)
    {picked : List ℕ} (hlt : ∀ id ∈ picked, id < s.jobs.nextId) (hnodup : picked.Nodup)
    (submitting : Option ℕ) : Inv calls ⟨s.jobs.update p f, picked, submitting⟩ := by
  refine ⟨h.keyed.update p f (fun job => (hf job).1) fun job => (hf job).2, ?_, hlt, hnodup⟩
  intro job hjob
  obtain ⟨old, hold, ⟨-, rfl⟩ | ⟨-, rfl⟩⟩ := mem_update.mp hjob
  · rw [(hf old).1]
    exact h.inserted old hold
  · exact h.inserted job hold

theorem inv_step {a : ProverAction} (h : Inv calls s) (hm : s.Marked)
    (hguard : InsertedBy calls s a) (hstep : s.step a = some s') : Inv calls s' := by
  rcases step_cases hstep with rfl | ⟨call, rfl, rfl⟩ | ⟨job, hjob, pickedBy, hstatus, rfl⟩ |
    ⟨id, hid, f, hf, rfl⟩ | ⟨row, hrow, hproven, rfl⟩ | rfl | ⟨number, hnumber, rfl⟩
  · exact h
  · have hspec := insertProverJobs_spec h.keyed call
    refine ⟨hspec.keyed, ?_, fun id hid => (h.picked_lt id hid).trans_le hspec.nextId_le,
      h.picked_nodup⟩
    intro job hjob
    rcases hspec.new job hjob with hold | ⟨hkey, -⟩
    · exact h.inserted job hold
    · exact ⟨call, hguard call rfl, hkey⟩
  · unfold pick
    refine h.update _ _ ?_ ?_ ?_ _
    · exact fun _ => ⟨rfl, rfl⟩
    · intro id hid
      rcases List.mem_cons.mp hid with rfl | hid
      · exact h.keyed.id_lt job hjob
      · exact h.picked_lt id hid
    · refine List.nodup_cons.mpr ⟨fun hmem => ?_, h.picked_nodup⟩
      rw [hm.picked _ hmem job hjob rfl] at hstatus
      cases hstatus
  · exact h.update _ _ hf (fun id' hid' => h.picked_lt id' (List.mem_of_mem_erase hid'))
      (h.picked_nodup.erase id) _
  · exact ⟨h.keyed, h.inserted, h.picked_lt, h.picked_nodup⟩
  · exact ⟨h.keyed, h.inserted, h.picked_lt, h.picked_nodup⟩
  · unfold markProofSentToServer
    refine h.update _ _ ?_ h.picked_lt h.picked_nodup _
    exact fun _ => ⟨rfl, rfl⟩

/-- The batch under way keeps its rows when no complete job of it is updated. -/
theorem Marked.marked_update (h : s.Marked) {number : ℕ} (hnumber : s.submitting = some number)
    {p : FriProverJob → Prop} [DecidablePred p] {f : FriProverJob → FriProverJob}
    (hf : ∀ job, (f job).l1BatchNumber = job.l1BatchNumber)
    (hp : ∀ job ∈ s.jobs.rows, job.status = .successful ∨ job.status = .skipped → ¬ p job)
    {picked : List ℕ} {submitting : Option ℕ} :
    Complete ⟨s.jobs.update p f, picked, submitting⟩ number ∧
      ∃ job ∈ (s.jobs.update p f).rows, job.l1BatchNumber = number := by
  obtain ⟨hcomplete, first, hfirst, hbatch⟩ := h.marked number hnumber
  have hkept : ∀ job ∈ s.jobs.rows, job.l1BatchNumber = number → ¬ p job :=
    fun job hjob hjobbatch => hp job hjob (hcomplete job hjob hjobbatch)
  refine ⟨?_, first, mem_update.mpr ⟨first, hfirst, .inr ⟨hkept first hfirst hbatch, rfl⟩⟩, hbatch⟩
  intro job hjob hjobbatch
  obtain ⟨old, hold, ⟨heq, rfl⟩ | ⟨-, rfl⟩⟩ := mem_update.mp hjob
  · rw [hf] at hjobbatch
    exact absurd heq (hkept old hold hjobbatch)
  · exact hcomplete job hold hjobbatch

theorem marked_step {a : ProverAction} (hone : OneJobPerBatch calls) (h : Inv calls s)
    (hm : s.Marked) (hguard : InsertedBy calls s a) (hstep : s.step a = some s') : s'.Marked := by
  have hinv := inv_step h hm hguard hstep
  rcases step_cases hstep with rfl | ⟨call, rfl, rfl⟩ | ⟨job, hjob, pickedBy, hstatus, rfl⟩ |
    ⟨id, hid, f, hf, rfl⟩ | ⟨row, hrow, hproven, rfl⟩ | rfl | ⟨number, hnumber, rfl⟩
  · exact hm
  · have hspec := insertProverJobs_spec h.keyed call
    constructor
    · intro id hid job hjob hjobid
      rcases hspec.new job hjob with hold | ⟨-, -, -, hnew⟩
      · exact hm.picked id hid job hold hjobid
      · have hlt := h.picked_lt id hid
        omega
    · intro number hnumber
      obtain ⟨hcomplete, first, hfirst, hbatch⟩ := hm.marked number hnumber
      refine ⟨?_, first, hspec.old first hfirst, hbatch⟩
      intro job hjob hjobbatch
      -- the batch has its job already
      rw [hinv.eq_of_batch hone hjob (hspec.old first hfirst) (hjobbatch.trans hbatch.symm)]
      exact hcomplete first hfirst hbatch
  · constructor
    · intro id hid job' hjob' hid'
      obtain ⟨old, hold, ⟨heq, rfl⟩ | ⟨hne, rfl⟩⟩ := mem_update.mp hjob'
      · rfl
      · rcases List.mem_cons.mp hid with rfl | hid
        · exact absurd hid' hne
        · exact hm.picked id hid job' hold hid'
    · intro number hnumber
      have hp : ∀ old ∈ s.jobs.rows, old.status = .successful ∨ old.status = .skipped →
          old.id ≠ job.id := by
        intro old hold hcomplete heq
        rw [h.keyed.eq_of_id hold hjob heq, hstatus] at hcomplete
        simp at hcomplete
      unfold FriProverJobs.pick
      refine hm.marked_update hnumber ?_ hp
      exact fun _ => rfl
  · constructor
    · intro id' hid' job' hjob' hjobid
      have hne : id' ≠ id := fun heq => h.picked_nodup.not_mem_erase (heq ▸ hid')
      obtain ⟨old, hold, ⟨heq, rfl⟩ | ⟨-, rfl⟩⟩ := mem_update.mp hjob'
      · rw [(hf old).2, heq] at hjobid
        exact absurd hjobid.symm hne
      · exact hm.picked id' (List.mem_of_mem_erase hid') job' hold hjobid
    · intro number hnumber
      have hp : ∀ old ∈ s.jobs.rows, old.status = .successful ∨ old.status = .skipped →
          old.id ≠ id := by
        intro old hold hcomplete heq
        rw [hm.picked id hid old hold heq] at hcomplete
        simp at hcomplete
      exact hm.marked_update hnumber (fun job => congrArg _ (hf job).1) hp
  · refine ⟨hm.picked, ?_⟩
    rintro number ⟨⟩
    have hrow' := (mem_leastProvenRows hrow).1
    refine ⟨?_, row, hrow', rfl⟩
    intro job hjob hbatch
    rw [h.eq_of_batch hone hjob hrow' hbatch]
    simpa [isProven] using hproven
  · exact ⟨hm.picked, nofun⟩
  · refine ⟨?_, nofun⟩
    intro id hid job' hjob' hjobid
    obtain ⟨old, hold, ⟨heq, rfl⟩ | ⟨-, rfl⟩⟩ := mem_update.mp hjob'
    · have hcomplete := (hm.marked number hnumber).1 old hold heq
      rw [hm.picked id hid old hold hjobid] at hcomplete
      simp at hcomplete
    · exact hm.picked id hid job' hold hjobid

theorem submitsComplete_of_marked (hone : OneJobPerBatch calls) (h : Inv calls s) (hm : s.Marked) :
    s.SubmitsComplete := by
  have hproven : ∀ row ∈ s.jobs.leastProvenRows, isProven row = true := by
    intro row hrow
    obtain ⟨hmem, proven, hproven, hcond, hbatch⟩ := mem_leastProvenRows hrow
    rwa [← h.eq_of_batch hone hproven hmem hbatch]
  refine ⟨fun blobStore row hrow => exists_request blobStore (hproven row hrow), ?_,
    fun number hnumber => (hm.marked number hnumber).1⟩
  intro blobStore row hrow request hrequest job hjob hbatch
  rw [(nextSubmitProofRequest_ok hrequest).2] at hbatch
  rw [h.eq_of_batch hone hjob (mem_leastProvenRows hrow).1 hbatch]
  simpa [isProven] using hproven row hrow

/-- With two jobs in a batch, one can be proven while the other is still queued, and the query may
return the queued one. -/
theorem exists_not_submitsComplete {call call' : InsertProverJobs} (hcall : call ∈ calls)
    (hcall' : call' ∈ calls) (hbatch : call.l1BatchNumber = call'.l1BatchNumber)
    {key key' : FriProverJobKey} (hkey : key ∈ callKeys call) (hkey' : key' ∈ callKeys call')
    (hne : key ≠ key') : ∃ s, Reachable calls s ∧ ¬ s.SubmitsComplete := by
  have hstart : Reachable calls {} := .start rfl
  let jobs := (({} : FriProverJobs).insertProverJobs call).insertProverJobs call'
  have hspec := insertProverJobs_spec (t := {}) ⟨List.nodup_nil, List.nodup_nil, nofun⟩ call
  have hspec' := insertProverJobs_spec hspec.keyed call'
  have hinserted : Reachable calls { jobs := jobs } :=
    (hstart.next (.insertProverJobs call) (by rintro _ ⟨⟩; exact hcall) rfl).next
      (.insertProverJobs call') (by rintro _ ⟨⟩; exact hcall') rfl
  -- all jobs are queued and belong to the one batch
  have hrows : ∀ job ∈ jobs.rows, job.l1BatchNumber = call.l1BatchNumber ∧ job.status = .queued ∧
      job.protocolVersion ∈ [call.protocolVersionId, call'.protocolVersionId] := by
    intro job hjob
    rcases hspec'.new job hjob with hjob | ⟨hk, hstatus, hversion, -⟩
    · rcases hspec.new job hjob with hjob | ⟨hk, hstatus, hversion, -⟩
      · cases hjob
      · exact ⟨mem_callKeys hk, hstatus, by simp [hversion]⟩
    · exact ⟨(mem_callKeys hk).trans hbatch.symm, hstatus, by simp [hversion]⟩
  obtain ⟨first, hfirst, hfirstkey⟩ := hspec.keys_mem key hkey
  obtain ⟨second, hsecond, hsecondkey⟩ := hspec'.keys_mem key' hkey'
  have hfirst : first ∈ jobs.rows := hspec'.old first hfirst
  obtain ⟨job, hjob⟩ : ∃ job, jobs.nextJob [call.protocolVersionId, call'.protocolVersionId] [] =
      some job := by
    rw [← Option.isSome_iff_exists, nextJob, List.isSome_head?, ← List.length_pos_iff,
      List.length_insertionSort, List.length_pos_iff]
    intro hnil
    have hmem := List.filter_eq_nil_iff.mp hnil first hfirst
    simp [isPickable, (hrows first hfirst).2.1, (hrows first hfirst).2.2] at hmem
  obtain ⟨hjobmem, -⟩ := nextJob_mem hjob
  obtain ⟨other, hother, hotherne⟩ : ∃ other ∈ jobs.rows, other.id ≠ job.id := by
    by_contra hall
    push Not at hall
    have h1 := hspec'.keyed.eq_of_id hfirst hjobmem (hall first hfirst)
    have h2 := hspec'.keyed.eq_of_id hsecond hjobmem (hall second hsecond)
    rw [← hfirstkey, ← hsecondkey, h1, h2] at hne
    exact hne rfl
  have hpicked : Reachable calls { jobs := jobs.pick job.id "prover", picked := [job.id] } := by
    refine hinserted.next
      (.getNextJob [call.protocolVersionId, call'.protocolVersionId] "prover" []) nofun ?_
    simp only [step, hjob, pickJob]
  have hsaved : Reachable calls
      { jobs := (jobs.pick job.id "prover").saveProof job.id "proof", picked := [] } := by
    refine hpicked.next (.saveProof job.id "proof") nofun ?_
    simp [step]
  refine ⟨_, hsaved, fun hsubmits => ?_⟩
  have hotherrow : other ∈ ((jobs.pick job.id "prover").saveProof job.id "proof").rows :=
    mem_update.mpr ⟨other, mem_update.mpr ⟨other, hother, .inr ⟨hotherne, rfl⟩⟩,
      .inr ⟨hotherne, rfl⟩⟩
  have hleast : ((jobs.pick job.id "prover").saveProof job.id "proof").leastProvenBlock =
      some other.l1BatchNumber := by
    rw [(hrows other hother).1]
    refine leastProvenBlock_eq ?_ (mem_update.mpr ⟨_, mem_update.mpr ⟨job, hjobmem,
      .inl ⟨rfl, rfl⟩⟩, .inl ⟨rfl, rfl⟩⟩) rfl
    intro row hrow
    obtain ⟨row₁, hrow₁, ⟨-, rfl⟩ | ⟨-, rfl⟩⟩ := mem_update.mp hrow <;>
      obtain ⟨row₂, hrow₂, ⟨-, rfl⟩ | ⟨-, rfl⟩⟩ := mem_update.mp hrow₁ <;>
      exact (hrows _ hrow₂).1
  obtain ⟨request, hrequest⟩ := hsubmits.noPanic (fun _ => []) other
    (List.mem_filter.mpr ⟨hotherrow, by simp [hleast]⟩)
  have hproven := (nextSubmitProofRequest_ok hrequest).1
  simp [isProven, (hrows other hother).2.1] at hproven

/-- Only complete batches are submitted, in every state that is reached, exactly if no batch has two
jobs. -/
theorem submitsComplete_iff (calls : Set InsertProverJobs) :
    (∀ s, Reachable calls s → s.SubmitsComplete) ↔ OneJobPerBatch calls := by
  constructor
  · intro hall call hcall call' hcall' hbatch key hkey key' hkey'
    by_contra hne
    obtain ⟨s, hs, hnot⟩ := exists_not_submitsComplete hcall hcall' hbatch hkey hkey' hne
    exact hnot (hall s hs)
  · intro hone s hs
    obtain ⟨hinv, hmarked⟩ := hs.invariant (fun s => Inv calls s ∧ s.Marked)
      (by
        rintro s rfl
        exact ⟨⟨⟨List.nodup_nil, List.nodup_nil, nofun⟩, nofun, nofun, List.nodup_nil⟩,
          ⟨nofun, nofun⟩⟩)
      fun s a s' h hguard hstep =>
        ⟨inv_step h.1 h.2 hguard hstep, marked_step hone h.1 h.2 hguard hstep⟩
    exact submitsComplete_of_marked hone hinv hmarked

/-- Two circuits of batch 1. -/
def sampleCall : InsertProverJobs := ⟨1, [(1, "first"), (2, "second")], .basicCircuits, 0, 1⟩

/-- A prover takes the first job and proves it. -/
def sampleRun : List ProverAction :=
  [.insertProverJobs sampleCall, .getNextJob [1] "prover" [], .saveProof 1 "proof"]

/-- The second job is still queued then. If the query returns its row, the gateway panics, and if it
returns that of the first job, the gateway submits the incomplete batch. -/
theorem submitsComplete_counterexample : ∃ s, Transition.run step {} sampleRun = some s ∧
    Reachable {sampleCall} s ∧
    (∃ row ∈ s.jobs.leastProvenRows, OlaOs.nextSubmitProofRequest (fun _ => []) row =
      .error "Trying to send proof that are not successful status") ∧
    (∃ row ∈ s.jobs.leastProvenRows,
      OlaOs.nextSubmitProofRequest (fun _ => []) row = .ok (1, .proof [])) ∧
    ¬ s.Complete 1 := by
  refine ⟨_, rfl, ?_, ⟨_, List.mem_filter.mpr ⟨List.mem_cons_of_mem _ List.mem_cons_self, rfl⟩,
    rfl⟩, ⟨_, List.mem_filter.mpr ⟨List.mem_cons_self, rfl⟩, rfl⟩, ?_⟩
  · have hinsert : Reachable {sampleCall} _ :=
      .next (.insertProverJobs sampleCall) (.start rfl) (by rintro _ ⟨⟩; rfl) rfl
    have hpicked := hinsert.next (.getNextJob [1] "prover" []) nofun rfl
    exact hpicked.next (.saveProof 1 "proof") nofun rfl
  · intro hcomplete
    rcases hcomplete _ (List.mem_cons_of_mem _ List.mem_cons_self) rfl with hqueued | hqueued
    · exact absurd hqueued (by decide)
    · exact absurd hqueued (by decide)

end ProverSystem

end OlaOs
