import Mathlib.Data.List.Range
import Mathlib.Algebra.Order.Group.Nat

/-! The polling loop `JobProcessor::run` (`queued_job_processor/src/lib.rs`). The jobs, and what
becomes of them, come from outside. -/
namespace OlaOs

/-- Where a call of `run` stands: before it asks for a job, in `wait_for_task`, or at its end. An
error comes with its contexts, the outermost one first. -/
inductive RunPhase (JobId : Type) where
  | polling
  | attempts (jobId : JobId)
  | waiting (jobId : JobId)
  | returned (result : Except (List String) Unit)

/-- `slept` lists the pauses since the last job. -/
structure JobRun (JobId : Type) where
  phase : RunPhase JobId
  iterationsLeft : Option ℕ
  backoff : ℕ
  slept : List ℕ

namespace JobRun

variable {JobId : Type}

def pollingIntervalMs : ℕ := 1000

def maxBackoffMs : ℕ := 60000

def backoffMultiplier : ℕ := 2

def start (iterationsLeft : Option ℕ) : JobRun JobId :=
  ⟨.polling, iterationsLeft, pollingIntervalMs, []⟩

/-- The condition of the loop. -/
def continues (r : JobRun JobId) : Bool := r.iterationsLeft.all fun i => 0 < i

/-- The body of the loop, with the answer of `get_next_job`. -/
def poll (r : JobRun JobId) : Except (List String) (Option JobId) → JobRun JobId
  | .error e => { r with phase := .returned (.error ("get_next_job()" :: e)) }
  | .ok (some jobId) =>
    { r with
      phase := .attempts jobId
      backoff := pollingIntervalMs
      iterationsLeft := r.iterationsLeft.map fun i => i - 1
      slept := [] }
  | .ok none =>
    if r.iterationsLeft.isSome then { r with phase := .returned (.ok ()) }
    else { r with
      backoff := min (r.backoff * backoffMultiplier) maxBackoffMs
      slept := r.slept ++ [r.backoff] }

/-- `get_job_attempts`; the number of attempts is only logged. -/
def getJobAttempts (r : JobRun JobId) (jobId : JobId) :
    Except (List String) ℕ → JobRun JobId
  | .error e => { r with phase := .returned (.error ("wait_for_task" :: e)) }
  | .ok _ => { r with phase := .waiting jobId }

/-- The end of `wait_for_task`, with the answer of `save_result`; `save_failure` has none. -/
def jobSaved (r : JobRun JobId) : Except (List String) Unit → JobRun JobId
  | .error e => { r with phase := .returned (.error ("wait_for_task" :: "save_result()" :: e)) }
  | .ok () => { r with phase := .polling }

/-- The pause after `k` polls without a job. -/
def pause (k : ℕ) : ℕ := min (pollingIntervalMs * backoffMultiplier ^ k) maxBackoffMs

theorem pause_succ (k : ℕ) : pause (k + 1) = min (pause k * backoffMultiplier) maxBackoffMs := by
  unfold pause
  rw [pow_succ, ← mul_assoc]
  generalize pollingIntervalMs * backoffMultiplier ^ k = p
  unfold backoffMultiplier maxBackoffMs
  omega

/-- The pauses double from one second to one minute. -/
def BacksOff (r : JobRun JobId) : Prop :=
  r.backoff = pause r.slept.length ∧ r.slept = (List.range r.slept.length).map pause

/-- The call was started with `batchSize`, and has taken `taken` jobs. -/
def Taken (r : JobRun JobId) (batchSize : Option ℕ) (taken : ℕ) : Prop :=
  (batchSize = none ∧ r.iterationsLeft = none) ∨
    ∃ size left, batchSize = some size ∧ r.iterationsLeft = some left ∧ taken + left = size

variable {r : JobRun JobId}

theorem backsOff_start (iterationsLeft : Option ℕ) :
    (start iterationsLeft : JobRun JobId).BacksOff :=
  ⟨rfl, rfl⟩

theorem taken_start (batchSize : Option ℕ) :
    (start batchSize : JobRun JobId).Taken batchSize 0 := by
  cases batchSize with
  | none => exact .inl ⟨rfl, rfl⟩
  | some size => exact .inr ⟨size, size, rfl, rfl, Nat.zero_add size⟩

theorem BacksOff.poll (h : r.BacksOff) (next : Except (List String) (Option JobId)) :
    (r.poll next).BacksOff := by
  obtain ⟨hbackoff, hslept⟩ := h
  rcases next with e | _ | jobId
  · exact ⟨hbackoff, hslept⟩
  · unfold JobRun.poll
    split_ifs
    · exact ⟨hbackoff, hslept⟩
    · constructor
      · simp only [List.length_append, List.length_singleton]
        rw [pause_succ, hbackoff]
      · simp only [List.length_append, List.length_singleton, List.range_succ, List.map_append,
          List.map_singleton]
        rw [← hslept, hbackoff]
  · exact ⟨rfl, rfl⟩

theorem Taken.poll_none {batchSize : Option ℕ} {taken : ℕ} (h : r.Taken batchSize taken) :
    (r.poll (.ok none)).Taken batchSize taken := by
  unfold JobRun.poll
  split_ifs <;> exact h

theorem Taken.poll_some {batchSize : Option ℕ} {taken : ℕ} (h : r.Taken batchSize taken)
    (hcontinues : r.continues = true) (jobId : JobId) :
    (r.poll (.ok (some jobId))).Taken batchSize (taken + 1) := by
  rcases h with ⟨hsize, hleft⟩ | ⟨size, left, hsize, hleft, hsum⟩
  · exact .inl ⟨hsize, by simp [JobRun.poll, hleft]⟩
  · have hpos : 0 < left := by simpa [continues, hleft] using hcontinues
    exact .inr ⟨size, left - 1, hsize, by simp [JobRun.poll, hleft], by omega⟩

/-- A call never takes more jobs than it was started for. -/
theorem Taken.le {size taken : ℕ} (h : r.Taken (some size) taken) : taken ≤ size := by
  rcases h with ⟨hsize, -⟩ | ⟨size', left, hsize, -, hsum⟩
  · cases hsize
  · cases hsize
    omega

end JobRun

end OlaOs
