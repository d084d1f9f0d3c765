import Mathlib.Data.List.Basic
import Mathlib.Data.Nat.Notation

/-! Writes that RocksDB has stalled, and their retries (`storage/src/db.rs`). -/
namespace OlaOs

/-- The kind of error that the code asks for, and the others. -/
inductive RocksDBErrorKind where
  | shutdownInProgress
  | other (code : ℕ)
  deriving DecidableEq

structure RocksDBError where
  kind : RocksDBErrorKind
  message : String
  deriving DecidableEq

/-- The serialized batch that is handed to the database. -/
structure RawWriteBatch where
  data : List UInt8

def RawWriteBatch.sizeInBytes (batch : RawWriteBatch) : ℕ := batch.data.length

def RawWriteBatch.fromData (data : List UInt8) : RawWriteBatch := ⟨data⟩

structure StalledWritesRetries where
  maxBatchSize : ℕ

def StalledWritesRetries.isWriteStallError (error : RocksDBError) : Bool :=
  decide (error.kind = .shutdownInProgress) && error.message.endsWith "stalled writes"

namespace RocksDB

/-- What `write` returns, and the bytes of every call of `write_inner`. -/
structure Written where
  result : Except RocksDBError Unit
  attempts : List (List UInt8)

/-- The loop of `write`, from the attempt numbered `attempt` on; `writeInner` gives the outcome of
every attempt, and `retries` are the intervals left. -/
def writeLoop (writeInner : ℕ → Except RocksDBError Unit) (rawBatchBytes : List UInt8) :
    List ℕ → Bool → ℕ → RawWriteBatch → Written
  | retries, stalledWriteReported, attempt, rawBatch =>
    match writeInner attempt with
    | .ok () => ⟨.ok (), [rawBatch.data]⟩
    | .error err =>
      if StalledWritesRetries.isWriteStallError err && !stalledWriteReported then
        match retries with
        | _retryInterval :: retries =>
          let rest := writeLoop writeInner rawBatchBytes retries true (attempt + 1)
            (.fromData rawBatchBytes)
          ⟨rest.result, rawBatch.data :: rest.attempts⟩
        | [] => ⟨.error err, [rawBatch.data]⟩
      else ⟨.error err, [rawBatch.data]⟩

/-- `RocksDB::write`, where the retry intervals are `intervals`. -/
def write (retries : StalledWritesRetries) (writeInner : ℕ → Except RocksDBError Unit)
    (intervals : List ℕ) (batch : RawWriteBatch) : Written :=
  if batch.sizeInBytes > retries.maxBatchSize then ⟨writeInner 0, [batch.data]⟩
  else writeLoop writeInner batch.data intervals false 0 batch

/-- An attempt that failed because writes are stalled. -/
def Stalled (outcome : Except RocksDBError Unit) : Prop :=
  ∃ err, outcome = .error err ∧ StalledWritesRetries.isWriteStallError err = true

/-- Attempts with the same bytes, up to the first that does not stall, or the last one that the
intervals leave; the result is a success exactly if one comes in time. -/
structure Retried (writeInner : ℕ → Except RocksDBError Unit) (intervals : List ℕ)
    (bytes : List UInt8) (written : Written) : Prop where
  attempts : ∃ last ≤ intervals.length, written.attempts = List.replicate (last + 1) bytes ∧
    (∀ i < last, Stalled (writeInner i)) ∧
    (last < intervals.length → ¬ Stalled (writeInner last)) ∧ written.result = writeInner last
  ok : written.result = .ok () ↔ ∃ last ≤ intervals.length, writeInner last = .ok () ∧
    ∀ i < last, Stalled (writeInner i)

variable {writeInner : ℕ → Except RocksDBError Unit} {bytes : List UInt8}

theorem not_stalled_ok : ¬ Stalled (.ok ()) := by
  rintro ⟨err, herr, -⟩
  cases herr

/-- The success that comes in time is the outcome of the last attempt. -/
theorem Retried.of_attempts {intervals : List ℕ} {written : Written} {last : ℕ}
    (hle : last ≤ intervals.length) (hattempts : written.attempts = List.replicate (last + 1) bytes)
    (hbefore : ∀ i < last, Stalled (writeInner i))
    (hlast : last < intervals.length → ¬ Stalled (writeInner last))
    (hresult : written.result = writeInner last) :
    Retried writeInner intervals bytes written := by
  refine ⟨⟨last, hle, hattempts, hbefore, hlast, hresult⟩, fun hok => ?_, ?_⟩
  · exact ⟨last, hle, hresult.symm.trans hok, hbefore⟩
  · rintro ⟨k, hk, hok, hstalls⟩
    rcases Nat.lt_trichotomy k last with hlt | rfl | hgt
    · exact absurd (hok ▸ hbefore k hlt) not_stalled_ok
    · exact hresult.trans hok
    · exact absurd (hstalls last hgt) (hlast (Nat.lt_of_lt_of_le hgt hk))

/-- Without a retry the loop makes one attempt. -/
theorem writeLoop_of_not_stalled (retries : List ℕ) (reported : Bool) (attempt : ℕ)
    (h : ¬ Stalled (writeInner attempt)) :
    writeLoop writeInner bytes retries reported attempt ⟨bytes⟩ =
      ⟨writeInner attempt, [bytes]⟩ := by
  unfold writeLoop
  cases houtcome : writeInner attempt with
  | ok u => rfl
  | error err =>
    have hnot : StalledWritesRetries.isWriteStallError err = false :=
      Bool.eq_false_iff.mpr fun herr => h ⟨err, houtcome, herr⟩
    simp [hnot]

/-- After a stall has been reported the loop makes one attempt, whatever its outcome. -/
theorem writeLoop_reported (retries : List ℕ) (attempt : ℕ) :
    writeLoop writeInner bytes retries true attempt ⟨bytes⟩ = ⟨writeInner attempt, [bytes]⟩ := by
  unfold writeLoop
  cases houtcome : writeInner attempt with
  | ok u => rfl
  | error err => simp

/-- The first stall is retried once. -/
theorem writeLoop_stalled (retries : List ℕ) (attempt : ℕ) (h : Stalled (writeInner attempt)) :
    writeLoop writeInner bytes retries false attempt ⟨bytes⟩ = match retries with
      | [] => ⟨writeInner attempt, [bytes]⟩
      | _ :: _ => ⟨writeInner (attempt + 1), [bytes, bytes]⟩ := by
  obtain ⟨err, houtcome, hstall⟩ := h
  unfold writeLoop
  rw [houtcome]
  simp only [hstall, Bool.not_false, Bool.and_self, if_true]
  cases retries with
  | nil => rfl
  | cons interval retries =>
    dsimp only
    rw [RawWriteBatch.fromData, writeLoop_reported]

/-- A batch that can be retried is retried as it should be exactly if there are fewer than two
intervals, or one of the first two attempts does not stall. -/
theorem write_retried_iff (retries : StalledWritesRetries)
    (writeInner : ℕ → Except RocksDBError Unit) (intervals : List ℕ) (batch : RawWriteBatch)
    (hsize : batch.sizeInBytes ≤ retries.maxBatchSize) :
    Retried writeInner intervals batch.data (write retries writeInner intervals batch) ↔
      intervals.length < 2 ∨ ¬ (Stalled (writeInner 0) ∧ Stalled (writeInner 1)) := by
  have hwrite : write retries writeInner intervals batch =
      writeLoop writeInner batch.data intervals false 0 ⟨batch.data⟩ := by
    unfold write
    rw [if_neg (by omega)]
  rw [hwrite]
  by_cases hfirst : Stalled (writeInner 0)
  · rw [writeLoop_stalled intervals 0 hfirst]
    cases intervals with
    | nil =>
      refine iff_of_true (.of_attempts (Nat.le_refl 0) rfl (fun i hi => ?_) ?_ rfl) (.inl ?_)
      · exact absurd hi (Nat.not_lt_zero i)
      · exact fun hlt => absurd hlt (Nat.lt_irrefl 0)
      · exact Nat.two_pos
    | cons interval rest =>
      have hbefore : ∀ i < 1, Stalled (writeInner i) := fun i hi => by
        rw [Nat.lt_one_iff.mp hi]
        exact hfirst
      constructor
      · -- two attempts are too few if the second one stalls and an interval is left
        intro h
        obtain ⟨last, -, hattempts, -, hlast, -⟩ := h.attempts
        have hlength := congrArg List.length hattempts
        simp only [List.length_cons, List.length_nil, List.length_replicate] at hlength
        obtain rfl : last = 1 := by omega
        by_cases htwo : (interval :: rest).length < 2
        · exact .inl htwo
        · exact .inr fun hboth => hlast (by omega) hboth.2
      · intro h
        refine .of_attempts (Nat.le_add_left 1 rest.length) rfl hbefore (fun hlt hsecond => ?_) rfl
        rcases h with htwo | hnot
        · omega
        · exact hnot ⟨hfirst, hsecond⟩
  · rw [writeLoop_of_not_stalled intervals false 0 hfirst]
    refine iff_of_true (.of_attempts (Nat.zero_le _) rfl (fun i hi => ?_) (fun _ => hfirst) rfl)
      (.inr fun hboth => hfirst hboth.1)
    exact absurd hi (Nat.not_lt_zero i)

/-- The error that RocksDB returns while writes are stalled. -/
def stallError : RocksDBError := ⟨.shutdownInProgress, "Shutdown in progress: stalled writes"⟩

/-- A write that stalls the given number of times before it succeeds. -/
def stallsFor (stalls : ℕ) (attempt : ℕ) : Except RocksDBError Unit :=
  if attempt < stalls then .error stallError else .ok ()

/-- One stall, with two intervals. -/
theorem write_retried_iff_sample :
    (write ⟨100⟩ (stallsFor 1) [50, 75] ⟨[1, 2]⟩).attempts = [[1, 2], [1, 2]] ∧
      Retried (stallsFor 1) [50, 75] [1, 2] (write ⟨100⟩ (stallsFor 1) [50, 75] ⟨[1, 2]⟩) := by
  refine ⟨by decide +kernel, (write_retried_iff ⟨100⟩ _ _ ⟨[1, 2]⟩ (by decide)).mpr (.inr ?_)⟩
  rintro ⟨-, err, herr, -⟩
  cases herr

/-- Two stalls, with two intervals: the third attempt would succeed and is not made. -/
theorem write_counterexample :
    (write ⟨100⟩ (stallsFor 2) [50, 75] ⟨[1, 2]⟩).attempts = [[1, 2], [1, 2]] ∧
      (write ⟨100⟩ (stallsFor 2) [50, 75] ⟨[1, 2]⟩).result = .error stallError ∧
      ¬ Retried (stallsFor 2) [50, 75] [1, 2] (write ⟨100⟩ (stallsFor 2) [50, 75] ⟨[1, 2]⟩) := by
  have hresult : (write ⟨100⟩ (stallsFor 2) [50, 75] ⟨[1, 2]⟩).result = .error stallError := by
    decide +kernel
  have hstall : Stalled (.error stallError) := ⟨stallError, rfl, by decide +kernel⟩
  refine ⟨by decide +kernel, hresult, fun h => ?_⟩
  have hok := h.ok.mpr ⟨2, Nat.le_refl 2, rfl, fun i hi => ?_⟩
  · rw [hresult] at hok
    cases hok
  · unfold stallsFor
    rw [if_pos hi]
    exact hstall

end RocksDB

end OlaOs
