import OlaOs.Lib.Seq
import OlaOs.Types.Transaction

/-! Waiting for a timestamp (`sleep_past` in `ola_core/src/sequencer/io/mempool.rs`, and the retries
around it in `sequencer.rs`). A clock is the list of its readings in milliseconds; where a list
ends, the deadline of the caller has passed. -/
namespace OlaOs

/-- The checked arithmetic of `sleep_past`. -/
inductive ClockPanic where
  | subtractWithOverflow
  | multiplyWithOverflow
  deriving DecidableEq

namespace Clock

/-- A reading in seconds. -/
def seconds (millis : ℕ) : U64 := Fin.ofNat _ (millis / 1000)

/-- How long an iteration of the loop sleeps, in milliseconds. -/
def wait (timestamp : U64) (millis : ℕ) : Except ClockPanic ℕ :=
  if timestamp < seconds millis then .error .subtractWithOverflow
  else
    let waitSeconds := timestamp.val - (seconds millis).val
    let waitMillis := 1001 - millis % 1000
    if waitMillis + waitSeconds * 1000 < 2 ^ 64 then .ok (waitMillis + waitSeconds * 1000)
    else .error .multiplyWithOverflow

/-- The loop of `sleep_past`, after the reading `millis`. -/
def sleepLoop (timestamp : U64) (millis : ℕ) : List ℕ → Except ClockPanic (Option U64)
  | [] => do
    let _ ← wait timestamp millis
    .ok none
  | next :: readings => do
    let _ ← wait timestamp millis
    if timestamp < seconds next then .ok (some (seconds next))
    else sleepLoop timestamp next readings

def sleepPast (timestamp : U64) : List ℕ → Except ClockPanic (Option U64)
  | [] => .ok none
  | millis :: readings =>
    if timestamp < seconds millis then .ok (some (seconds millis))
    else sleepLoop timestamp millis readings

/-- The retries of `wait_for_new_batch_params` and `wait_for_new_miniblock_params`, one list of
readings each. When they run out the node has been stopped. -/
def retry (timestamp : U64) : List (List ℕ) → Except ClockPanic (Option U64)
  | [] => .ok none
  | readings :: attempts => do
    match ← sleepPast timestamp readings with
    | some current => .ok (some current)
    | none => retry timestamp attempts

/-- The range of the readings. -/
def InRange (readings : List ℕ) : Prop := ∀ millis ∈ readings, millis < 2 ^ 50

instance : DecidablePred InRange := fun readings =>
  inferInstanceAs (Decidable (∀ millis ∈ readings, millis < 2 ^ 50))

variable {timestamp : U64}

theorem seconds_lt {millis : ℕ} (h : millis < 2 ^ 50) : (seconds millis).val < 2 ^ 50 := by
  simp only [seconds, Fin.ofNat_eq_cast, Fin.val_natCast]
  omega

/-- The loop only subtracts a reading that is not past the timestamp. -/
theorem wait_ok {millis : ℕ} (htimestamp : timestamp.val < 2 ^ 50)
    (h : ¬ timestamp < seconds millis) : ∃ duration, wait timestamp millis = .ok duration := by
  unfold wait
  rw [if_neg h]
  dsimp only
  split_ifs with hfits
  · exact ⟨_, rfl⟩
  · omega

theorem sleepLoop_spec {millis : ℕ} {readings : List ℕ} (htimestamp : timestamp.val < 2 ^ 50)
    (h : ¬ timestamp < seconds millis) (hreadings : InRange readings) :
    ∃ result, sleepLoop timestamp millis readings = .ok result ∧
      ∀ current, result = some current → timestamp < current ∧ current.val < 2 ^ 50 := by
  obtain ⟨duration, hwait⟩ := wait_ok htimestamp h
  -- the reading before the sleep is never past the timestamp
  induction readings generalizing millis duration with
  | nil =>
    refine ⟨none, ?_, nofun⟩
    unfold sleepLoop
    rw [hwait]
    rfl
  | cons next readings ih =>
    obtain ⟨hnext, hrest⟩ := List.forall_mem_cons.mp hreadings
    have hloop : sleepLoop timestamp millis (next :: readings) =
        if timestamp < seconds next then .ok (some (seconds next))
        else sleepLoop timestamp next readings := by
      rw [sleepLoop, hwait]
      rfl
    rw [hloop]
    split_ifs with hlt
    · refine ⟨_, rfl, fun current hcurrent => ?_⟩
      cases hcurrent
      exact ⟨hlt, seconds_lt hnext⟩
    · obtain ⟨next', hwait'⟩ := wait_ok htimestamp hlt
      exact ih hlt hrest next' hwait'

/-- `sleep_past` never overflows, and what it returns is past the timestamp. -/
theorem sleepPast_spec {readings : List ℕ} (htimestamp : timestamp.val < 2 ^ 50)
    (hreadings : InRange readings) : ∃ result, sleepPast timestamp readings = .ok result ∧
      ∀ current, result = some current → timestamp < current ∧ current.val < 2 ^ 50 := by
  cases readings with
  | nil => exact ⟨none, rfl, nofun⟩
  | cons millis readings =>
    obtain ⟨hmillis, hrest⟩ := List.forall_mem_cons.mp hreadings
    simp only [sleepPast]
    split_ifs with hlt
    · refine ⟨_, rfl, fun current hcurrent => ?_⟩
      cases hcurrent
      exact ⟨hlt, seconds_lt hmillis⟩
    · exact sleepLoop_spec htimestamp hlt hrest

theorem retry_spec {attempts : List (List ℕ)} (htimestamp : timestamp.val < 2 ^ 50)
    (hattempts : ∀ readings ∈ attempts, InRange readings) :
    ∃ result, retry timestamp attempts = .ok result ∧
      ∀ current, result = some current → timestamp < current ∧ current.val < 2 ^ 50 := by
  induction attempts with
  | nil => exact ⟨none, rfl, nofun⟩
  | cons readings attempts ih =>
    obtain ⟨hreadings, hrest⟩ := List.forall_mem_cons.mp hattempts
    obtain ⟨result, hsleep, hresult⟩ := sleepPast_spec htimestamp hreadings
    unfold retry
    rw [hsleep]
    cases result with
    | some current => exact ⟨some current, rfl, hresult⟩
    | none => exact ih hrest

theorem retry_some {attempts : List (List ℕ)} (htimestamp : timestamp.val < 2 ^ 50)
    (hattempts : ∀ readings ∈ attempts, InRange readings) {current : U64}
    (h : retry timestamp attempts = .ok (some current)) :
    timestamp < current ∧ current.val < 2 ^ 50 := by
  obtain ⟨result, hretry, hresult⟩ := retry_spec htimestamp hattempts
  rw [h] at hretry
  cases hretry
  exact hresult current rfl

end Clock

end OlaOs
