import OlaOs.Lib.Transition
import OlaOs.Sequencer.SealLogic

/-! The queue between the sequencer and the task that seals miniblocks
(`sequencer/io/mod.rs`, `sequencer/io/mempool.rs`), for every interleaving of the two. -/
namespace OlaOs

/-- A command with its oneshot channel; channels are numbered as they are opened. -/
structure Completable where
  command : MiniblockSealCommand
  completionSender : ℕ

/-- Where `MiniblockSealer::run` is: at the queue, with a command, or past its sealing. -/
inductive SealerTask where
  | polling
  | received (completable : Completable)
  | sealed (completable : Completable)

/-- Who calls `wait_for_all_commands`: a synchronous `submit`, or `seal_l1_batch`. -/
inductive WaitCaller where
  | submit
  | sealL1Batch (updates : UpdatesManager) (blockResult : VmBlockResult)

/-- Where the sequencer is among the calls that use the handle. -/
inductive IoTask where
  | idle
  | sending (completable : Completable)
  | waiting (completionReceiver : Option ℕ) (caller : WaitCaller)
  | sealingL1Batch (updates : UpdatesManager) (blockResult : VmBlockResult)
  | stopped

/-- The two tasks and what they share. `completions` are the channels on which a completion was
sent, `submitted` all commands given to `submit`, and `written` the miniblocks in the database,
with the fictive ones marked. -/
structure SealerSystem where
  isSync : Bool
  capacity : ℕ
  commands : List Completable
  latestCompletionReceiver : Option ℕ
  completions : List ℕ
  sealer : SealerTask
  task : IoTask
  currentL1BatchNumber : ℕ
  currentMiniblockNumber : ℕ
  submitted : List Completable
  written : List (MiniblockSealCommand × Bool)

inductive SealerAction where
  | sealMiniblock (updates : UpdatesManager)
  | send
  | sealL1Batch (updates : UpdatesManager) (blockResult : VmBlockResult)
  | waited
  | writeL1Batch
  | stop
  | recv
  | sealCommand
  | complete

namespace SealerSystem

/-- `MiniblockSealer::new`, and the numbers of `MempoolIO::new`. -/
def new (commandCapacity : ℕ) (l1BatchNumber miniblockNumber : U32) : SealerSystem where
  isSync := commandCapacity = 0
  capacity := max commandCapacity 1
  commands := []
  latestCompletionReceiver := none
  completions := []
  sealer := .polling
  task := .idle
  currentL1BatchNumber := l1BatchNumber
  currentMiniblockNumber := miniblockNumber
  submitted := []
  written := []

/-- `seal_miniblock` up to the `send` of `submit`. -/
def submit (s : SealerSystem) (updates : UpdatesManager) : SealerSystem :=
  let completable : Completable :=
    ⟨updates.sealMiniblockCommand s.currentL1BatchNumber s.currentMiniblockNumber,
      s.submitted.length⟩
  { s with
    latestCompletionReceiver := some completable.completionSender
    task := .sending completable
    submitted := s.submitted ++ [completable] }

/-- `wait_for_all_commands` up to its `await`. -/
def waitForAllCommands (s : SealerSystem) (caller : WaitCaller) : SealerSystem :=
  { s with
    latestCompletionReceiver := none
    task := .waiting s.latestCompletionReceiver caller }

/-- The end of `seal_miniblock`. -/
def miniblockSubmitted (s : SealerSystem) : SealerSystem :=
  { s with
    task := .idle
    currentMiniblockNumber := (s.currentMiniblockNumber + 1) % 2 ^ 32 }

/-- `send` returns when there is room in the queue. -/
def send (s : SealerSystem) (completable : Completable) : SealerSystem :=
  let s := { s with commands := s.commands ++ [completable] }
  if s.isSync then s.waitForAllCommands .submit else s.miniblockSubmitted

/-- A receiver completes once its channel has been used; without one there is nothing to wait
for. -/
def completed (s : SealerSystem) : Option ℕ → Bool
  | none => true
  | some channel => channel ∈ s.completions

/-- What follows `wait_for_all_commands`. -/
def waited (s : SealerSystem) : WaitCaller → SealerSystem
  | .submit => s.miniblockSubmitted
  | .sealL1Batch updates blockResult => { s with task := .sealingL1Batch updates blockResult }

/-- The fictive miniblock of a batch. -/
def fictiveCommand (s : SealerSystem) (updates : UpdatesManager) (blockResult : VmBlockResult) :
    MiniblockSealCommand :=
  (updates.extendFromFictiveTransaction blockResult.blockTipResult).sealMiniblockCommand
    s.currentL1BatchNumber s.currentMiniblockNumber

/-- The rest of `seal_l1_batch`. -/
def writeL1Batch (s : SealerSystem) (updates : UpdatesManager) (blockResult : VmBlockResult) :
    SealerSystem :=
  { s with
    task := .idle
    currentMiniblockNumber := (s.currentMiniblockNumber + 1) % 2 ^ 32
    currentL1BatchNumber := (s.currentL1BatchNumber + 1) % 2 ^ 32
    written := s.written ++ [(s.fictiveCommand updates blockResult, true)] }

def step (s : SealerSystem) : SealerAction → Option SealerSystem
  | .sealMiniblock updates =>
    match s.task with
    | .idle => some (s.submit updates)
    | _ => none
  | .send =>
    match s.task with
    | .sending completable =>
      if s.commands.length < s.capacity then some (s.send completable) else none
    | _ => none
  | .sealL1Batch updates blockResult =>
    match s.task with
    | .idle => some (s.waitForAllCommands (.sealL1Batch updates blockResult))
    | _ => none
  | .waited =>
    match s.task with
    | .waiting completionReceiver caller =>
      if s.completed completionReceiver then some (s.waited caller) else none
    | _ => none
  | .writeL1Batch =>
    match s.task with
    | .sealingL1Batch updates blockResult => some (s.writeL1Batch updates blockResult)
    | _ => none
  | .stop =>
    match s.task with
    | .idle => some { s with task := .stopped }
    | _ => none
  | .recv =>
    match s.sealer, s.commands with
    | .polling, completable :: commands =>
      some { s with
        sealer := .received completable
        commands := commands }
    | _, _ => none
  | .sealCommand =>
    match s.sealer with
    | .received completable => some { s with
        sealer := .sealed completable
        written := s.written ++ [(completable.command, false)] }
    | _ => none
  | .complete =>
    match s.sealer with
    | .sealed completable => some { s with
        sealer := .polling
        completions := s.completions ++ [completable.completionSender] }
    | _ => none

/-- The states of a run, from the numbers that `MempoolIO::new` reads. -/
def Reachable (commandCapacity : ℕ) (l1BatchNumber miniblockNumber : U32) : SealerSystem → Prop :=
  Transition.Reaches step (fun _ _ => True) (· = new commandCapacity l1BatchNumber miniblockNumber)

/-- The commands that the sealer has sealed, in this order. -/
def sealedCommands (s : SealerSystem) : List MiniblockSealCommand :=
  (s.written.filter fun entry => !entry.2).map Prod.fst

def submittedCommands (s : SealerSystem) : List MiniblockSealCommand :=
  s.submitted.map Completable.command

def sealedNumbers (s : SealerSystem) : List ℕ := s.written.map fun entry => entry.1.miniblockNumber

end SealerSystem

/-- The command that the sealer has not reported as completed. -/
def SealerTask.held : SealerTask → List Completable
  | .polling => []
  | .received completable | .sealed completable => [completable]

/-- The command that the sealer has still to seal. -/
def SealerTask.unsealed : SealerTask → List Completable
  | .received completable => [completable]
  | .polling | .sealed _ => []

/-- The command that is sealed and not reported. -/
def SealerTask.unreported : SealerTask → List Completable
  | .sealed completable => [completable]
  | .polling | .received _ => []

theorem SealerTask.unreported_append_unsealed (sealer : SealerTask) :
    sealer.unreported ++ sealer.unsealed = sealer.held := by
  cases sealer <;> rfl

/-- The command that waits for room in the queue. -/
def IoTask.held : IoTask → List Completable
  | .sending completable => [completable]
  | _ => []

@[simp] theorem IoTask.held_idle : IoTask.idle.held = [] := rfl

@[simp] theorem IoTask.held_sending (completable : Completable) :
    (IoTask.sending completable).held = [completable] := rfl

@[simp] theorem IoTask.held_waiting (completionReceiver : Option ℕ) (caller : WaitCaller) :
    (IoTask.waiting completionReceiver caller).held = [] := rfl

/-- The receiver that tells when everything is completed: awaited already, or in the handle. -/
def IoTask.receiver (latest : Option ℕ) : IoTask → Option ℕ
  | .waiting completionReceiver _ => completionReceiver
  | _ => latest

/-- After `take` of the receiver in the handle. -/
def IoTask.taking : IoTask → Bool
  | .waiting _ _ | .sealingL1Batch _ _ => true
  | _ => false

/-- Inside `seal_miniblock`, before the number is increased. -/
def IoTask.submitting : IoTask → Bool
  | .sending _ | .waiting _ .submit => true
  | _ => false

/-- Numbers that follow each other from `first` on, as `u32`. -/
def Consecutive (first : ℕ) (numbers : List ℕ) : Prop :=
  numbers = (List.range' first numbers.length).map (· % 2 ^ 32)

theorem Consecutive.concat {first : ℕ} {numbers : List ℕ} (h : Consecutive first numbers) {n : ℕ}
    (hn : n = (first + numbers.length) % 2 ^ 32) : Consecutive first (numbers ++ [n]) := by
  unfold Consecutive at h ⊢
  rw [List.length_append, List.length_singleton, List.range'_concat, List.map_append, ← h, hn]
  simp

theorem Consecutive.left {first : ℕ} {numbers rest : List ℕ}
    (h : Consecutive first (numbers ++ rest)) : Consecutive first numbers := by
  unfold Consecutive at h ⊢
  rw [List.length_append, ← List.range'_append_1, List.map_append] at h
  exact (List.append_inj h (by simp)).1

namespace SealerSystem

/-- The commands that are submitted and not reported as completed. -/
def inFlight (s : SealerSystem) : List Completable := s.sealer.held ++ s.commands ++ s.task.held

def unsealed (s : SealerSystem) : List Completable := s.sealer.unsealed ++ s.commands ++ s.task.held

/-- The numbers of the miniblocks that are sealed or on their way. -/
def numbers (s : SealerSystem) : List ℕ :=
  s.sealedNumbers ++ s.unsealed.map fun completable => completable.command.miniblockNumber

/-- A receiver belongs to the latest submission; without one everything is completed. -/
def Awaits (s : SealerSystem) : Option ℕ → Prop
  | some channel => channel + 1 = s.submitted.length
  | none => s.inFlight = []

/-- What holds of the two tasks at any time. -/
structure Inv (first : ℕ) (s : SealerSystem) : Prop where
  senders : s.submitted.map Completable.completionSender = List.range s.submitted.length
  order : ∃ done, s.submitted = done ++ s.inFlight ∧
    s.completions = done.map Completable.completionSender ∧
    s.sealedCommands = (done ++ s.sealer.unreported).map Completable.command
  awaits : s.Awaits (s.task.receiver s.latestCompletionReceiver)
  taken : s.task.taking = true → s.latestCompletionReceiver = none
  numbers : Consecutive first s.numbers
  current : (s.currentMiniblockNumber + if s.task.submitting then 1 else 0) % 2 ^ 32 =
    (first + s.numbers.length) % 2 ^ 32
  small : s.currentMiniblockNumber < 2 ^ 32
  capacity : 0 < s.capacity

variable {first : ℕ} {s s' : SealerSystem}

/-- Once the awaited receiver is completed nothing is on its way: completions come in the order of
submission, and the receiver is that of the latest one. -/
theorem Inv.inFlight_eq_nil (h : Inv first s) {completionReceiver : Option ℕ}
    (hawaits : s.Awaits completionReceiver) (hcompleted : s.completed completionReceiver = true) :
    s.inFlight = [] := by
  cases completionReceiver with
  | none => exact hawaits
  | some channel =>
    obtain ⟨done, hsubmitted, hcompletions, -⟩ := h.order
    have hsenders := h.senders
    rw [hsubmitted, List.map_append, List.length_append, List.range_add] at hsenders
    have hdone := (List.append_inj hsenders (by simp)).1
    have hmem : channel ∈ s.completions := of_decide_eq_true hcompleted
    rw [hcompletions, hdone, List.mem_range] at hmem
    have hlatest : channel + 1 = s.submitted.length := hawaits
    rw [hsubmitted, List.length_append] at hlatest
    exact List.length_eq_zero_iff.mp (by omega)

theorem Inv.sealedCommands_eq (h : Inv first s) (hnil : s.inFlight = []) :
    s.sealedCommands = s.submittedCommands := by
  obtain ⟨done, hsubmitted, -, hsealed⟩ := h.order
  have hheld : s.sealer.unreported ++ s.sealer.unsealed = [] := by
    rw [SealerTask.unreported_append_unsealed]
    exact (List.append_eq_nil_iff.mp (List.append_eq_nil_iff.mp hnil).1).1
  rw [hsealed, (List.append_eq_nil_iff.mp hheld).1, submittedCommands, hsubmitted, hnil]

theorem unsealed_eq_nil (hnil : s.inFlight = []) : s.unsealed = [] := by
  obtain ⟨hfirst, htask⟩ := List.append_eq_nil_iff.mp hnil
  obtain ⟨hheld, hcommands⟩ := List.append_eq_nil_iff.mp hfirst
  rw [← SealerTask.unreported_append_unsealed] at hheld
  unfold unsealed
  rw [(List.append_eq_nil_iff.mp hheld).2, hcommands, htask]
  rfl

/-- The next number, when no `seal_miniblock` is in progress. -/
theorem Inv.current_eq (h : Inv first s) (htask : s.task.submitting = false) :
    s.currentMiniblockNumber = (first + s.numbers.length) % 2 ^ 32 := by
  have hcurrent := h.current
  rw [htask] at hcurrent
  rw [← hcurrent]
  exact (Nat.mod_eq_of_lt h.small).symm

theorem Inv.submit (h : Inv first s) (htask : s.task = .idle) (updates : UpdatesManager) :
    Inv first (s.submit updates) := by
  have hheld : s.task.held = [] := by rw [htask]; rfl
  have hcurrent := h.current_eq (by rw [htask]; rfl)
  have hnumbers : (s.submit updates).numbers = s.numbers ++ [s.currentMiniblockNumber] := by
    simp [SealerSystem.numbers, sealedNumbers, unsealed, SealerSystem.submit, hheld,
      UpdatesManager.sealMiniblockCommand]
  obtain ⟨done, hsubmitted, hcompletions, hsealed⟩ := h.order
  refine ⟨?_, ⟨done, ?_, hcompletions, hsealed⟩, ?_, nofun, ?_, ?_, h.small, h.capacity⟩
  · show (s.submitted ++ [_]).map _ = List.range (s.submitted ++ [_]).length
    rw [List.map_append, h.senders, List.length_append, List.length_singleton, List.range_succ]
    rfl
  · show s.submitted ++ [_] = done ++ (s.sealer.held ++ s.commands ++ [_])
    rw [hsubmitted]
    simp [inFlight, hheld]
  · show s.submitted.length + 1 = (s.submitted ++ [_]).length
    simp
  · rw [hnumbers]
    exact h.numbers.concat hcurrent
  · rw [hnumbers]
    show (s.currentMiniblockNumber + 1) % 2 ^ 32 = _
    rw [hcurrent, List.length_append, List.length_singleton]
    omega

theorem awaits_congr (hsubmitted : s'.submitted = s.submitted) (hflight : s'.inFlight = s.inFlight)
    (completionReceiver : Option ℕ) :
    s'.Awaits completionReceiver ↔ s.Awaits completionReceiver := by
  cases completionReceiver <;> simp [Awaits, hsubmitted, hflight]

/-- A step that submits, seals and completes nothing. -/
theorem Inv.frame (h : Inv first s) (hsubmitted : s'.submitted = s.submitted)
    (hflight : s'.inFlight = s.inFlight) (hcompletions : s'.completions = s.completions)
    (hwritten : s'.written = s.written) (hunreported : s'.sealer.unreported = s.sealer.unreported)
    (hunsealed : s'.unsealed = s.unsealed) (hcapacity : s'.capacity = s.capacity)
    (hawaits : s.Awaits (s'.task.receiver s'.latestCompletionReceiver))
    (htaken : s'.task.taking = true → s'.latestCompletionReceiver = none)
    (hnumber : (s'.currentMiniblockNumber + if s'.task.submitting then 1 else 0) % 2 ^ 32 =
      (s.currentMiniblockNumber + if s.task.submitting then 1 else 0) % 2 ^ 32)
    (hsmall : s'.currentMiniblockNumber < 2 ^ 32) : Inv first s' := by
  have hnumbers : s'.numbers = s.numbers := by
    simp [SealerSystem.numbers, sealedNumbers, hwritten, hunsealed]
  refine ⟨?_, ?_, ?_, htaken, ?_, ?_, hsmall, ?_⟩
  · rw [hsubmitted]
    exact h.senders
  · rw [hsubmitted, hflight, hcompletions, hunreported, sealedCommands, hwritten]
    exact h.order
  · exact (awaits_congr hsubmitted hflight _).mpr hawaits
  · rw [hnumbers]
    exact h.numbers
  · rw [hnumbers, ← h.current]
    exact hnumber
  · rw [hcapacity]
    exact h.capacity

/-- `seal_miniblock` returns. -/
theorem Inv.miniblockSubmitted (h : Inv first s) (htask : s.task.submitting = true)
    (hheld : s.task.held = []) (hawaits : s.Awaits s.latestCompletionReceiver) :
    Inv first s.miniblockSubmitted := by
  refine h.frame rfl ?_ rfl rfl rfl ?_ rfl hawaits nofun ?_ (Nat.mod_lt _ (Nat.two_pow_pos 32))
  · simp [inFlight, SealerSystem.miniblockSubmitted, hheld]
  · simp [unsealed, SealerSystem.miniblockSubmitted, hheld]
  · rw [htask]
    show ((s.currentMiniblockNumber + 1) % 2 ^ 32 + 0) % 2 ^ 32 = _
    rw [Nat.add_zero, Nat.mod_mod]
    rfl

/-- `seal_l1_batch` takes the receiver out of the handle. -/
theorem Inv.waitForAllCommands (h : Inv first s) (htask : s.task = .idle)
    (updates : UpdatesManager) (blockResult : VmBlockResult) :
    Inv first (s.waitForAllCommands (.sealL1Batch updates blockResult)) := by
  have hawaits := h.awaits
  rw [htask] at hawaits
  refine h.frame rfl ?_ rfl rfl rfl ?_ rfl hawaits (fun _ => rfl) ?_ h.small
  · simp [inFlight, SealerSystem.waitForAllCommands, htask]
  · simp [unsealed, SealerSystem.waitForAllCommands, htask]
  · rw [htask]
    rfl

/-- The command that is sent is the last one in the queue. -/
theorem Inv.enqueue (h : Inv first s) {completable : Completable}
    (htask : s.task = .sending completable) :
    Inv first { s with
      commands := s.commands ++ [completable]
      task := .waiting s.latestCompletionReceiver .submit
      latestCompletionReceiver := none } := by
  have hawaits := h.awaits
  rw [htask] at hawaits
  refine h.frame rfl ?_ rfl rfl rfl ?_ rfl hawaits (fun _ => rfl) ?_ h.small
  · simp [inFlight, htask]
  · simp [unsealed, htask]
  · rw [htask]
    rfl

theorem Inv.send (h : Inv first s) {completable : Completable}
    (htask : s.task = .sending completable) : Inv first (s.send completable) := by
  have henqueue := h.enqueue htask
  unfold SealerSystem.send
  dsimp only
  split_ifs
  · exact henqueue
  · -- Without waiting the receiver stays in the handle.
    refine henqueue.frame rfl ?_ rfl rfl rfl ?_ rfl henqueue.awaits nofun ?_
      (Nat.mod_lt _ (Nat.two_pow_pos 32))
    · simp [inFlight, SealerSystem.miniblockSubmitted]
    · simp [unsealed, SealerSystem.miniblockSubmitted]
    · show ((s.currentMiniblockNumber + 1) % 2 ^ 32 + 0) % 2 ^ 32 = _
      rw [Nat.add_zero, Nat.mod_mod]
      rfl

/-- What is read from the queue is the next command to be sealed. -/
theorem Inv.recv (h : Inv first s) (hsealer : s.sealer = .polling) {completable : Completable}
    {commands : List Completable} (hcommands : s.commands = completable :: commands) :
    Inv first { s with
      sealer := .received completable
      commands := commands } := by
  refine h.frame rfl ?_ rfl rfl ?_ ?_ rfl h.awaits h.taken rfl h.small
  · simp [inFlight, hsealer, hcommands, SealerTask.held]
  · rw [hsealer]
    rfl
  · simp [unsealed, hsealer, hcommands, SealerTask.unsealed]

/-- `wait_for_all_commands` returns when everything is completed. -/
theorem Inv.waited (h : Inv first s) {completionReceiver : Option ℕ} {caller : WaitCaller}
    (htask : s.task = .waiting completionReceiver caller)
    (hcompleted : s.completed completionReceiver = true) :
    Inv first (s.waited caller) ∧ (s.waited caller).inFlight = [] := by
  have hawaits := h.awaits
  rw [htask] at hawaits
  have hnil := h.inFlight_eq_nil hawaits hcompleted
  have hlatest : s.latestCompletionReceiver = none := h.taken (by rw [htask]; rfl)
  have hnone : s.Awaits s.latestCompletionReceiver := by
    rw [hlatest]
    exact hnil
  cases caller with
  | submit =>
    refine ⟨h.miniblockSubmitted (by rw [htask]; rfl) (by rw [htask]; rfl) hnone, ?_⟩
    simpa [inFlight, htask, SealerSystem.waited, SealerSystem.miniblockSubmitted] using hnil
  | sealL1Batch updates blockResult =>
    refine ⟨h.frame rfl ?_ rfl rfl rfl ?_ rfl hnone (fun _ => hlatest) ?_ h.small, ?_⟩
    · simp [inFlight, SealerSystem.waited, htask, IoTask.held]
    · simp [unsealed, SealerSystem.waited, htask, IoTask.held]
    · rw [htask]
      rfl
    · simpa [inFlight, htask, SealerSystem.waited, IoTask.held] using hnil

/-- The sealed command is the next one in the order of submission. -/
theorem Inv.sealCommand (h : Inv first s) {completable : Completable}
    (hsealer : s.sealer = .received completable) :
    Inv first { s with
      sealer := .sealed completable
      written := s.written ++ [(completable.command, false)] } := by
  have hflight : inFlight { s with
      sealer := .sealed completable
      written := s.written ++ [(completable.command, false)] } = s.inFlight := by
    simp [inFlight, hsealer, SealerTask.held]
  have hnumbers : SealerSystem.numbers { s with
      sealer := .sealed completable
      written := s.written ++ [(completable.command, false)] } = s.numbers := by
    simp [SealerSystem.numbers, sealedNumbers, unsealed, hsealer, SealerTask.unsealed]
  obtain ⟨done, hsubmitted, hcompletions, hsealed⟩ := h.order
  refine ⟨h.senders, ⟨done, ?_, hcompletions, ?_⟩, ?_, h.taken, ?_, ?_, h.small, h.capacity⟩
  · rw [hflight]
    exact hsubmitted
  · rw [hsealer] at hsealed
    show ((s.written ++ [(completable.command, false)]).filter _).map Prod.fst = _
    rw [List.filter_append, List.map_append]
    show s.sealedCommands ++ _ = _
    rw [hsealed]
    simp [SealerTask.unreported]
  · exact (awaits_congr (by rfl) hflight _).mpr h.awaits
  · rw [hnumbers]
    exact h.numbers
  · rw [hnumbers]
    exact h.current

/-- Completions are sent in the order of submission. -/
theorem Inv.complete (h : Inv first s) {completable : Completable}
    (hsealer : s.sealer = .sealed completable) :
    Inv first { s with
      sealer := .polling
      completions := s.completions ++ [completable.completionSender] } := by
  have hnumbers : SealerSystem.numbers { s with
      sealer := .polling
      completions := s.completions ++ [completable.completionSender] } = s.numbers := by
    simp [SealerSystem.numbers, sealedNumbers, unsealed, hsealer, SealerTask.unsealed]
  have hflight : s.inFlight = completable :: (s.commands ++ s.task.held) := by
    simp [inFlight, hsealer, SealerTask.held]
  obtain ⟨done, hsubmitted, hcompletions, hsealed⟩ := h.order
  refine ⟨h.senders, ⟨done ++ [completable], ?_, ?_, ?_⟩, ?_, h.taken, ?_, ?_, h.small,
    h.capacity⟩
  · show s.submitted = _
    rw [hsubmitted, hflight]
    simp [inFlight, SealerTask.held]
  · rw [hcompletions, List.map_append]
    rfl
  · show s.sealedCommands = _
    rw [hsealed, hsealer]
    simp [SealerTask.unreported]
  · have hawaits := h.awaits
    show Awaits _ (s.task.receiver s.latestCompletionReceiver)
    cases hreceiver : s.task.receiver s.latestCompletionReceiver with
    | some channel =>
      rw [hreceiver] at hawaits
      exact hawaits
    | none =>
      rw [hreceiver] at hawaits
      have hnil : s.inFlight = [] := hawaits
      rw [hflight] at hnil
      cases hnil
  · rw [hnumbers]
    exact h.numbers
  · rw [hnumbers]
    exact h.current

/-- The fictive miniblock takes the number after those of all sealed ones. -/
theorem Inv.writeL1Batch (h : Inv first s) {updates : UpdatesManager} {blockResult : VmBlockResult}
    (htask : s.task = .sealingL1Batch updates blockResult) :
    Inv first (s.writeL1Batch updates blockResult) := by
  have hlatest : s.latestCompletionReceiver = none := h.taken (by rw [htask]; rfl)
  have hnil : s.inFlight = [] := by
    have hawaits := h.awaits
    rw [htask] at hawaits
    change s.Awaits s.latestCompletionReceiver at hawaits
    rwa [hlatest] at hawaits
  have hflight : (s.writeL1Batch updates blockResult).inFlight = s.inFlight := by
    simp [inFlight, SealerSystem.writeL1Batch, htask, IoTask.held]
  have hcurrent := h.current_eq (by rw [htask]; rfl)
  have hnumbers : (s.writeL1Batch updates blockResult).numbers =
      s.numbers ++ [s.currentMiniblockNumber] := by
    have hunsealed := unsealed_eq_nil hnil
    have hafter := unsealed_eq_nil (hflight.trans hnil)
    rw [SealerSystem.numbers, SealerSystem.numbers, hunsealed, hafter]
    simp [sealedNumbers, SealerSystem.writeL1Batch, fictiveCommand,
      UpdatesManager.sealMiniblockCommand]
  obtain ⟨done, hsubmitted, hcompletions, hsealed⟩ := h.order
  refine ⟨h.senders, ⟨done, ?_, hcompletions, ?_⟩, ?_, nofun, ?_, ?_,
    Nat.mod_lt _ (Nat.two_pow_pos 32), h.capacity⟩
  · rw [hflight]
    exact hsubmitted
  · show ((s.written ++ [(_, true)]).filter _).map Prod.fst = _
    rw [List.filter_append, List.map_append]
    exact (List.append_nil _).trans hsealed
  · show Awaits _ s.latestCompletionReceiver
    rw [hlatest]
    exact hflight.trans hnil
  · rw [hnumbers]
    exact h.numbers.concat hcurrent
  · rw [hnumbers]
    show ((s.currentMiniblockNumber + 1) % 2 ^ 32 + 0) % 2 ^ 32 = _
    rw [hcurrent, List.length_append, List.length_singleton]
    omega

theorem Inv.new (commandCapacity : ℕ) (l1BatchNumber miniblockNumber : U32) :
    Inv miniblockNumber.val (new commandCapacity l1BatchNumber miniblockNumber) where
  senders := rfl
  order := ⟨[], rfl, rfl, rfl⟩
  awaits := rfl
  taken := nofun
  numbers := rfl
  current := rfl
  small := miniblockNumber.isLt
  capacity := Nat.lt_of_lt_of_le Nat.zero_lt_one (Nat.le_max_right _ _)

theorem Inv.step (h : Inv first s) {a : SealerAction} (hstep : step s a = some s') :
    Inv first s' := by
  cases a with
  | sealMiniblock updates =>
    simp only [SealerSystem.step] at hstep
    split at hstep
    · rename_i htask
      obtain rfl := Option.some.inj hstep
      exact h.submit htask updates
    · cases hstep
  | send =>
    simp only [SealerSystem.step] at hstep
    split at hstep
    · rename_i completable htask
      split_ifs at hstep
      obtain rfl := Option.some.inj hstep
      exact h.send htask
    · cases hstep
  | sealL1Batch updates blockResult =>
    simp only [SealerSystem.step] at hstep
    split at hstep
    · rename_i htask
      obtain rfl := Option.some.inj hstep
      exact h.waitForAllCommands htask updates blockResult
    · cases hstep
  | waited =>
    simp only [SealerSystem.step] at hstep
    split at hstep
    · rename_i completionReceiver caller htask
      split_ifs at hstep with hcompleted
      obtain rfl := Option.some.inj hstep
      exact (h.waited htask hcompleted).1
    · cases hstep
  | writeL1Batch =>
    simp only [SealerSystem.step] at hstep
    split at hstep
    · rename_i updates blockResult htask
      obtain rfl := Option.some.inj hstep
      exact h.writeL1Batch htask
    · cases hstep
  | stop =>
    simp only [SealerSystem.step] at hstep
    split at hstep
    · rename_i htask
      obtain rfl := Option.some.inj hstep
      have hawaits := h.awaits
      have hcurrent := h.current
      rw [htask] at hawaits hcurrent
      refine h.frame rfl ?_ rfl rfl rfl ?_ rfl hawaits nofun ?_ h.small
      · simp [inFlight, htask, IoTask.held]
      · simp [unsealed, htask, IoTask.held]
      · rw [htask]
        rfl
    · cases hstep
  | recv =>
    simp only [SealerSystem.step] at hstep
    split at hstep
    · rename_i completable commands hsealer hcommands
      obtain rfl := Option.some.inj hstep
      exact h.recv hsealer hcommands
    · cases hstep
  | sealCommand =>
    simp only [SealerSystem.step] at hstep
    split at hstep
    · rename_i completable hsealer
      obtain rfl := Option.some.inj hstep
      exact h.sealCommand hsealer
    · cases hstep
  | complete =>
    simp only [SealerSystem.step] at hstep
    split at hstep
    · rename_i completable hsealer
      obtain rfl := Option.some.inj hstep
      exact h.complete hsealer
    · cases hstep

theorem Reachable.inv {commandCapacity : ℕ} {l1BatchNumber miniblockNumber : U32}
    (h : Reachable commandCapacity l1BatchNumber miniblockNumber s) :
    Inv miniblockNumber.val s := by
  refine Transition.Reaches.invariant (Inv miniblockNumber.val) ?_ ?_ h
  · rintro _ rfl
    exact .new commandCapacity l1BatchNumber miniblockNumber
  · intro s a s' hinv _ hstep
    exact hinv.step hstep

end SealerSystem

/-- The steps that need no new call of the sequencer. -/
def SealerAction.internal : SealerAction → Bool
  | .send | .waited | .recv | .sealCommand | .complete => true
  | .sealMiniblock _ | .sealL1Batch _ _ | .writeL1Batch | .stop => false

namespace SealerSystem

/-- How many internal steps are left at most. -/
def remaining (s : SealerSystem) : ℕ :=
  (match s.sealer with
    | .polling => 0
    | .received _ => 2
    | .sealed _ => 1) + 3 * s.commands.length +
  (match s.task with
    | .sending _ => 5
    | .waiting _ _ => 1
    | _ => 0)

/-- Every internal step comes closer to the end and submits nothing. -/
theorem remaining_step {a : SealerAction} (ha : a.internal = true) (hstep : step s a = some s') :
    s'.remaining < s.remaining ∧ s'.submitted = s.submitted := by
  cases a with
  | send =>
    simp only [SealerSystem.step] at hstep
    split at hstep
    · rename_i completable htask
      split_ifs at hstep
      obtain rfl := Option.some.inj hstep
      unfold send
      dsimp only
      split_ifs
      · simp [remaining, waitForAllCommands, htask]
        omega
      · simp [remaining, miniblockSubmitted, htask]
        omega
    · cases hstep
  | waited =>
    simp only [SealerSystem.step] at hstep
    split at hstep
    · rename_i completionReceiver caller htask
      split_ifs at hstep
      obtain rfl := Option.some.inj hstep
      cases caller <;> simp [remaining, waited, miniblockSubmitted, htask]
    · cases hstep
  | recv =>
    simp only [SealerSystem.step] at hstep
    split at hstep
    · rename_i completable commands hsealer hcommands
      obtain rfl := Option.some.inj hstep
      simp [remaining, hsealer, hcommands]
      omega
    · cases hstep
  | sealCommand =>
    simp only [SealerSystem.step] at hstep
    split at hstep
    · rename_i completable hsealer
      obtain rfl := Option.some.inj hstep
      simp [remaining, hsealer]
    · cases hstep
  | complete =>
    simp only [SealerSystem.step] at hstep
    split at hstep
    · rename_i completable hsealer
      obtain rfl := Option.some.inj hstep
      simp [remaining, hsealer]
    · cases hstep
  | sealMiniblock updates => cases ha
  | sealL1Batch updates blockResult => cases ha
  | writeL1Batch => cases ha
  | stop => cases ha

/-- When no internal step is possible, everything submitted is sealed and the sequencer is not
waiting. -/
theorem Inv.drained (h : Inv first s)
    (hnone : ∀ a, a.internal = true → SealerSystem.step s a = none) :
    s.sealedCommands = s.submittedCommands ∧ ∀ completionReceiver caller,
      s.task ≠ .waiting completionReceiver caller := by
  have hpolling : s.sealer = .polling := by
    cases hsealer : s.sealer with
    | polling => rfl
    | received completable =>
      have hstep := hnone .sealCommand rfl
      simp [SealerSystem.step, hsealer] at hstep
    | sealed completable =>
      have hstep := hnone .complete rfl
      simp [SealerSystem.step, hsealer] at hstep
  have hcommands : s.commands = [] := by
    cases hcommands : s.commands with
    | nil => rfl
    | cons completable commands =>
      have hstep := hnone .recv rfl
      simp [SealerSystem.step, hpolling, hcommands] at hstep
  have hheld : s.task.held = [] := by
    cases htask : s.task with
    | sending completable =>
      have hstep := hnone .send rfl
      simp [SealerSystem.step, htask, hcommands, h.capacity] at hstep
    | idle => rfl
    | waiting completionReceiver caller => rfl
    | sealingL1Batch updates blockResult => rfl
    | stopped => rfl
  have hnil : s.inFlight = [] := by
    simp [inFlight, hpolling, hcommands, hheld, SealerTask.held]
  refine ⟨h.sealedCommands_eq hnil, ?_⟩
  intro completionReceiver caller htask
  have hcompleted : s.completed completionReceiver = true := by
    have hawaits := h.awaits
    rw [htask] at hawaits
    cases completionReceiver with
    | none => rfl
    | some channel =>
      obtain ⟨done, hsubmitted, hcompletions, -⟩ := h.order
      rw [hnil, List.append_nil] at hsubmitted
      have hlatest : channel + 1 = s.submitted.length := hawaits
      refine decide_eq_true ?_
      rw [hcompletions, ← hsubmitted, h.senders, List.mem_range]
      omega
  have hstep := hnone .waited rfl
  simp [SealerSystem.step, htask, hcompleted] at hstep

/-- A run of internal steps is bounded and submits nothing. -/
theorem remaining_run (actions : List SealerAction) (hinternal : ∀ a ∈ actions, a.internal = true)
    (hrun : Transition.run step s actions = some s') :
    actions.length + s'.remaining ≤ s.remaining ∧ s'.submitted = s.submitted := by
  induction actions generalizing s with
  | nil =>
    cases hrun
    exact ⟨by simp, rfl⟩
  | cons a actions ih =>
    obtain ⟨s₁, hstep, hrest⟩ := Option.bind_eq_some_iff.mp hrun
    obtain ⟨hlt, hsame⟩ := remaining_step (hinternal a List.mem_cons_self) hstep
    obtain ⟨hle, hrestSame⟩ := ih (fun b hb => hinternal b (List.mem_cons_of_mem a hb)) hrest
    exact ⟨by rw [List.length_cons]; omega, hrestSame.trans hsame⟩

/-- The sealing of miniblocks seen from outside. The sealed commands are the first of the submitted
ones, in their order, and left alone the two tasks seal all of them in finitely many steps; when
`wait_for_all_commands` returns and while a batch is sealed no command is left; and the numbers in
the database follow each other. -/
structure SealsInOrder (first : ℕ) (s : SealerSystem) : Prop where
  order : s.sealedCommands <+: s.submittedCommands
  finite : ∀ actions s', (∀ a ∈ actions, a.internal = true) →
    Transition.run step s actions = some s' → actions.length ≤ s.remaining
  all : ∀ actions s', (∀ a ∈ actions, a.internal = true) →
    Transition.run step s actions = some s' → (∀ a, a.internal = true → step s' a = none) →
    s'.sealedCommands = s.submittedCommands ∧
      ∀ completionReceiver caller, s'.task ≠ .waiting completionReceiver caller
  waited : ∀ s', step s .waited = some s' → s'.sealedCommands = s'.submittedCommands
  beforeBatch : ∀ updates blockResult, s.task = .sealingL1Batch updates blockResult →
    s.sealedCommands = s.submittedCommands
  numbers : Consecutive first s.sealedNumbers

/-- For every capacity of the queue and every interleaving, miniblocks are sealed once, in order and
before their batch. -/
theorem sealsInOrder_of_reachable (commandCapacity : ℕ) (l1BatchNumber miniblockNumber : U32)
    (s : SealerSystem) (h : Reachable commandCapacity l1BatchNumber miniblockNumber s) :
    SealsInOrder miniblockNumber.val s := by
  have hinv := h.inv
  refine ⟨?_, ?_, ?_, ?_, ?_, hinv.numbers.left⟩
  · obtain ⟨done, hsubmitted, -, hsealed⟩ := hinv.order
    refine ⟨(s.sealer.unsealed ++ s.commands ++ s.task.held).map Completable.command, ?_⟩
    rw [hsealed, submittedCommands, hsubmitted, ← List.map_append, inFlight,
      ← SealerTask.unreported_append_unsealed]
    simp
  · intro actions s' hinternal hrun
    have hle := (remaining_run actions hinternal hrun).1
    omega
  · intro actions s' hinternal hrun hnone
    have hinv' := Transition.run_preserves (Inv miniblockNumber.val)
      (fun _ _ _ hs hstep => hs.step hstep) actions hinv hrun
    obtain ⟨hall, htask⟩ := hinv'.drained hnone
    rw [hall, submittedCommands, (remaining_run actions hinternal hrun).2]
    exact ⟨rfl, htask⟩
  · intro s' hstep
    have hinv' := hinv.step hstep
    simp only [SealerSystem.step] at hstep
    split at hstep
    · rename_i completionReceiver caller htask
      split_ifs at hstep with hcompleted
      obtain rfl := Option.some.inj hstep
      exact hinv'.sealedCommands_eq (hinv.waited htask hcompleted).2
    · cases hstep
  · intro updates blockResult htask
    have hawaits := hinv.awaits
    rw [htask] at hawaits
    change s.Awaits s.latestCompletionReceiver at hawaits
    rw [hinv.taken (by rw [htask]; rfl)] at hawaits
    exact hinv.sealedCommands_eq hawaits

/-- Two miniblocks and a batch, with a queue of one command. -/
def sampleActions : List SealerAction :=
  [.sealMiniblock (.new 0 0), .send, .recv, .sealMiniblock (.new 0 0), .send, .sealCommand,
    .complete, .sealL1Batch (.new 0 0) ⟨⟨[], []⟩, {}⟩, .recv, .sealCommand, .complete, .waited,
    .writeL1Batch]

theorem sealsInOrder_sample : ∃ s, Transition.run step (new 1 4 7) sampleActions = some s ∧
    s.sealedNumbers = [7, 8, 9] ∧ SealsInOrder 7 s := by
  refine ⟨_, rfl, rfl, ?_⟩
  exact sealsInOrder_of_reachable 1 4 7 _
    (Transition.reaches_run sampleActions (.start rfl) (fun _ _ => trivial) rfl)

end SealerSystem

end OlaOs
