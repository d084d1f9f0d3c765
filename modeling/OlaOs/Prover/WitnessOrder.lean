import Mathlib.Data.List.Sort
import OlaOs.Prover.WitnessRuns

/-! In which order a generator takes its batches while no other one takes any. -/
namespace OlaOs

open FriWitnessGeneratorDal FriProtocolVersionsDal

namespace FriWitnessGeneratorDal

/-- The batches that may be picked, the least one first. -/
def pickableBatches (table : List WitnessInputRow) (lastL1BatchToProcess : ℕ)
    (protocolVersions : List FriProtocolVersionId) : List ℕ :=
  ((table.filter (isPickable lastL1BatchToProcess protocolVersions)).map
    WitnessInputRow.l1BatchNumber).insertionSort (· ≤ ·)

variable {table table' : List WitnessInputRow} {last : ℕ} {versions : List FriProtocolVersionId}

theorem Keyed.mem_pickableBatches (h : Keyed table) {n : ℕ} :
    n ∈ pickableBatches table last versions ↔
      ∃ row, rowOf table n = some row ∧ isPickable last versions row = true := by
  rw [pickableBatches, List.mem_insertionSort, List.mem_map]
  constructor
  · rintro ⟨row, hrow, rfl⟩
    obtain ⟨hrow, hpick⟩ := List.mem_filter.mp hrow
    exact ⟨row, h.rowOf_eq hrow, hpick⟩
  · rintro ⟨row, hrow, hpick⟩
    exact ⟨row, List.mem_filter.mpr ⟨Upsert.mem_of_row hrow, hpick⟩, number_of_rowOf hrow⟩

theorem Keyed.pairwise_pickableBatches (h : Keyed table) :
    (pickableBatches table last versions).Pairwise (· < ·) := by
  have hsorted := List.pairwise_insertionSort (· ≤ ·) ((table.filter (isPickable last versions)).map
    WitnessInputRow.l1BatchNumber)
  have hnodup : (pickableBatches table last versions).Nodup := by
    rw [pickableBatches, (List.perm_insertionSort _ _).nodup_iff]
    exact h.sublist ((List.filter_sublist).map _)
  exact (hsorted.and hnodup).imp fun hab => lt_of_le_of_ne hab.1 hab.2

/-- The increasing list of the batches that may be picked is the only one. -/
theorem Keyed.pickableBatches_eq (h : Keyed table) {l : List ℕ} (hl : l.Pairwise (· < ·))
    (hmem : ∀ n, n ∈ l ↔ ∃ row, rowOf table n = some row ∧ isPickable last versions row = true) :
    pickableBatches table last versions = l := by
  refine List.Perm.eq_of_pairwise (fun a b _ _ hab hba => absurd hab (lt_asymm hba))
    h.pairwise_pickableBatches hl ?_
  rw [List.perm_ext_iff_of_nodup (h.pairwise_pickableBatches.imp ne_of_lt) (hl.imp ne_of_lt)]
  exact fun n => h.mem_pickableBatches.trans (hmem n).symm

/-- Without locks the first of them is handed out. -/
theorem Keyed.nextBatch_eq (h : Keyed table) :
    nextBatch table last versions [] = (pickableBatches table last versions).head? := by
  cases hnext : nextBatch table last versions [] with
  | none =>
    have hempty : pickableBatches table last versions = [] := by
      rw [List.eq_nil_iff_forall_not_mem]
      intro n hn
      obtain ⟨row, hrow, hpick⟩ := h.mem_pickableBatches.mp hn
      rw [nextBatch, List.min?_eq_none_iff, List.map_eq_nil_iff, List.filter_eq_nil_iff] at hnext
      exact hnext row (Upsert.mem_of_row hrow) (by simp [hpick])
    rw [hempty]
    rfl
  | some n =>
    obtain ⟨hmem, hle⟩ := nextBatch_eq_some h hnext
    have hn := h.mem_pickableBatches.mpr hmem
    have hsorted : (pickableBatches table last versions).Pairwise (· < ·) :=
      h.pairwise_pickableBatches
    cases hl : pickableBatches table last versions with
    | nil =>
      rw [hl] at hn
      cases hn
    | cons first rest =>
      rw [hl] at hn hsorted
      rcases List.mem_cons.mp hn with rfl | hrest
      · rfl
      · obtain ⟨row, hrow, hpick⟩ := h.mem_pickableBatches.mp (hl ▸ List.mem_cons_self)
        have hfirst := hle row (Upsert.mem_of_row hrow) hpick List.not_mem_nil
        rw [number_of_rowOf hrow] at hfirst
        exact absurd (List.rel_of_pairwise_cons hsorted hrest) hfirst.not_gt

/-- A batch that is picked leaves the list. -/
theorem Keyed.pickableBatches_pick (h : Keyed table) {n : ℕ} {rest : List ℕ} {podName : String}
    (hl : pickableBatches table last versions = n :: rest) :
    pickableBatches (FriWitnessGeneratorDal.updateRow table n (pickRow podName)) last versions =
      rest := by
  have hsorted : (pickableBatches table last versions).Pairwise (· < ·) :=
    h.pairwise_pickableBatches
  rw [hl] at hsorted
  obtain ⟨hlt, hrest⟩ := List.pairwise_cons.mp hsorted
  refine (h.updateRow (f := pickRow podName) (fun _ => rfl) n).pickableBatches_eq hrest ?_
  intro m
  rw [rowOf_updateRow (f := pickRow podName) (fun _ => rfl)]
  by_cases hne : m = n
  · subst hne
    simp only [if_true, Option.map_eq_some_iff]
    constructor
    · exact fun hm => absurd (hlt m hm) (lt_irrefl m)
    · rintro ⟨_, ⟨row, -, rfl⟩, hpick⟩
      simp [isPickable, pickRow] at hpick
  · rw [if_neg hne, ← h.mem_pickableBatches, hl, List.mem_cons]
    exact ⟨.inr, fun hm => hm.resolve_left hne⟩

end FriWitnessGeneratorDal

namespace BasicWitnessGenerator

variable {table table' : List WitnessInputRow} {w w' : BasicWitnessGenerator} {last : ℕ}
  {versions : List FriProtocolVersionId}

/-- A step that takes no batch leaves the list as it is. -/
theorem Effect.pickableBatches_eq (h : Effect table w w' table') (hkeyed : Keyed table)
    (htaken : w'.taken = w.taken) :
    pickableBatches table' last versions = pickableBatches table last versions := by
  cases h with
  | none _ => rfl
  | pick n row hrow hpick hnew =>
    rw [htaken] at hnew
    simp at hnew
  | finish n row f hmem _ hrow hstatus hf =>
    refine (hkeyed.updateRow hf.number_eq n).pickableBatches_eq hkeyed.pairwise_pickableBatches ?_
    intro m
    rw [hkeyed.mem_pickableBatches, rowOf_updateRow hf.number_eq]
    by_cases hne : m = n
    · subst hne
      have hended : (f row).status ≠ .queued := by
        intro hqueued
        have hfinal := hf.isFinal
        rw [hqueued] at hfinal
        cases hfinal
      simp [hrow, isPickable, hstatus, hended]
    · rw [if_neg hne]

/-- What a step outside of the loop's head keeps. -/
structure Frame (w w' : BasicWitnessGenerator) : Prop where
  config_eq : w'.config = w.config
  protocolVersions_eq : w'.protocolVersions = w.protocolVersions
  batchSize_eq : w'.batchSize = w.batchSize
  taken_eq : w'.taken = w.taken
  stopped : w'.stopped = false → w.stopped = false
  returned : w'.run.phase = .returned (.ok ()) → w.run.phase = .returned (.ok ())

theorem processJobImpl_frame {threshold : ℕ} {result : Except String Unit}
    (h : w.processJobImpl table threshold result = some (w', table')) : Frame w w' := by
  unfold processJobImpl at h
  split at h
  case h_2 => cases h
  split_ifs at h
  · cases h
    exact ⟨rfl, rfl, rfl, rfl, id, id⟩
  · cases result with
    | ok _ =>
      cases h
      exact ⟨rfl, rfl, rfl, rfl, id, id⟩
    | error error =>
      cases h
      exact ⟨rfl, rfl, rfl, rfl, id, id⟩

theorem getJobAttempts_frame {failure : Option String}
    (h : w.getJobAttempts table failure = some (w', table')) : Frame w w' := by
  unfold getJobAttempts at h
  split at h
  case h_2 => cases h
  cases h
  refine ⟨rfl, rfl, rfl, rfl, id, ?_⟩
  cases failure <;> exact nofun

theorem waitForTask_frame (h : w.waitForTask table = some (w', table')) : Frame w w' := by
  unfold waitForTask at h
  split at h
  case h_2 => cases h
  rename_i n m result hphase htask
  cases result with
  | skipped =>
    cases h
    exact ⟨rfl, rfl, rfl, rfl, id, nofun⟩
  | artifacts =>
    simp only at h
    split_ifs at h
    · cases h
      exact ⟨rfl, rfl, rfl, rfl, id, nofun⟩
    · cases h
      exact ⟨rfl, rfl, rfl, rfl, id, id⟩
  | panicked error =>
    cases h
    exact ⟨rfl, rfl, rfl, rfl, id, nofun⟩

end BasicWitnessGenerator

namespace WitnessSystem

open BasicWitnessGenerator

/-- No other generator takes a batch, no batch arrives, and nothing is locked. -/
def TakesAlone (i : ℕ) (_ : WitnessSystem) : WitnessAction → Prop
  | .poll j locked => j = i ∧ locked = []
  | .saveProofGenData _ => False
  | _ => True

/-- A generator that was started with these settings has taken the first batches of `batches`; the
others are still there to be picked. -/
structure Takes (config : FriWitnessGeneratorConfig) (versions : List FriProtocolVersionId)
    (batchSize : Option ℕ) (batches : List ℕ) (table : List WitnessInputRow)
    (w : BasicWitnessGenerator) : Prop where
  config_eq : w.config = config
  versions_eq : w.protocolVersions = versions
  batchSize_eq : w.batchSize = batchSize
  batches_eq : w.taken ++ pickableBatches table config.lastBatch versions = batches
  returned : w.run.phase = .returned (.ok ()) → w.stopped = false →
    ∃ size, batchSize = some size ∧ w.taken = batches.take size

instance (i : ℕ) (s : WitnessSystem) : ∀ a, Decidable (TakesAlone i s a)
  | .poll j locked => inferInstanceAs (Decidable (j = i ∧ locked = []))
  | .saveProofGenData _ => inferInstanceAs (Decidable False)
  | .handleResponse _ => inferInstanceAs (Decidable True)
  | .gatewayExits _ => inferInstanceAs (Decidable True)
  | .start _ _ _ => inferInstanceAs (Decidable True)
  | .stop _ => inferInstanceAs (Decidable True)
  | .exit _ => inferInstanceAs (Decidable True)
  | .processJobImpl _ _ _ => inferInstanceAs (Decidable True)
  | .getJobAttempts _ _ => inferInstanceAs (Decidable True)
  | .waitForTask _ => inferInstanceAs (Decidable True)

variable {config : FriWitnessGeneratorConfig} {versions : List FriProtocolVersionId}
  {batchSize : Option ℕ} {batches : List ℕ} {table table' : List WitnessInputRow}
  {w w' : BasicWitnessGenerator} {s s' : WitnessSystem}

theorem Takes.frame (h : Takes config versions batchSize batches table w) (hframe : Frame w w')
    (heq : pickableBatches table' config.lastBatch versions =
      pickableBatches table config.lastBatch versions) :
    Takes config versions batchSize batches table' w' where
  config_eq := hframe.config_eq.trans h.config_eq
  versions_eq := hframe.protocolVersions_eq.trans h.versions_eq
  batchSize_eq := hframe.batchSize_eq.trans h.batchSize_eq
  batches_eq := by
    rw [hframe.taken_eq, heq]
    exact h.batches_eq
  returned hphase hstopped := by
    rw [hframe.taken_eq]
    exact h.returned (hframe.returned hphase) (hframe.stopped hstopped)

/-- A turn of the loop takes the next batch. -/
theorem Takes.poll (h : Takes config versions batchSize batches table w) (hkeyed : Keyed table)
    (hrun : w.run.Taken w.batchSize w.taken.length) {blobs : KeyedMap String (List UInt8)}
    (hpoll : w.poll table blobs [] = some (w', table')) :
    Takes config versions batchSize batches table' w' := by
  obtain rfl := h.config_eq
  obtain rfl := h.versions_eq
  obtain rfl := h.batchSize_eq
  unfold BasicWitnessGenerator.poll at hpoll
  split at hpoll
  case h_2 => cases hpoll
  rename_i hphase
  split_ifs at hpoll with hleave
  · cases hpoll
    refine ⟨rfl, rfl, rfl, h.batches_eq, fun _ hstopped => ?_⟩
    -- the loop has ended because all its jobs are taken
    have hdone : w.run.continues = false := by
      have hstop : w.stopped = false := hstopped
      simpa [hstop] using hleave
    rcases hrun with ⟨-, hleft⟩ | ⟨size, left, hsize, hleft, hsum⟩
    · simp [JobRun.continues, hleft] at hdone
    · have hzero : left = 0 := by simpa [JobRun.continues, hleft] using hdone
      refine ⟨size, hsize, ?_⟩
      rw [← h.batches_eq, show size = w.taken.length by omega, List.take_left]
  · unfold getNextBasicCircuitWitnessJob at hpoll
    rw [hkeyed.nextBatch_eq] at hpoll
    cases hl : pickableBatches table w.config.lastBatch w.protocolVersions with
    | nil =>
      simp only [hl, List.head?_nil, Option.some.injEq, Prod.mk.injEq] at hpoll
      obtain ⟨rfl, rfl⟩ := hpoll
      refine ⟨rfl, rfl, rfl, h.batches_eq, fun hreturned _ => ?_⟩
      have hbatches := h.batches_eq
      rw [hl, List.append_nil] at hbatches
      rcases hrun with ⟨-, hleft⟩ | ⟨size, left, hsize, hleft, hsum⟩
      · simp [JobRun.poll, hleft, hphase] at hreturned
      · refine ⟨size, hsize, ?_⟩
        show w.taken = batches.take size
        rw [← hbatches, List.take_of_length_le (by omega)]
    | cons n rest =>
      have hbatches := h.batches_eq
      rw [hl, List.append_cons] at hbatches
      have hrest : pickableBatches (updateRow table n (pickRow w.podName)) w.config.lastBatch
        w.protocolVersions = rest := hkeyed.pickableBatches_pick hl
      simp only [hl, List.head?_cons] at hpoll
      split_ifs at hpoll
      · cases hpoll
        exact ⟨rfl, rfl, rfl, by rw [hrest]; exact hbatches, fun hreturned => by cases hreturned⟩
      · cases hpoll
        refine ⟨rfl, rfl, rfl, by rw [hrest]; exact hbatches, fun hreturned => ?_⟩
        rw [hphase] at hreturned
        cases hreturned

/-- A step of one generator other than a turn of its loop. -/
theorem Takes.stepWorker {i j : ℕ} {f : BasicWitnessGenerator →
      Option (BasicWitnessGenerator × List WitnessInputRow)}
    (hf : ∀ w w' table', f w = some (w', table') → Frame w w')
    (heffect : ∀ w w' table', w.Inv s.table → f w = some (w', table') →
      Effect s.table w w' table' ∧ w'.Inv table') (hinv : s.Inv)
    (hw : s.workers[i]? = some w) (h : Takes config versions batchSize batches s.table w)
    (hstep : s.stepWorker j f = some s') : ∃ w', s'.workers[i]? = some w' ∧
      Takes config versions batchSize batches s'.table w' := by
  obtain ⟨⟨v', table'⟩, hnext, rfl⟩ := Option.map_eq_some_iff.mp hstep
  obtain ⟨v, hv, hrun⟩ := Option.bind_eq_some_iff.mp hnext
  split_ifs at hrun
  have hframe := hf v _ _ hrun
  have heq : pickableBatches table' config.lastBatch versions =
      pickableBatches s.table config.lastBatch versions :=
    (heffect v _ _ (hinv.workers v (List.mem_of_getElem? hv)) hrun).1.pickableBatches_eq hinv.keyed
      hframe.taken_eq
  by_cases hij : j = i
  · subst hij
    obtain rfl := Option.some.inj (hv.symm.trans hw)
    refine ⟨v', ?_, h.frame hframe heq⟩
    exact List.getElem?_set_self (List.getElem?_eq_some_iff.mp hw).1
  · refine ⟨w, (List.getElem?_set_ne hij).trans hw, h.frame ?_ heq⟩
    exact ⟨rfl, rfl, rfl, rfl, id, id⟩

theorem Takes.step {i : ℕ} {a : WitnessAction} (hinv : s.Inv) (hw : s.workers[i]? = some w)
    (h : Takes config versions batchSize batches s.table w) (hguard : TakesAlone i s a)
    (hstep : s.step a = some s') : ∃ w', s'.workers[i]? = some w' ∧
      Takes config versions batchSize batches s'.table w' := by
  cases a with
  | handleResponse data =>
    cases hstep
    exact ⟨w, hw, h⟩
  | saveProofGenData j => exact hguard.elim
  | gatewayExits j =>
    cases hstep
    exact ⟨w, hw, h⟩
  | start config' podName' batchSize' =>
    simp only [WitnessSystem.step] at hstep
    split_ifs at hstep
    cases hstep
    exact ⟨w, List.getElem?_append_left (List.getElem?_eq_some_iff.mp hw).1 ▸ hw, h⟩
  | stop j =>
    refine h.stepWorker ?_ ?_ hinv hw hstep
    · rintro v v' table' ⟨⟩
      refine ⟨rfl, rfl, rfl, rfl, fun hstopped => ?_, id⟩
      cases hstopped
    · rintro v v' table' hv ⟨⟩
      exact ⟨.none rfl, hv.flags true v.exited⟩
  | exit j =>
    refine h.stepWorker ?_ ?_ hinv hw hstep
    · rintro v v' table' ⟨⟩
      exact ⟨rfl, rfl, rfl, rfl, id, id⟩
    · rintro v v' table' hv ⟨⟩
      exact ⟨.none rfl, hv.flags v.stopped true⟩
  | poll j locked =>
    obtain ⟨rfl, rfl⟩ := hguard
    obtain ⟨⟨w', table'⟩, hnext, rfl⟩ := Option.map_eq_some_iff.mp hstep
    obtain ⟨v, hv, hrun⟩ := Option.bind_eq_some_iff.mp hnext
    obtain rfl := Option.some.inj (hw.symm.trans hv)
    split_ifs at hrun
    refine ⟨w', List.getElem?_set_self (List.getElem?_eq_some_iff.mp hw).1, ?_⟩
    exact h.poll hinv.keyed (hinv.workers w (List.mem_of_getElem? hw)).taken hrun
  | processJobImpl j threshold result =>
    exact h.stepWorker (fun v v' table' hf => processJobImpl_frame hf)
      (fun v v' table' hv hf => processJobImpl_spec hv hf) hinv hw hstep
  | getJobAttempts j failure =>
    exact h.stepWorker (fun v v' table' hf => getJobAttempts_frame hf)
      (fun v v' table' hv hf => getJobAttempts_spec hv hf) hinv hw hstep
  | waitForTask j =>
    exact h.stepWorker (fun v v' table' hf => waitForTask_frame hf)
      (fun v v' table' hv hf => waitForTask_spec hv hf) hinv hw hstep

/-- A generator that takes batches alone takes the ones that it may take in increasing order, and
stops by itself after as many as it was started for, or when there are no more. -/
theorem Reachable.takesInOrder {s₀ : WitnessSystem} (h : s₀.Reachable) {i : ℕ} {podName : String}
    (hstart : s₀.workers[i]? = some (.start config versions podName batchSize))
    (hrun : Transition.Reaches WitnessSystem.step (TakesAlone i) (fun s => s = s₀) s) :
    ∃ w, s.workers[i]? = some w ∧ Takes config versions batchSize
      (pickableBatches s₀.table config.lastBatch versions) s.table w := by
  have hmain : s.Inv ∧ ∃ w, s.workers[i]? = some w ∧ Takes config versions batchSize
      (pickableBatches s₀.table config.lastBatch versions) s.table w := by
    refine hrun.invariant (fun t => t.Inv ∧ ∃ w, t.workers[i]? = some w ∧
      Takes config versions batchSize (pickableBatches s₀.table config.lastBatch versions)
        t.table w) ?_ ?_
    · rintro _ rfl
      exact ⟨h.inv, _, hstart, rfl, rfl, rfl, List.nil_append _, nofun⟩
    · rintro t a t' ⟨ht, w, hw, htakes⟩ hguard hstep
      exact ⟨inv_step ht hstep, htakes.step ht hw hguard hstep⟩
  exact hmain.2

/-- The statements of the gateway for one batch. -/
def sampleSave (l1BatchNumber : ℕ) : List WitnessAction :=
  [.handleResponse ⟨l1BatchNumber, [], .version0⟩, .saveProofGenData 0, .saveProofGenData 0,
    .saveProofGenData 0]

/-- Three batches arrive out of order, and a generator of two batches starts. -/
def sampleQueued : List WitnessAction :=
  sampleSave 9 ++ sampleSave 7 ++ sampleSave 8 ++ [.start {} "a" (some 2)]

/-- One turn of the loop. -/
def sampleTurn : List WitnessAction :=
  [.poll 0 [], .getJobAttempts 0 none, .processJobImpl 0 50 (.ok ()), .waitForTask 0]

theorem Reachable.takesInOrder_sample : ∃ (s₀ s : WitnessSystem) (w : BasicWitnessGenerator),
    s₀.Reachable ∧ s.workers[0]? = some w ∧ w.taken = [7, 8] ∧
      Takes {} [.version0] (some 2) (pickableBatches s₀.table
        (FriWitnessGeneratorConfig.lastBatch {}) [.version0]) s.table w := by
  have hrun : ((Transition.run WitnessSystem.step {} sampleQueued).bind fun s₀ =>
      (Transition.runGuarded WitnessSystem.step (TakesAlone 0) s₀
        (sampleTurn ++ sampleTurn ++ [.poll 0 []])).bind fun s =>
          s.workers[0]?.map fun w => w.taken) = some [7, 8] := by decide +kernel
  obtain ⟨s₀, hs₀, hrest⟩ := Option.bind_eq_some_iff.mp hrun
  obtain ⟨s, hs, htaken⟩ := Option.bind_eq_some_iff.mp hrest
  obtain ⟨w, hw, htaken⟩ := Option.map_eq_some_iff.mp htaken
  have hreach : s₀.Reachable :=
    Transition.reaches_run sampleQueued (.start rfl) (fun _ _ => trivial) hs₀
  have hstart : s₀.workers[0]? = some (.start {} [.version0] "a" (some 2)) := by
    have heq : (Transition.run WitnessSystem.step {} sampleQueued).bind (fun s => s.workers[0]?) =
        some (.start {} [.version0] "a" (some 2)) := rfl
    rwa [hs₀] at heq
  obtain ⟨w', hw', htakes⟩ := hreach.takesInOrder hstart
    (Transition.reaches_runGuarded _ (.start rfl) hs)
  obtain rfl := Option.some.inj (hw.symm.trans hw')
  exact ⟨s₀, s, w, hreach, hw, htaken, htakes⟩

end WitnessSystem

end OlaOs
