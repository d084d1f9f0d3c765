import Mathlib.Logic.Basic

/-! Transition systems with guarded actions, and the rule for their invariants. -/
namespace Transition

variable {σ α : Type*}

/-- The states reached from `init` by actions that the guard allows. -/
inductive Reaches (step : σ → α → Option σ) (guard : σ → α → Prop) (init : σ → Prop) :
    σ → Prop where
  | start {s : σ} : init s → Reaches step guard init s
  | next {s s' : σ} (a : α) : Reaches step guard init s → guard s a → step s a = some s' →
      Reaches step guard init s'

variable {step : σ → α → Option σ} {guard : σ → α → Prop} {init : σ → Prop}

/-- A property that holds at the start and that every allowed action keeps. -/
theorem Reaches.invariant (inv : σ → Prop) (hinit : ∀ s, init s → inv s)
    (hstep : ∀ s a s', inv s → guard s a → step s a = some s' → inv s') {s : σ}
    (h : Reaches step guard init s) : inv s := by
  induction h with
  | start hs => exact hinit _ hs
  | next a _ hguard hrun ih => exact hstep _ a _ ih hguard hrun

/-- A weaker guard allows more runs. -/
theorem Reaches.mono {guard' : σ → α → Prop} (hguard : ∀ s a, guard s a → guard' s a) {s : σ}
    (h : Reaches step guard init s) : Reaches step guard' init s := by
  induction h with
  | start hs => exact .start hs
  | next a _ hallowed hrun ih => exact ih.next a (hguard _ a hallowed) hrun

/-- Actions given as a list. -/
def run (step : σ → α → Option σ) : σ → List α → Option σ
  | s, [] => some s
  | s, a :: as => (step s a).bind fun s' => run step s' as

theorem run_append (s : σ) (as bs : List α) :
    run step s (as ++ bs) = (run step s as).bind fun s' => run step s' bs := by
  induction as generalizing s with
  | nil => rfl
  | cons a as ih => simp only [List.cons_append, run, ih, Option.bind_assoc]

/-- A property that the actions of a run keep. -/
theorem run_preserves (inv : σ → Prop) (hstep : ∀ s a s', inv s → step s a = some s' → inv s')
    (as : List α) {s s' : σ} (hs : inv s) (hrun : run step s as = some s') : inv s' := by
  induction as generalizing s with
  | nil =>
    cases hrun
    exact hs
  | cons a as ih =>
    obtain ⟨s₁, hone, hrest⟩ := Option.bind_eq_some_iff.mp hrun
    exact ih (hstep s a s₁ hs hone) hrest

/-- Without a guard every executed list of actions is a run. -/
theorem reaches_run (as : List α) {s s' : σ} (hs : Reaches step guard init s)
    (hguard : ∀ s a, guard s a) (hrun : run step s as = some s') : Reaches step guard init s' := by
  induction as generalizing s with
  | nil =>
    cases hrun
    exact hs
  | cons a as ih =>
    obtain ⟨s₁, hone, hrest⟩ := Option.bind_eq_some_iff.mp hrun
    exact ih (hs.next a (hguard s a) hone) hrest

/-- Actions given as a list, as long as the guard allows them. -/
def runGuarded (step : σ → α → Option σ) (guard : σ → α → Prop) [∀ s a, Decidable (guard s a)] :
    σ → List α → Option σ
  | s, [] => some s
  | s, a :: as => if guard s a then (step s a).bind fun s' => runGuarded step guard s' as else none

theorem reaches_runGuarded [∀ s a, Decidable (guard s a)] (as : List α) {s s' : σ}
    (hs : Reaches step guard init s) (hrun : runGuarded step guard s as = some s') :
    Reaches step guard init s' := by
  induction as generalizing s with
  | nil =>
    cases hrun
    exact hs
  | cons a as ih =>
    unfold runGuarded at hrun
    split at hrun
    · rename_i hguard
      obtain ⟨s₁, hone, hrest⟩ := Option.bind_eq_some_iff.mp hrun
      exact ih (hs.next a hguard hone) hrest
    · cases hrun

end Transition
