import Mathlib.Data.List.Count
import Mathlib.Data.List.Perm.Basic

/-! Walks as lists of steps, and what a reordering of the steps leaves of their ends. -/
namespace Walk

variable {V : Type*}

/-- The steps lead from `a` to `b`. -/
def Leads (a b : V) : List (V × V) → Prop
  | [] => a = b
  | e :: steps => e.1 = a ∧ Leads e.2 b steps

/-- Every vertex is left as often as it is entered, apart from the two ends. -/
theorem Leads.count [DecidableEq V] {a b : V} {steps : List (V × V)} (h : Leads a b steps) (x : V) :
    (steps.map Prod.fst).count x + (if x = b then 1 else 0) =
      (steps.map Prod.snd).count x + if x = a then 1 else 0 := by
  induction steps generalizing a with
  | nil =>
    obtain rfl : a = b := h
    rfl
  | cons e steps ih =>
    obtain ⟨rfl, hrest⟩ := h
    have hcount := ih hrest
    simp only [List.map_cons, List.count_cons, beq_iff_eq, eq_comm (a := x)] at hcount ⊢
    omega

/-- A reordering of the steps that is again a walk has the same ends, unless both are closed. -/
theorem Leads.ends_of_perm {a b a' b' : V} {steps steps' : List (V × V)} (h : Leads a b steps)
    (h' : Leads a' b' steps') (hperm : steps.Perm steps') :
    (a = b → a' = b') ∧ (a ≠ b → a' = a ∧ b' = b) := by
  classical
  have hends (x : V) : (if x = b then 1 else 0) + (if x = a' then 1 else 0) =
      (if x = a then 1 else 0) + if x = b' then 1 else 0 := by
    have hcount := h.count x
    have hcount' := h'.count x
    rw [(hperm.map Prod.fst).count_eq, (hperm.map Prod.snd).count_eq] at hcount
    omega
  constructor
  · rintro rfl
    have := hends a'
    by_contra hne
    simp [hne] at this
  · intro hne
    have hfirst := hends a
    have hlast := hends b
    simp only [hne, hne.symm, ↓reduceIte] at hfirst hlast
    constructor
    · by_contra ha
      rw [if_neg (Ne.symm ha)] at hfirst
      omega
    · by_contra hb
      rw [if_neg (Ne.symm hb)] at hlast
      omega

end Walk
