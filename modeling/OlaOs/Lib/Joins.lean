import Mathlib.Data.List.Nodup
import OlaOs.Lib.Seq

/-! Joins of tables as lists of rows, what they are when the right table has a unique key, and rows
that are selected or converted after they were put in order. -/
namespace Joins

variable {α β κ : Type*}

def innerJoin (on : α → β → Bool) (left : List α) (right : List β) : List (α × β) :=
  left.flatMap fun a => (right.filter (on a)).map fun b => (a, b)

/-- A left row without a match stands once, with no right row. -/
def leftJoin (on : α → β → Bool) (left : List α) (right : List β) : List (α × Option β) :=
  left.flatMap fun a => match right.filter (on a) with
    | [] => [(a, none)]
    | matched => matched.map fun b => (a, some b)

/-- Every left row has at most one match. -/
def Unique (on : α → β → Bool) (left : List α) (right : List β) : Prop :=
  ∀ a ∈ left, right.filter (on a) = (right.find? (on a)).toList

variable {on : α → β → Bool} {left : List α} {right : List β}

theorem leftJoin_of_unique (h : Unique on left right) :
    leftJoin on left right = left.map fun a => (a, right.find? (on a)) := by
  rw [leftJoin, List.map_eq_flatMap]
  apply List.flatMap_congr
  intro a ha
  rw [h a ha]
  cases right.find? (on a) <;> rfl

/-- The rows of one key, when the key is unique. -/
theorem filter_eq_find? [DecidableEq κ] {key : β → κ} (h : (right.map key).Nodup) (k : κ)
    (p : β → Bool) : right.filter (fun b => key b = k && p b) =
      (right.find? fun b => key b = k && p b).toList := by
  induction right with
  | nil => rfl
  | cons b right ih =>
    rw [List.map_cons, List.nodup_cons] at h
    by_cases hb : key b = k
    · have hnone : right.filter (fun b => key b = k && p b) = [] := by
        rw [List.filter_eq_nil_iff]
        intro c hc hcond
        simp only [Bool.and_eq_true, decide_eq_true_eq] at hcond
        exact h.1 (hb ▸ hcond.1 ▸ List.mem_map_of_mem hc)
      cases hp : p b with
      | true => simp [hb, hp, hnone]
      | false =>
        have hrest := ih h.2
        simp [hb, hp, hrest]
    · simp [hb, ih h.2]

/-- Sorting and filtering may be exchanged when no two rows stand at one place. -/
theorem filter_mergeSort {le : α → α → Bool}
    (trans : ∀ a b c, le a b → le b c → le a c) (total : ∀ a b, le a b || le b a) {l : List α}
    (hplace : ∀ a ∈ l, ∀ b ∈ l, le a b → le b a → a = b) (p : α → Bool) :
    (l.mergeSort le).filter p = (l.filter p).mergeSort le := by
  have hperm : ((l.mergeSort le).filter p).Perm ((l.filter p).mergeSort le) :=
    ((List.mergeSort_perm l le).filter p).trans (List.mergeSort_perm _ _).symm
  have hl := (List.pairwise_mergeSort trans total l).filter p
  refine hperm.eq_of_pairwise ?_ hl (List.pairwise_mergeSort trans total _)
  intro a b ha hb hab hba
  have ha' := List.mem_mergeSort.mp (List.mem_of_mem_filter ha)
  have hb' := List.mem_of_mem_filter (List.mem_mergeSort.mp hb)
  exact hplace a ha' b hb' hab hba

/-! Conversions of rows that can fail -/

variable {γ δ ε : Type} {f : γ → Except ε δ} {l : List γ}

theorem mapM_eq_ok_iff {l' : List δ} :
    l.mapM f = .ok l' ↔ l.map (fun a => (f a).toOption) = l'.map some := by
  induction l generalizing l' with
  | nil => cases l' <;> simp [pure, Except.pure]
  | cons a l ih =>
    rw [List.mapM_cons, Seq.bind_eq_ok]
    constructor
    · rintro ⟨b, hb, h⟩
      obtain ⟨bs, hbs, h⟩ := Seq.bind_eq_ok.mp h
      cases h
      rw [List.map_cons, List.map_cons, ih.mp hbs, hb]
      rfl
    · intro h
      cases l' with
      | nil => cases h
      | cons b bs =>
        rw [List.map_cons, List.map_cons, List.cons.injEq, Seq.toOption_eq_some] at h
        exact ⟨b, h.1, Seq.bind_eq_ok.mpr ⟨bs, ih.mpr h.2, rfl⟩⟩

theorem exists_mapM_ok (h : ∀ a ∈ l, ∃ b, f a = .ok b) : ∃ l', l.mapM f = .ok l' := by
  induction l with
  | nil => exact ⟨[], rfl⟩
  | cons a l ih =>
    obtain ⟨b, hb⟩ := h a List.mem_cons_self
    obtain ⟨bs, hbs⟩ := ih fun c hc => h c (List.mem_cons_of_mem a hc)
    exact ⟨b :: bs, by rw [List.mapM_cons, hb, hbs]; rfl⟩

/-- Rows may be put in order before or after they are converted. -/
theorem mapM_mergeSort_ok {r : γ → γ → Bool} {s : δ → δ → Bool}
    (hkey : ∀ a ∈ l, ∀ a' ∈ l, ∀ b b', f a = .ok b → f a' = .ok b' → r a a' = s b b')
    (out : List δ) : (l.mergeSort r).mapM f = .ok out ↔
      ∃ l', l.mapM f = .ok l' ∧ out = l'.mergeSort s := by
  have hsorted {l' : List δ} (h : l.mapM f = .ok l') :
      (l.mergeSort r).mapM f = .ok (l'.mergeSort s) := by
    let sO : Option δ → Option δ → Bool := fun b b' =>
      (b.bind fun b => b'.map fun b' => s b b').getD false
    rw [mapM_eq_ok_iff] at h ⊢
    rw [List.map_mergeSort (s := sO), h]
    · symm
      exact List.map_mergeSort fun _ _ _ _ => rfl
    · intro a ha a' ha'
      have hmem {c : γ} (hc : c ∈ l) : ∃ b, f c = .ok b := by
        obtain ⟨b, -, hb⟩ := List.mem_map.mp (h ▸ List.mem_map_of_mem (f := fun a =>
          (f a).toOption) hc)
        exact ⟨b, Seq.toOption_eq_some.mp hb.symm⟩
      obtain ⟨b, hb⟩ := hmem ha
      obtain ⟨b', hb'⟩ := hmem ha'
      rw [hkey a ha a' ha' b b' hb hb', hb, hb']
      rfl
  constructor
  · intro h
    obtain ⟨l', hl'⟩ := exists_mapM_ok fun a ha => by
      obtain ⟨b, -, hb⟩ := (Seq.mem_mapM h).1 a (List.mem_mergeSort.mpr ha)
      exact ⟨b, hb⟩
    rw [hsorted hl', Except.ok.injEq] at h
    exact ⟨l', hl', h.symm⟩
  · rintro ⟨l', hl', rfl⟩
    exact hsorted hl'

end Joins
