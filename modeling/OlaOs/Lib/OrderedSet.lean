import Mathlib.Data.List.Sort
import Mathlib.Order.Basic

/-! Ordered sets as strictly increasing lists, with their greatest element and the split at an
element. -/

/-- A finite set of a linear order, in increasing order. -/
structure OrderedSet (α : Type*) [LinearOrder α] where
  toList : List α
  sorted : toList.Pairwise (· < ·)

namespace OrderedSet

variable {α : Type*} [LinearOrder α]

instance : Membership α (OrderedSet α) where
  mem s a := a ∈ s.toList

instance (s : OrderedSet α) (a : α) : Decidable (a ∈ s) :=
  inferInstanceAs (Decidable (a ∈ s.toList))

def empty : OrderedSet α := ⟨[], List.Pairwise.nil⟩

def filter (p : α → Bool) (s : OrderedSet α) : OrderedSet α :=
  ⟨s.toList.filter p, s.sorted.filter p⟩

/-- The greatest element. -/
def last? (s : OrderedSet α) : Option α := s.toList.getLast?

/-- The elements below `a`, and `a` with the elements above it. -/
def splitOff (a : α) (s : OrderedSet α) : OrderedSet α × OrderedSet α :=
  (s.filter (· < a), s.filter (a ≤ ·))

theorem pairwise_cons_filter {a : α} {s : OrderedSet α} :
    ((s.filter (· < a)).toList ++ a :: (s.filter (a < ·)).toList).Pairwise (· < ·) := by
  refine List.pairwise_append.mpr ⟨(s.filter (· < a)).sorted, ?_, ?_⟩
  · refine List.pairwise_cons.mpr ⟨?_, (s.filter (a < ·)).sorted⟩
    intro b hb
    simpa using (List.mem_filter.mp hb).2
  · intro b hb c hc
    have hba : b < a := by simpa using (List.mem_filter.mp hb).2
    rcases List.mem_cons.mp hc with rfl | hc
    · exact hba
    · exact hba.trans (by simpa using (List.mem_filter.mp hc).2)

/-- Add an element between the smaller and the greater ones. -/
def insert (a : α) (s : OrderedSet α) : OrderedSet α :=
  ⟨(s.filter (· < a)).toList ++ a :: (s.filter (a < ·)).toList, pairwise_cons_filter⟩

def erase (a : α) (s : OrderedSet α) : OrderedSet α := s.filter (· ≠ a)

@[simp] theorem mem_toList {s : OrderedSet α} {a : α} : a ∈ s.toList ↔ a ∈ s := Iff.rfl

@[simp] theorem notMem_empty {a : α} : a ∉ (empty : OrderedSet α) := List.not_mem_nil

@[simp] theorem mem_filter {p : α → Bool} {s : OrderedSet α} {a : α} :
    a ∈ s.filter p ↔ a ∈ s ∧ p a = true := List.mem_filter

theorem filter_congr {p q : α → Bool} {s : OrderedSet α} (h : ∀ a ∈ s, p a = q a) :
    s.filter p = s.filter q := by
  unfold filter
  congr 1
  exact List.filter_congr h

@[simp] theorem mem_insert {s : OrderedSet α} {a b : α} : b ∈ s.insert a ↔ b = a ∨ b ∈ s := by
  rw [← mem_toList, insert, List.mem_append, List.mem_cons, mem_toList, mem_toList, mem_filter,
    mem_filter, decide_eq_true_eq, decide_eq_true_eq]
  rcases lt_trichotomy b a with h | rfl | h
  · simp [h, h.ne, h.not_gt]
  · simp
  · simp [h, h.ne', h.not_gt]

@[simp] theorem mem_erase {s : OrderedSet α} {a b : α} : b ∈ s.erase a ↔ b ≠ a ∧ b ∈ s := by
  rw [erase, mem_filter, decide_eq_true_eq, and_comm]

theorem last?_eq_none {s : OrderedSet α} : s.last? = none ↔ ∀ a, a ∉ s := by
  rw [last?, List.getLast?_eq_none_iff, List.eq_nil_iff_forall_not_mem]
  exact Iff.rfl

theorem last?_mem {s : OrderedSet α} {a : α} (h : s.last? = some a) : a ∈ s :=
  List.mem_of_getLast? h

theorem le_last? {s : OrderedSet α} {a b : α} (h : s.last? = some a) (hb : b ∈ s) : b ≤ a := by
  obtain ⟨rest, hrest⟩ := List.getLast?_eq_some_iff.mp h
  have hsorted := s.sorted
  rw [← mem_toList] at hb
  rw [hrest] at hsorted hb
  rcases List.mem_append.mp hb with hb | hb
  · exact ((List.pairwise_append.mp hsorted).2.2 b hb a (by simp)).le
  · rw [List.mem_singleton.mp hb]

theorem nodup (s : OrderedSet α) : s.toList.Nodup := s.sorted.imp ne_of_lt

/-- Sets with the same elements are equal. -/
theorem ext_mem {s t : OrderedSet α} (h : ∀ a, a ∈ s ↔ a ∈ t) : s = t := by
  obtain ⟨l, hl⟩ := s
  obtain ⟨l', hl'⟩ := t
  have hperm : l.Perm l' :=
    (List.perm_ext_iff_of_nodup (hl.imp ne_of_lt) (hl'.imp ne_of_lt)).mpr h
  obtain rfl : l = l' := hperm.eq_of_pairwise (fun a b _ _ hab hba => (hab.asymm hba).elim) hl hl'
  rfl

/-- Splitting at the greatest element takes off that element alone. -/
theorem splitOff_last? {s : OrderedSet α} {a : α} (h : s.last? = some a) :
    (s.splitOff a).1 = s.erase a ∧ (s.splitOff a).2.toList = [a] := by
  constructor
  · apply filter_congr
    intro b hb
    have hle : b ≤ a := le_last? h hb
    rw [decide_eq_decide]
    exact ⟨ne_of_lt, lt_of_le_of_ne hle⟩
  · show s.toList.filter (fun b => decide (a ≤ b)) = [a]
    have heq : s.toList.filter (fun b => decide (a ≤ b)) = s.toList.filter (fun b => b == a) := by
      apply List.filter_congr
      intro b hb
      have hle : b ≤ a := le_last? h hb
      rw [Bool.eq_iff_iff, decide_eq_true_eq, beq_iff_eq]
      exact ⟨hle.antisymm, ge_of_eq⟩
    rw [heq, List.filter_beq, List.count_eq_one_of_mem s.nodup (last?_mem h)]
    rfl

/-- A condition that at most one element meets. -/
theorem filter_eq_toList {p : α → Bool} {s : OrderedSet α} {o : Option α}
    (h : ∀ a, (a ∈ s ∧ p a = true) ↔ o = some a) : s.toList.filter p = o.toList := by
  cases o with
  | none =>
    rw [Option.toList_none, List.filter_eq_nil_iff]
    intro a ha hp
    cases (h a).mp ⟨ha, hp⟩
  | some a =>
    have hperm : (s.toList.filter p).Perm [a] := by
      rw [List.perm_ext_iff_of_nodup (s.nodup.filter p) (List.nodup_singleton a)]
      intro b
      rw [List.mem_filter, List.mem_singleton, mem_toList, h b, Option.some.injEq, eq_comm]
    simpa using List.perm_singleton.mp hperm

end OrderedSet
