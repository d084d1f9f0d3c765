import Mathlib.Data.List.Basic
import Mathlib.Order.Lattice

/-! Ordered maps as lists of entries with strictly increasing keys. -/

structure OrderedMap (κ α : Type*) [LinearOrder κ] where
  toList : List (κ × α)
  sorted : toList.Pairwise fun a b => a.1 < b.1

namespace OrderedMap

variable {κ α : Type*} [LinearOrder κ]

def empty : OrderedMap κ α := ⟨[], List.Pairwise.nil⟩

def get? (m : OrderedMap κ α) (k : κ) : Option α :=
  (m.toList.find? fun e => e.1 = k).map Prod.snd

/-- An entry between those with smaller and those with greater keys. -/
def insert (m : OrderedMap κ α) (k : κ) (a : α) : OrderedMap κ α where
  toList := m.toList.filter (fun e => e.1 < k) ++ (k, a) :: m.toList.filter fun e => k < e.1
  sorted := by
    refine List.pairwise_append.mpr ⟨m.sorted.filter _, ?_, fun e he e' he' => ?_⟩
    · refine List.pairwise_cons.mpr ⟨fun e he => ?_, m.sorted.filter _⟩
      exact of_decide_eq_true (List.mem_filter.mp he).2
    · have hlt : e.1 < k := of_decide_eq_true (List.mem_filter.mp he).2
      rcases List.mem_cons.mp he' with rfl | he'
      · exact hlt
      · exact hlt.trans (of_decide_eq_true (List.mem_filter.mp he').2)

variable {m : OrderedMap κ α}

theorem mem_insert {k : κ} {a : α} {e : κ × α} :
    e ∈ (m.insert k a).toList ↔ e = (k, a) ∨ e.1 ≠ k ∧ e ∈ m.toList := by
  simp only [insert, List.mem_append, List.mem_cons, List.mem_filter, decide_eq_true_eq]
  constructor
  · rintro (⟨he, hlt⟩ | rfl | ⟨he, hlt⟩)
    · exact .inr ⟨hlt.ne, he⟩
    · exact .inl rfl
    · exact .inr ⟨hlt.ne', he⟩
  · rintro (rfl | ⟨hne, he⟩)
    · exact .inr (.inl rfl)
    · rcases lt_or_gt_of_ne hne with hlt | hlt
      · exact .inl ⟨he, hlt⟩
      · exact .inr (.inr ⟨he, hlt⟩)

/-- A key is present if it has an entry. -/
theorem get?_isSome {k : κ} : (m.get? k).isSome = true ↔ ∃ a, (k, a) ∈ m.toList := by
  unfold get?
  rw [Option.isSome_map, List.find?_isSome]
  constructor
  · rintro ⟨⟨k', a⟩, he, hk⟩
    obtain rfl : k' = k := of_decide_eq_true hk
    exact ⟨a, he⟩
  · rintro ⟨a, he⟩
    exact ⟨(k, a), he, decide_eq_true rfl⟩

end OrderedMap
