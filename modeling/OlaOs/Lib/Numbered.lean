import Mathlib.Data.List.Basic

/-! Lists whose members are numbered from zero, as the rows of a table with a counter for its
key. -/

/-- The numbers of the members are `0`, `1`, and so on. -/
def Numbered {α : Type*} (number : α → ℕ) (l : List α) : Prop := l.map number = List.range l.length

namespace Numbered

variable {α : Type*} {number : α → ℕ} {l : List α} (h : Numbered number l)

include h

theorem number_eq {k : ℕ} {a : α} (ha : l[k]? = some a) : number a = k := by
  have hmap := congrArg (·[k]?) h
  simp only [List.getElem?_map, ha, Option.map_some] at hmap
  exact (List.getElem?_eq_some_iff.mp hmap.symm).choose_spec ▸ by simp

theorem number_lt {a : α} (ha : a ∈ l) : number a < l.length := by
  obtain ⟨k, hk⟩ := List.mem_iff_getElem?.mp ha
  rw [h.number_eq hk]
  exact (List.getElem?_eq_some_iff.mp hk).1

theorem find?_eq (k : ℕ) : (l.find? fun a => number a = k) = l[k]? := by
  cases hk : l[k]? with
  | none =>
    rw [List.find?_eq_none]
    intro a ha
    have hlt := h.number_lt ha
    have hle := List.getElem?_eq_none_iff.mp hk
    simp only [decide_eq_true_eq]
    omega
  | some a =>
    obtain ⟨hlt, hget⟩ := List.getElem?_eq_some_iff.mp hk
    refine List.find?_eq_some_iff_getElem.mpr ⟨by simp [h.number_eq hk], k, hlt, hget, ?_⟩
    intro j hj
    have hnumber := h.number_eq (List.getElem?_eq_getElem (Nat.lt_trans hj hlt))
    simp only [hnumber, Bool.not_eq_true', decide_eq_false_iff_not]
    omega

theorem max?_eq (hpos : 0 < l.length) : (l.map number).max? = some (l.length - 1) := by
  rw [h, List.max?_eq_some_iff]
  exact ⟨List.mem_range.mpr (by omega), fun n hn => by have := List.mem_range.mp hn; omega⟩

theorem pairwise : l.Pairwise fun a b => number a < number b := by
  have hrange : (l.map number).Pairwise (· < ·) := by
    rw [h]
    exact List.pairwise_lt_range
  exact List.pairwise_map.mp hrange

/-- A counter that wraps does so only when all its numbers are in use. -/
theorem length_lt_of_free {m : ℕ} (hm : 0 < m) (hle : l.length ≤ m)
    (hfree : ∀ a ∈ l, number a ≠ l.length % m) : l.length < m := by
  refine Nat.lt_of_le_of_ne hle fun heq => ?_
  have hpos : 0 < l.length := heq ▸ hm
  refine hfree l[0] (List.getElem_mem hpos) ?_
  rw [h.number_eq (List.getElem?_eq_getElem hpos), heq, Nat.mod_self]

/-- A new member takes the next number. -/
theorem append {a : α} (ha : number a = l.length) : Numbered number (l ++ [a]) := by
  unfold Numbered at h ⊢
  simp [h, ha, List.range_succ]

theorem map {f : α → α} (hf : ∀ a, number (f a) = number a) : Numbered number (l.map f) := by
  unfold Numbered at h ⊢
  rw [List.map_map, List.length_map, ← h]
  exact List.map_congr_left fun a _ => hf a

theorem take (k : ℕ) : Numbered number (l.take k) := by
  unfold Numbered at h ⊢
  rw [List.map_take, h, List.take_range, List.length_take]

theorem filter_ge (k : ℕ) : (l.filter fun a => decide (k ≤ number a)) = l.drop k := by
  have htake : (l.take k).filter (fun a => decide (k ≤ number a)) = [] := by
    refine List.filter_eq_nil_iff.mpr fun a ha => ?_
    obtain ⟨j, hj⟩ := List.mem_iff_getElem?.mp ha
    rw [List.getElem?_take] at hj
    split_ifs at hj with hlt
    have hnumber := h.number_eq hj
    simp only [decide_eq_true_eq]
    omega
  have hdrop : (l.drop k).filter (fun a => decide (k ≤ number a)) = l.drop k := by
    refine List.filter_eq_self.mpr fun a ha => ?_
    obtain ⟨j, hj⟩ := List.mem_iff_getElem?.mp ha
    rw [List.getElem?_drop] at hj
    have hnumber := h.number_eq hj
    simp only [decide_eq_true_eq]
    omega
  conv_lhs => rw [← List.take_append_drop k l]
  rw [List.filter_append, htake, hdrop, List.nil_append]

theorem filter_lt (k : ℕ) : (l.filter fun a => decide (number a < k)) = l.take k := by
  have hge : (l.drop k).filter (fun a => decide (number a < k)) = [] := by
    refine List.filter_eq_nil_iff.mpr fun a ha => ?_
    rw [← h.filter_ge k] at ha
    have hle := of_decide_eq_true (List.mem_filter.mp ha).2
    simp only [decide_eq_true_eq]
    omega
  have htake : (l.take k).filter (fun a => decide (number a < k)) = l.take k := by
    refine List.filter_eq_self.mpr fun a ha => decide_eq_true ?_
    have hlt := (h.take k).number_lt ha
    rw [List.length_take] at hlt
    omega
  conv_lhs => rw [← List.take_append_drop k l]
  rw [List.filter_append, hge, htake, List.append_nil]

/-- The members with numbers in a range. -/
theorem filter_between (first last : ℕ) :
    (l.filter fun a => decide (first ≤ number a) && decide (number a ≤ last)) =
      (l.take (last + 1)).drop first := by
  rw [← (h.take (last + 1)).filter_ge, ← h.filter_lt, List.filter_filter]
  simp only [Nat.lt_succ_iff]

end Numbered
