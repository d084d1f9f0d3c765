import Mathlib.Order.Bounds.Basic

/-! The first number that an increasing list lacks. -/
namespace Gaps

/-- Count up from a number as long as the list goes on with it. -/
def firstGap : ℕ → List ℕ → ℕ
  | n, [] => n
  | n, m :: l => if n = m then firstGap (n + 1) l else n

theorem firstGap_le (l : List ℕ) (n : ℕ) : firstGap n l ≤ n + l.length := by
  induction l generalizing n with
  | nil => exact le_rfl
  | cons m l ih =>
    rw [firstGap, List.length_cons]
    split_ifs
    · exact (ih (n + 1)).trans (by omega)
    · exact Nat.le_add_right n _

theorem isLeast_firstGap {l : List ℕ} (h : l.Pairwise (· < ·)) {start : ℕ}
    (hle : ∀ n ∈ l, start ≤ n) : IsLeast {n | start ≤ n ∧ n ∉ l} (firstGap start l) := by
  induction l generalizing start with
  | nil => exact ⟨⟨le_rfl, List.not_mem_nil⟩, fun n hn => hn.1⟩
  | cons m l ih =>
    rw [List.pairwise_cons] at h
    rw [firstGap]
    split_ifs with heq
    · subst heq
      obtain ⟨⟨hstart, hfree⟩, hleast⟩ := @ih h.2 (start + 1) fun n hn => h.1 n hn
      refine ⟨⟨by omega, ?_⟩, fun n hn => ?_⟩
      · rw [List.mem_cons, not_or]
        exact ⟨by omega, hfree⟩
      · obtain ⟨hstart', hmem⟩ := hn
        rw [List.mem_cons, not_or] at hmem
        exact hleast ⟨by omega, hmem.2⟩
    · have hlt : start < m := lt_of_le_of_ne (hle m List.mem_cons_self) heq
      refine ⟨⟨le_rfl, ?_⟩, fun n hn => hn.1⟩
      rw [List.mem_cons, not_or]
      refine ⟨heq, fun hmem => ?_⟩
      have := h.1 start hmem
      omega

end Gaps
