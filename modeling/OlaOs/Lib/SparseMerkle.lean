import Mathlib.Logic.Function.Basic
import Mathlib.Data.Nat.Bitwise
import Mathlib.Tactic.Ring

/-! Binary hash trees over total leaf maps. Heights count from the leaves, so that
node `i` of height `h` covers the leaves `k` with `k / 2 ^ h = i`; the combining
function may depend on the height of the children. -/
namespace SparseMerkle

variable {V : Type*} (comb : ℕ → V → V → V)

def node (m : ℕ → V) : ℕ → ℕ → V
  | 0, i => m i
  | h + 1, i => comb h (node m h (2 * i)) (node m h (2 * i + 1))

@[simp] theorem node_zero (m : ℕ → V) (i : ℕ) : node comb m 0 i = m i := rfl

theorem node_succ (m : ℕ → V) (h i : ℕ) :
    node comb m (h + 1) i = comb h (node comb m h (2 * i)) (node comb m h (2 * i + 1)) := rfl

/-- A node depends only on the leaves below it. -/
theorem node_congr {m m' : ℕ → V} {h i : ℕ} (hm : ∀ k, k / 2 ^ h = i → m k = m' k) :
    node comb m h i = node comb m' h i := by
  induction h generalizing i with
  | zero => exact hm i (by simp)
  | succ h ih =>
    have child (j : ℕ) (hj : j / 2 = i) : node comb m h j = node comb m' h j := by
      apply ih
      intro k hk
      apply hm
      rw [pow_succ, ← Nat.div_div_eq_div_mul, hk, hj]
    rw [node_succ, node_succ, child (2 * i) (by omega), child (2 * i + 1) (by omega)]

/-- The neighbour of node `i` at the same height. -/
def sibling (i : ℕ) : ℕ := i ^^^ 1

theorem sibling_eq (i : ℕ) : sibling i = if i % 2 = 1 then i - 1 else i + 1 := by
  unfold sibling
  split_ifs with h
  · rw [Nat.xor_one_of_odd (Nat.odd_iff.mpr h)]
  · rw [Nat.xor_one_of_even (Nat.even_iff.mpr (by omega))]

theorem sibling_ne (i : ℕ) : sibling i ≠ i := by
  rw [sibling_eq]
  split_ifs <;> omega

@[simp] theorem sibling_half (i : ℕ) : sibling i / 2 = i / 2 := by
  rw [sibling_eq]
  split_ifs <;> omega

/-- Order the current value and its neighbour as the left and right child. -/
def orient (odd : Bool) (neighbour current : V) : V × V :=
  if odd then (neighbour, current) else (current, neighbour)

/-- The parent of node `i` from the node and its neighbour. -/
theorem node_parent (m : ℕ → V) (h i : ℕ) :
    node comb m (h + 1) (i / 2) =
      comb h (orient (i % 2 = 1) (node comb m h (sibling i)) (node comb m h i)).1
        (orient (i % 2 = 1) (node comb m h (sibling i)) (node comb m h i)).2 := by
  rw [node_succ, sibling_eq]
  by_cases hi : i % 2 = 1
  · have hl : 2 * (i / 2) = i - 1 := by omega
    have hr : i - 1 + 1 = i := by omega
    simp only [hi, hl, hr, orient, decide_true, ↓reduceIte]
  · have hl : 2 * (i / 2) = i := by omega
    simp [hi, hl, orient]

/-- Hash of a subtree of height `h` all of whose leaves are `e`. -/
def empty (e : V) : ℕ → V
  | 0 => e
  | h + 1 => comb h (empty e h) (empty e h)

theorem node_const (e : V) (h i : ℕ) : node comb (fun _ => e) h i = empty comb e h := by
  induction h generalizing i with
  | zero => rfl
  | succ h ih => rw [node_succ, ih, ih]; rfl

/-- The leaf map after the first `t` assignments of a list. -/
def after (m : ℕ → V) (ops : List (ℕ × V)) (t : ℕ) : ℕ → V :=
  (ops.take t).foldl (fun m' op => Function.update m' op.1 op.2) m

@[simp] theorem after_zero (m : ℕ → V) (ops : List (ℕ × V)) : after m ops 0 = m := rfl

theorem after_succ (m : ℕ → V) (ops : List (ℕ × V)) {t : ℕ} (ht : t < ops.length) :
    after m ops (t + 1) = Function.update (after m ops t) ops[t].1 ops[t].2 := by
  simp only [after, List.take_succ_eq_append_getElem ht, List.foldl_append, List.foldl_cons,
    List.foldl_nil]

theorem after_length (m : ℕ → V) (ops : List (ℕ × V)) :
    after m ops ops.length = ops.foldl (fun m' op => Function.update m' op.1 op.2) m := by
  simp [after]

theorem after_of_notMem (m : ℕ → V) {ops : List (ℕ × V)} {k : ℕ} (hk : k ∉ ops.map Prod.fst) :
    after m ops ops.length k = m k := by
  rw [after_length]
  induction ops generalizing m with
  | nil => rfl
  | cons op ops ih =>
    rw [List.map_cons, List.mem_cons, not_or] at hk
    rw [List.foldl_cons, ih _ hk.2, Function.update_of_ne hk.1]

/-- An assigned leaf does not depend on the map before. -/
theorem after_of_mem (m m' : ℕ → V) {ops : List (ℕ × V)} {k : ℕ} (hk : k ∈ ops.map Prod.fst) :
    after m ops ops.length k = after m' ops ops.length k := by
  induction ops generalizing m m' with
  | nil => cases hk
  | cons op ops ih =>
    have hcons (m : ℕ → V) : after m (op :: ops) (op :: ops).length =
        after (Function.update m op.1 op.2) ops ops.length := by
      rw [after_length, after_length, List.foldl_cons]
    rw [hcons, hcons]
    by_cases hmem : k ∈ ops.map Prod.fst
    · exact ih _ _ hmem
    · obtain rfl : k = op.1 := by simpa [hmem] using hk
      rw [after_of_notMem _ hmem, after_of_notMem _ hmem, Function.update_self,
        Function.update_self]

/-- Assignments to different leaves all take effect. -/
theorem after_of_mem_of_nodup (m : ℕ → V) {ops : List (ℕ × V)} (hnodup : (ops.map Prod.fst).Nodup)
    {op : ℕ × V} (hop : op ∈ ops) : after m ops ops.length op.1 = op.2 := by
  rw [after_length]
  induction ops generalizing m with
  | nil => cases hop
  | cons first ops ih =>
    obtain ⟨hfresh, hnodup'⟩ := List.nodup_cons.mp hnodup
    rcases List.mem_cons.mp hop with rfl | hop
    · have hrest := after_of_notMem (Function.update m op.1 op.2) hfresh
      rw [after_length] at hrest
      rw [List.foldl_cons, hrest, Function.update_self]
    · exact ih _ hnodup' hop

theorem after_eq_iff {m m' : ℕ → V} {ops : List (ℕ × V)} :
    after m ops ops.length = after m' ops ops.length ↔
      ∀ k, k ∉ ops.map Prod.fst → m k = m' k := by
  constructor
  · intro h k hk
    rw [← after_of_notMem m hk, h, after_of_notMem m' hk]
  · intro h
    funext k
    by_cases hk : k ∈ ops.map Prod.fst
    · exact after_of_mem m m' hk
    · rw [after_of_notMem m hk, after_of_notMem m' hk, h k hk]

/-- One assignment changes no node off the path of its leaf. -/
theorem node_after_succ_of_ne (m : ℕ → V) (ops : List (ℕ × V)) {t h i : ℕ}
    (hne : ∀ ht : t < ops.length, ops[t].1 / 2 ^ h ≠ i) :
    node comb (after m ops (t + 1)) h i = node comb (after m ops t) h i := by
  by_cases ht : t < ops.length
  · rw [after_succ m ops ht]
    apply node_congr
    intro k hk
    apply Function.update_of_ne
    rintro rfl
    exact hne ht hk
  · have hle : ops.length ≤ t := by omega
    simp only [after, List.take_of_length_le hle, List.take_of_length_le (by omega :
      ops.length ≤ t + 1)]

/-- A node keeps its hash over every stretch of assignments that stays off its leaves. -/
theorem node_after_eq (m : ℕ → V) (ops : List (ℕ × V)) {s t h i : ℕ} (hst : s ≤ t)
    (hne : ∀ j, s ≤ j → j < t → ∀ hj : j < ops.length, ops[j].1 / 2 ^ h ≠ i) :
    node comb (after m ops t) h i = node comb (after m ops s) h i := by
  induction t, hst using Nat.le_induction with
  | base => rfl
  | succ t hst ih =>
    rw [node_after_succ_of_ne comb m ops (hne t hst (by omega))]
    exact ih fun j hs hj => hne j hs (by omega)

/-- The assigned leaf itself. -/
theorem after_succ_self (m : ℕ → V) (ops : List (ℕ × V)) {t : ℕ} (ht : t < ops.length) :
    after m ops (t + 1) ops[t].1 = ops[t].2 := by
  rw [after_succ m ops ht, Function.update_self]

/-- Assignment `t` does not change the neighbour of any node on its own path. -/
theorem node_sibling_after (m : ℕ → V) (ops : List (ℕ × V)) {t : ℕ} (ht : t < ops.length)
    (h : ℕ) : node comb (after m ops (t + 1)) h (sibling (ops[t].1 / 2 ^ h)) =
      node comb (after m ops t) h (sibling (ops[t].1 / 2 ^ h)) :=
  node_after_succ_of_ne comb m ops fun _ => (sibling_ne _).symm

/-- No two children pairs of the trees over `a` and `b` at one place collide. -/
def NoCollision (a b : ℕ → V) : Prop :=
  ∀ h i, node comb a (h + 1) i = node comb b (h + 1) i →
    node comb a h (2 * i) = node comb b h (2 * i) ∧
      node comb a h (2 * i + 1) = node comb b h (2 * i + 1)

theorem NoCollision.refl (a : ℕ → V) : NoCollision comb a a := fun _ _ _ => ⟨rfl, rfl⟩

/-- Without collisions a node determines every leaf below it. -/
theorem NoCollision.leaf_eq {comb : ℕ → V → V → V} {a b : ℕ → V} (hc : NoCollision comb a b)
    {h i : ℕ} (heq : node comb a h i = node comb b h i) (k : ℕ) (hk : k / 2 ^ h = i) :
    a k = b k := by
  induction h generalizing i with
  | zero =>
    have hk' : k = i := by simpa using hk
    subst hk'
    exact heq
  | succ h ih =>
    obtain ⟨hl, hr⟩ := hc h i heq
    have hhalf : k / 2 ^ h / 2 = i := by rw [Nat.div_div_eq_div_mul, ← pow_succ, hk]
    rcases Nat.even_or_odd' (k / 2 ^ h) with ⟨c, hc' | hc'⟩
    · exact ih hl (by omega)
    · exact ih hr (by omega)

end SparseMerkle
