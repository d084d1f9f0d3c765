import Mathlib.Data.List.Pairwise
import Mathlib.Data.List.Sort
import Mathlib.Data.List.SplitBy
import Mathlib.Data.Nat.Notation
import Mathlib.Order.Basic

/-! Stable sorting of a list, and the runs of equal keys in a sorted list. -/
namespace SortedGroups

variable {α κ : Type*} [LinearOrder κ]

/-- A stable sort, with the position that each element had before. -/
theorem exists_stable_order {le : α → α → Bool} (trans : ∀ a b c, le a b → le b c → le a c)
    (total : ∀ a b, le a b || le b a) (l : List α) :
    ∃ order : List (α × ℕ), order.Perm l.zipIdx ∧
      order.Pairwise (fun a b => List.zipIdxLE le a b = true) ∧
      l.mergeSort le = order.map Prod.fst :=
  ⟨l.zipIdx.mergeSort (List.zipIdxLE le), List.mergeSort_perm _ _,
    List.pairwise_mergeSort (List.zipIdxLE_trans trans) (List.zipIdxLE_total total) _,
    List.mergeSort_zipIdx.symm⟩

/-- In a sorted list the elements with the least key stand in front. -/
theorem takeWhile_eq_filter {key : α → κ} {l : List α} (hs : l.Pairwise fun a b => key a ≤ key b)
    {k : κ} (hk : ∀ a ∈ l, k ≤ key a) {p : α → Bool} (hp : ∀ a, p a = true ↔ key a = k) :
    l.takeWhile p = l.filter p ∧ l.dropWhile p = l.filter fun a => !p a := by
  induction l with
  | nil => exact ⟨rfl, rfl⟩
  | cons a l ih =>
    rcases List.pairwise_cons.mp hs with ⟨ha, hs'⟩
    cases hpa : p a with
    | true =>
      have hrest := ih hs' fun b hb => hk b (List.mem_cons_of_mem _ hb)
      simpa [hpa] using hrest
    | false =>
      have hne : key a ≠ k := fun h => by simp [(hp a).mpr h] at hpa
      have hlt : k < key a := lt_of_le_of_ne (hk a List.mem_cons_self) hne.symm
      have hfalse : ∀ b ∈ l, p b = false := by
        intro b hb
        rw [← Bool.not_eq_true, hp]
        exact (hlt.trans_le (ha b hb)).ne'
      have hall : l.filter (fun b => !p b) = l :=
        List.filter_eq_self.mpr fun b hb => by simp [hfalse b hb]
      simp only [List.takeWhile_cons, List.filter_cons, List.dropWhile_cons, hpa, hall,
        Bool.false_eq_true, ↓reduceIte, Bool.not_false, and_true]
      exact (List.filter_eq_nil_iff.mpr fun b hb => by simp [hfalse b hb]).symm

/-- Two distinct members of a list stand in one of the two orders. -/
theorem pairwise_or {R : α → α → Prop} {l : List α} (h : l.Pairwise R) {a b : α} (ha : a ∈ l)
    (hb : b ∈ l) (hne : a ≠ b) : R a b ∨ R b a := by
  have : Std.Symm fun a b => R a b ∨ R b a := ⟨fun _ _ hab => hab.symm⟩
  exact (h.imp Or.inl : l.Pairwise fun a b => R a b ∨ R b a).forall ha hb hne

/-- Every member of a list stands before its last one. -/
theorem pairwise_getLast? {R : α → α → Prop} {l : List α} (h : l.Pairwise R) {a b : α}
    (ha : a ∈ l) (hb : l.getLast? = some b) : a = b ∨ R a b := by
  obtain ⟨init, rfl⟩ := List.getLast?_eq_some_iff.mp hb
  rcases List.mem_append.mp ha with hinit | hlast
  · exact .inr ((List.pairwise_append.mp h).2.2 a hinit b (List.mem_singleton_self b))
  · exact .inl (List.mem_singleton.mp hlast)

/-- The descending order of an increasing list is its reverse. -/
theorem mergeSort_descending {key : α → κ} {l : List α}
    (hs : l.Pairwise fun a b => key a < key b) :
    l.mergeSort (fun a b => decide (key b ≤ key a)) = l.reverse := by
  have hperm : (l.mergeSort fun a b => decide (key b ≤ key a)).Perm l := List.mergeSort_perm _ _
  have hle : (l.mergeSort fun a b => decide (key b ≤ key a)).Pairwise
      fun a b => decide (key b ≤ key a) = true :=
    List.pairwise_mergeSort (fun a b c => by simpa using fun hab hbc => hbc.trans hab)
      (fun a b => by simp [le_total]) l
  have hne : (l.mergeSort fun a b => decide (key b ≤ key a)).Pairwise fun a b => key a ≠ key b :=
    (hs.imp fun hab => hab.ne).perm hperm.symm Ne.symm
  have hlt : (l.mergeSort fun a b => decide (key b ≤ key a)).Pairwise fun a b => key b < key a :=
    (hle.and hne).imp fun hab => lt_of_le_of_ne (by simpa using hab.1) hab.2.symm
  exact List.Perm.eq_of_pairwise (fun a b _ _ hab hba => absurd hab hba.not_gt) hlt
    (List.pairwise_reverse.mpr hs) (hperm.trans (List.reverse_perm l).symm)

/-- A sort by an order that is that of a key on the members of the list. -/
theorem pairwise_insertionSort_key {key : α → κ} {r : α → α → Prop} [DecidableRel r] {l : List α}
    (h : ∀ a ∈ l, ∀ b ∈ l, r a b ↔ key a ≤ key b) :
    (l.insertionSort r).Pairwise fun a b => key a ≤ key b := by
  have hsort : l.insertionSort r = l.insertionSort fun a b => key a ≤ key b := by
    simpa using List.map_insertionSort r (fun a b => key a ≤ key b) id l h
  have : Std.Total fun a b : α => key a ≤ key b := ⟨fun a b => le_total (key a) (key b)⟩
  have : IsTrans α fun a b => key a ≤ key b := ⟨fun _ _ _ => le_trans⟩
  rw [hsort]
  exact List.pairwise_insertionSort _ l

/-- The runs of equal keys in a sorted list have increasing keys. -/
theorem pairwise_splitBy {key : α → κ} {l : List α} (hs : l.Pairwise fun a b => key a ≤ key b) :
    (l.splitBy fun a b => decide (key a = key b)).Pairwise
      fun g g' => ∀ a ∈ g, ∀ b ∈ g', key a < key b := by
  have hchain := List.isChain_getLast_head_splitBy (fun a b => decide (key a = key b)) l
  rw [← List.flatten_splitBy (fun a b => decide (key a = key b)) l] at hs
  revert hchain hs
  generalize l.splitBy (fun a b => decide (key a = key b)) = groups
  intro hs hchain
  induction groups with
  | nil => exact .nil
  | cons g groups ih =>
    rw [List.flatten_cons, List.pairwise_append] at hs
    obtain ⟨hg, hrest, hcross⟩ := hs
    refine List.pairwise_cons.mpr ⟨fun g' hg' a ha b hb => ?_, ih hrest hchain.tail⟩
    cases groups with
    | nil => cases hg'
    | cons g₁ groups =>
      -- the last member of the run stands before the first one of the next
      obtain ⟨hne, hne₁, hkeys⟩ := (List.isChain_cons_cons.mp hchain).1
      have hmem₁ : g₁.head hne₁ ∈ (g₁ :: groups).flatten :=
        List.mem_flatten.mpr ⟨g₁, List.mem_cons_self, List.head_mem hne₁⟩
      have hlt : key (g.getLast hne) < key (g₁.head hne₁) :=
        lt_of_le_of_ne (hcross _ (List.getLast_mem hne) _ hmem₁) (of_decide_eq_false hkeys)
      have hle : key a ≤ key (g.getLast hne) := by
        rcases pairwise_getLast? hg ha (List.getLast?_eq_some_getLast hne) with rfl | hle
        · exact le_refl _
        · exact hle
      have hge : key (g₁.head hne₁) ≤ key b := by
        have hflatten : (g₁ :: groups).flatten =
            g₁.head hne₁ :: (g₁.tail ++ groups.flatten) := by
          rw [List.flatten_cons, ← List.cons_append, List.cons_head_tail]
        have hbmem : b ∈ (g₁ :: groups).flatten := List.mem_flatten.mpr ⟨g', hg', hb⟩
        rw [hflatten] at hrest hbmem
        rcases List.mem_cons.mp hbmem with rfl | hbmem
        · exact le_refl _
        · exact (List.pairwise_cons.mp hrest).1 b hbmem
      exact (hle.trans_lt hlt).trans_le hge

/-- Blocks with one key each, and different keys, are the runs of equal keys of their
concatenation. -/
theorem splitBy_flatMap {κ : Type*} [DecidableEq κ] {key : α → κ} {blocks : List (κ × List α)}
    (hkeys : blocks.Pairwise fun a b => a.1 ≠ b.1)
    (hblocks : ∀ block ∈ blocks, ∀ a ∈ block.2, key a = block.1) :
    (blocks.flatMap Prod.snd).splitBy (fun a b => decide (key a = key b)) =
      (blocks.filter fun block => !block.2.isEmpty).map Prod.snd := by
  have hnonempty : ∀ blocks : List (κ × List α), blocks.flatMap Prod.snd =
      ((blocks.filter fun block => !block.2.isEmpty).map Prod.snd).flatten := by
    intro blocks
    induction blocks with
    | nil => rfl
    | cons block blocks ih =>
      cases hblock : block.2 with
      | nil => simp [hblock, ih]
      | cons a as => simp [hblock, ih]
  rw [hnonempty]
  refine List.splitBy_flatten (by simp) ?_ ?_
  · intro m hm
    obtain ⟨block, hblock, rfl⟩ := List.mem_map.mp hm
    have hkey := hblocks block (List.mem_of_mem_filter hblock)
    refine List.Pairwise.isChain (List.pairwise_of_forall_mem_list fun a ha b hb => ?_)
    exact decide_eq_true ((hkey a ha).trans (hkey b hb).symm)
  · refine List.Pairwise.isChain (List.pairwise_map.mpr ?_)
    refine (hkeys.filter _).imp_of_mem fun {a b} ha hb hab => ?_
    obtain ⟨ha, hane⟩ := List.mem_filter.mp ha
    obtain ⟨hb, hbne⟩ := List.mem_filter.mp hb
    have hane : a.2 ≠ [] := by simpa using hane
    have hbne : b.2 ≠ [] := by simpa using hbne
    refine ⟨hane, hbne, decide_eq_false ?_⟩
    rw [hblocks a ha _ (List.getLast_mem hane), hblocks b hb _ (List.head_mem hbne)]
    exact hab

omit [LinearOrder κ] in
/-- The runs of a mapped list are the mapped runs. -/
theorem splitBy_map (f : α → κ) (r : κ → κ → Bool) (l : List α) :
    (l.map f).splitBy r = (l.splitBy fun a b => r (f a) (f b)).map (List.map f) := by
  refine List.splitBy_eq_iff.mpr ⟨?_, ?_, ?_, ?_⟩
  · rw [← List.map_flatten, List.flatten_splitBy]
  · intro hmem
    obtain ⟨group, hgroup, hnil⟩ := List.mem_map.mp hmem
    exact List.ne_nil_of_mem_splitBy hgroup (List.map_eq_nil_iff.mp hnil)
  · intro group hgroup
    obtain ⟨group, hmem, rfl⟩ := List.mem_map.mp hgroup
    exact (List.isChain_map f).mpr (List.isChain_of_mem_splitBy hmem)
  · refine (List.isChain_map _).mpr ((List.isChain_getLast_head_splitBy _ l).imp ?_)
    rintro a b ⟨ha, hb, hlast⟩
    refine ⟨by simpa using ha, by simpa using hb, ?_⟩
    rw [List.getLast_map, List.head_map]
    exact hlast

end SortedGroups
