import Mathlib.Data.List.Sort
import Mathlib.Tactic.Ring

/-! Loops over lists: monadic maps and folds that cannot fail, and positions in sorted lists. -/
namespace Seq

variable {α β ε σ : Type}

theorem mapM_eq_ok {f : α → Except ε β} {g : α → β} {l : List α}
    (h : ∀ a ∈ l, f a = .ok (g a)) : l.mapM f = .ok (l.map g) := by
  induction l with
  | nil => rfl
  | cons a l ih =>
    rw [List.mapM_cons, h a (by simp), ih fun b hb => h b (by simp [hb])]
    rfl

theorem mapM_congr {f g : α → Except ε β} {l : List α} (h : ∀ a ∈ l, f a = g a) :
    l.mapM f = l.mapM g := by
  induction l with
  | nil => rfl
  | cons a l ih =>
    rw [List.mapM_cons, List.mapM_cons, h a List.mem_cons_self,
      ih fun b hb => h b (List.mem_cons_of_mem a hb)]

theorem bind_eq_ok {x : Except ε α} {f : α → Except ε β} {b : β} :
    x >>= f = .ok b ↔ ∃ a, x = .ok a ∧ f a = .ok b := by
  cases x with
  | error e => simp [bind, Except.bind]
  | ok a => simp [bind, Except.bind]

theorem zipWith_right (l : List α) (l' : List β) :
    List.zipWith (fun _ b => b) l l' = l'.take l.length := by
  induction l generalizing l' with
  | nil => rfl
  | cons a l ih =>
    cases l' with
    | nil => rfl
    | cons b l' => rw [List.zipWith_cons_cons, ih, List.length_cons, List.take_succ_cons]

/-- A zip with a list that is long enough. -/
theorem zipWith_left {γ δ : Type} {f : α → β → γ} {g : γ → δ} {k : α → δ}
    (hf : ∀ a b, g (f a b) = k a) {l : List α} {l' : List β} (h : l.length ≤ l'.length) :
    (List.zipWith f l l').map g = l.map k := by
  induction l generalizing l' with
  | nil => rfl
  | cons a l ih =>
    cases l' with
    | nil => cases h
    | cons b l' =>
      rw [List.zipWith_cons_cons, List.map_cons, List.map_cons, hf, ih (Nat.le_of_succ_le_succ h)]

/-- Increasing numbers have room between the first and the last one. -/
theorem length_le_of_increasing {l : List ℕ} (h : l.Pairwise (· < ·)) {first last : ℕ}
    (hfirst : l.head? = some first) (hlast : l.getLast? = some last) :
    first + l.length ≤ last + 1 := by
  induction l generalizing first with
  | nil => cases hfirst
  | cons a l ih =>
    cases hfirst
    cases l with
    | nil =>
      cases hlast
      simp
    | cons b l =>
      obtain ⟨ha, hrest⟩ := List.pairwise_cons.mp h
      have hle := ih hrest rfl (by rwa [List.getLast?_cons_cons] at hlast)
      have hlt := ha b List.mem_cons_self
      simp only [List.length_cons] at hle ⊢
      omega

theorem map_eq_ok {x : Except ε α} {f : α → β} {b : β} :
    x.map f = .ok b ↔ ∃ a, x = .ok a ∧ f a = b := by
  cases x with
  | error e => simp [Except.map]
  | ok a => simp [Except.map]

/-- What a monadic map returns are the results at its arguments. -/
theorem mem_mapM {f : α → Except ε β} {l : List α} {l' : List β} (h : l.mapM f = .ok l') :
    (∀ a ∈ l, ∃ b ∈ l', f a = .ok b) ∧ ∀ b ∈ l', ∃ a ∈ l, f a = .ok b := by
  induction l generalizing l' with
  | nil =>
    rw [List.mapM_nil] at h
    cases h
    exact ⟨nofun, nofun⟩
  | cons a l ih =>
    rw [List.mapM_cons] at h
    obtain ⟨b, hb, h⟩ := bind_eq_ok.mp h
    obtain ⟨rest, hrest, h⟩ := bind_eq_ok.mp h
    cases h
    obtain ⟨hleft, hright⟩ := ih hrest
    constructor
    · rintro c (_ | ⟨_, hc⟩)
      · exact ⟨b, List.mem_cons_self, hb⟩
      · obtain ⟨b', hb', hc⟩ := hleft c hc
        exact ⟨b', List.mem_cons_of_mem b hb', hc⟩
    · rintro c (_ | ⟨_, hc⟩)
      · exact ⟨a, List.mem_cons_self, hb⟩
      · obtain ⟨a', ha', hc⟩ := hright c hc
        exact ⟨a', List.mem_cons_of_mem a ha', hc⟩

theorem forall₂_of_mapM {f : α → Except ε β} {l : List α} {l' : List β} (h : l.mapM f = .ok l') :
    List.Forall₂ (fun a b => f a = .ok b) l l' := by
  induction l generalizing l' with
  | nil =>
    rw [List.mapM_nil] at h
    cases h
    exact .nil
  | cons a l ih =>
    rw [List.mapM_cons] at h
    obtain ⟨b, hb, h⟩ := bind_eq_ok.mp h
    obtain ⟨rest, hrest, h⟩ := bind_eq_ok.mp h
    cases h
    exact .cons hb (ih hrest)

/-- A part of the results that is determined by the arguments. -/
theorem map_of_mapM {γ : Type} {f : α → Except ε β} {p : β → γ} {q : α → γ}
    (hf : ∀ a b, f a = .ok b → p b = q a) {l : List α} {l' : List β} (h : l.mapM f = .ok l') :
    l'.map p = l.map q := by
  have hall := forall₂_of_mapM h
  clear h
  induction hall with
  | nil => rfl
  | cons hb _ ih => rw [List.map_cons, List.map_cons, hf _ _ hb, ih]

/-- A monadic map over parts, from those over each of them. -/
theorem mapM_flatten {γ : Type} {f : α → Except ε β} {p : γ → List β} {parts : List (List α)}
    {results : List γ}
    (h : List.Forall₂ (fun part result => part.mapM f = .ok (p result)) parts results) :
    parts.flatten.mapM f = .ok (results.flatMap p) := by
  induction h with
  | nil => rfl
  | cons hone _ ih =>
    rw [List.flatten_cons, List.mapM_append, hone, ih]
    rfl

/-- What is mapped to members of its own of another list has no larger sum. -/
theorem sum_map_le_of_keys {κ : Type} {key : α → κ} {key' : β → κ} {f : α → ℕ} {g : β → ℕ}
    {l : List α} {l' : List β} (hnodup : (l.map key).Nodup)
    (h : ∀ a ∈ l, ∃ b ∈ l', key' b = key a ∧ f a = g b) : (l.map f).sum ≤ (l'.map g).sum := by
  induction l generalizing l' with
  | nil => exact Nat.zero_le _
  | cons a l ih =>
    rw [List.map_cons, List.nodup_cons] at hnodup
    obtain ⟨b, hb, hkey, hfg⟩ := h a List.mem_cons_self
    obtain ⟨before, after, rfl⟩ := List.append_of_mem hb
    have hrest : (l.map f).sum ≤ ((before ++ after).map g).sum := by
      refine ih hnodup.2 fun c hc => ?_
      obtain ⟨d, hd, hkey', hfg'⟩ := h c (List.mem_cons_of_mem a hc)
      refine ⟨d, ?_, hkey', hfg'⟩
      rw [List.mem_append, List.mem_cons] at hd
      rcases hd with hd | rfl | hd
      · exact List.mem_append_left _ hd
      · exact absurd (List.mem_map.mpr ⟨c, hc, hkey'.symm.trans hkey⟩) hnodup.1
      · exact List.mem_append_right _ hd
    simp only [List.map_append, List.map_cons, List.sum_append, List.sum_cons] at hrest ⊢
    omega

theorem toOption_eq_some {x : Except ε α} {a : α} : x.toOption = some a ↔ x = .ok a := by
  cases x with
  | error e => exact ⟨nofun, nofun⟩
  | ok b => simp [Except.toOption]

theorem zip_map_self (f : α → β) (l : List α) : (l.map f).zip l = l.map fun a => (f a, a) := by
  induction l with
  | nil => rfl
  | cons a l ih => rw [List.map_cons, List.zip_cons_cons, ih, List.map_cons]

theorem zipIdx_map_range (f : ℕ → α) (n : ℕ) :
    ((List.range n).map f).zipIdx = (List.range n).map fun i => (f i, i) := by
  apply List.ext_getElem <;> simp

theorem zip_map_range (f : ℕ → α) (g : ℕ → β) (n : ℕ) :
    ((List.range n).map f).zip ((List.range n).map g) = (List.range n).map fun i => (f i, g i) := by
  apply List.ext_getElem <;> simp

theorem filterMap_eq_map {f : α → Option β} {g : α → β} {l : List α}
    (h : ∀ a ∈ l, f a = some (g a)) : l.filterMap f = l.map g := by
  rw [List.filterMap_congr h]
  exact congrFun List.filterMap_eq_map l

/-- The rule for a counted loop: a step that succeeds and carries the invariant from `d` to
`d + 1` gives a loop that succeeds and carries it from `0` to `n`. -/
theorem foldlM_range (step : σ → ℕ → Except ε σ) (inv : ℕ → σ → Prop) (n : ℕ)
    (hstep : ∀ d s, d < n → inv d s → ∃ s', step s d = .ok s' ∧ inv (d + 1) s') {s : σ}
    (hs : inv 0 s) : ∃ s', (List.range n).foldlM step s = .ok s' ∧ inv n s' := by
  induction n with
  | zero => exact ⟨s, rfl, hs⟩
  | succ n ih =>
    obtain ⟨s', hrun, hinv⟩ := ih fun d s hd => hstep d s (by omega)
    obtain ⟨s'', hlast, hinv'⟩ := hstep n s' (by omega) hinv
    refine ⟨s'', ?_, hinv'⟩
    rw [List.range_succ, List.foldlM_append, hrun]
    simp [hlast, bind, Except.bind, pure, Except.pure]

theorem length_flatten {size : ℕ} {lists : List (List α)} (h : ∀ l ∈ lists, l.length = size) :
    lists.flatten.length = lists.length * size := by
  rw [List.length_flatten, List.map_congr_left h]
  simp

/-- Chunk `i` of a concatenation of equally long lists. -/
theorem take_drop_flatten {size : ℕ} {lists : List (List α)} (h : ∀ l ∈ lists, l.length = size)
    {i : ℕ} (hi : i < lists.length) :
    (lists.flatten.drop (i * size)).take size = lists[i] := by
  induction lists generalizing i with
  | nil => simp at hi
  | cons l lists ih =>
    have hl : l.length = size := h l (by simp)
    rw [List.flatten_cons]
    cases i with
    | zero => simp [← hl]
    | succ i =>
      rw [show (i + 1) * size = l.length + i * size by rw [hl]; ring, List.drop_length_add_append,
        ih (fun l' hl' => h l' (by simp [hl'])) (by simpa using hi)]
      rfl

theorem getElem?_flatten {size : ℕ} {lists : List (List α)} (h : ∀ l ∈ lists, l.length = size)
    {i j : ℕ} (hi : i < lists.length) (hj : j < size) :
    lists.flatten[i * size + j]? = lists[i][j]? := by
  rw [← take_drop_flatten h hi, List.getElem?_take_of_lt hj, List.getElem?_drop]

section Positions

variable [DecidableEq α]

theorem idxOf_map_of_injective [DecidableEq β] {f : α → β} (hf : Function.Injective f) (l : List α)
    (a : α) : (l.map f).idxOf (f a) = l.idxOf a := by
  induction l with
  | nil => rfl
  | cons b l ih =>
    rw [List.map_cons]
    by_cases hb : b = a
    · rw [hb, List.idxOf_cons_self, List.idxOf_cons_self]
    · rw [List.idxOf_cons_ne _ hb, List.idxOf_cons_ne _ (hf.ne hb), ih]

theorem modify_idxOf {t : List α} (hnd : t.Nodup) {a : α} (ha : a ∈ t) (f : α → β) (g : β → β) :
    (t.map f).modify (t.idxOf a) g = t.map fun b => if b = a then g (f b) else f b := by
  induction t with
  | nil => simp at ha
  | cons b t ih =>
    obtain ⟨hb, hnd⟩ := List.nodup_cons.mp hnd
    by_cases hba : b = a
    · subst hba
      have hrest : t.map f = t.map fun c => if c = b then g (f c) else f c := by
        apply List.map_congr_left
        intro c hc
        rw [if_neg]
        rintro rfl
        exact hb hc
      simp [← hrest]
    · have ha' : a ∈ t := by simpa [Ne.symm hba] using ha
      rw [List.idxOf_cons_ne _ hba, List.map_cons, List.map_cons, List.modify_succ_cons,
        ih hnd ha', if_neg hba]

end Positions

/-- In a strictly increasing list nothing stands between an entry and its predecessor. -/
theorem sorted_predecessor {t : List ℕ} (ht : t.Pairwise (· < ·)) {a : ℕ} (ha : a ∈ t) :
    (t.idxOf a = 0 ∧ ∀ b ∈ t, a ≤ b) ∨
      (∃ b, t[t.idxOf a - 1]? = some b ∧ t.idxOf a ≠ 0 ∧ b < a ∧ ∀ c ∈ t, b < c → a ≤ c) := by
  induction t with
  | nil => simp at ha
  | cons x t ih =>
    obtain ⟨hx, ht⟩ := List.pairwise_cons.mp ht
    by_cases hxa : x = a
    · subst hxa
      left
      refine ⟨List.idxOf_cons_self, ?_⟩
      intro b hb
      rcases List.mem_cons.mp hb with rfl | hb
      · exact le_refl b
      · exact (hx b hb).le
    · have ha' : a ∈ t := by simpa [Ne.symm hxa] using ha
      right
      rw [List.idxOf_cons_ne _ hxa]
      obtain ⟨h0, hmin⟩ | ⟨b, hb, hne, hba, hbetween⟩ := ih ht ha'
      · refine ⟨x, by simp [h0], by omega, hx a ha', ?_⟩
        intro c hc hxc
        rcases List.mem_cons.mp hc with rfl | hc
        · omega
        · exact hmin c hc
      · refine ⟨b, ?_, by omega, hba, ?_⟩
        · obtain ⟨k, hk⟩ := Nat.exists_eq_succ_of_ne_zero hne
          rw [hk] at hb ⊢
          simpa using hb
        · intro c hc hbc
          rcases List.mem_cons.mp hc with rfl | hc
          · have hbt : b ∈ t := List.mem_of_getElem? hb
            have := hx b hbt
            omega
          · exact hbetween c hc hbc

end Seq
