import Mathlib.Algebra.GroupWithZero.Nat
import Mathlib.Data.List.AList
import Mathlib.Data.List.Induction
import Mathlib.Data.List.Perm.Basic
import Mathlib.Order.Lattice

/-! Hash maps as association lists with distinct keys. The order of the entries stands for
the unspecified iteration order of a hash map; the lemmas speak of lookups only. -/

abbrev KeyedMap (κ α : Type*) := AList (fun _ : κ => α)

namespace KeyedMap

variable {κ α β : Type*} [DecidableEq κ]

def toList (m : KeyedMap κ α) : List (κ × α) := m.entries.map fun e => (e.1, e.2)

/-- Collect pairs into a map; a later pair replaces an earlier one with its key. -/
def ofList (l : List (κ × α)) : KeyedMap κ α := l.foldl (fun m e => m.insert e.1 e.2) ∅

/-- Add all pairs to a map in turn. -/
def extend (m : KeyedMap κ α) (l : List (κ × α)) : KeyedMap κ α :=
  l.foldl (fun m e => m.insert e.1 e.2) m

theorem mem_toList {m : KeyedMap κ α} {k : κ} {a : α} :
    (k, a) ∈ m.toList ↔ m.lookup k = some a := by
  have h : (k, a) ∈ m.toList ↔ (⟨k, a⟩ : Σ _ : κ, α) ∈ m.entries := by
    simp only [toList, List.mem_map, Prod.mk.injEq]
    constructor
    · rintro ⟨⟨k', a'⟩, he, rfl, rfl⟩
      exact he
    · exact fun he => ⟨⟨k, a⟩, he, rfl, rfl⟩
  rw [h, ← AList.mem_lookup_iff, Option.mem_def]

omit [DecidableEq κ] in
theorem nodup_keys_toList (m : KeyedMap κ α) : (m.toList.map Prod.fst).Nodup := by
  have h := m.nodupKeys
  rw [List.NodupKeys, List.keys] at h
  simpa [toList, List.map_map, Function.comp_def] using h

theorem lookup_insert_eq (m : KeyedMap κ α) (k k' : κ) (a : α) :
    (m.insert k a).lookup k' = if k' = k then some a else m.lookup k' := by
  by_cases h : k' = k
  · subst h
    rw [AList.lookup_insert, if_pos rfl]
  · rw [AList.lookup_insert_ne h, if_neg h]

/-- What a map extended by pairs holds: the last pair with the key, or the old value. -/
theorem lookup_extend (m : KeyedMap κ α) (l : List (κ × α)) (k : κ) :
    (m.extend l).lookup k =
      ((l.filter fun e => e.1 = k).getLast?.map Prod.snd).or (m.lookup k) := by
  induction l generalizing m with
  | nil => rfl
  | cons e l ih =>
    have hstep : m.extend (e :: l) = extend (m.insert e.1 e.2) l := rfl
    rw [hstep, ih, lookup_insert_eq, List.filter_cons]
    by_cases h : e.1 = k
    · cases hl : (l.filter fun e => e.1 = k).getLast? with
      | none =>
        rw [List.getLast?_eq_none_iff] at hl
        simp [h, hl]
      | some x =>
        simp [h, List.getLast?_cons, hl]
    · simp [h, Ne.symm h]

theorem lookup_extend_of_notMem {m : KeyedMap κ α} {l : List (κ × α)} {k : κ}
    (h : ∀ a, (k, a) ∉ l) : (m.extend l).lookup k = m.lookup k := by
  have hf : (l.filter fun e => e.1 = k) = [] := by
    rw [List.filter_eq_nil_iff]
    rintro ⟨k', a⟩ he hk
    obtain rfl : k' = k := by simpa using hk
    exact h a he
  simp [lookup_extend, hf]

theorem lookup_extend_of_forall {m : KeyedMap κ α} {l : List (κ × α)} {k : κ} {a : α}
    (hmem : (k, a) ∈ l) (huniq : ∀ a', (k, a') ∈ l → a' = a) :
    (m.extend l).lookup k = some a := by
  have hne : (l.filter fun e => e.1 = k) ≠ [] :=
    List.ne_nil_of_mem (List.mem_filter.mpr ⟨hmem, by simp⟩)
  rw [lookup_extend]
  cases hx : (l.filter fun e => e.1 = k).getLast? with
  | none => exact absurd (List.getLast?_eq_none_iff.mp hx) hne
  | some x =>
    obtain ⟨hl, hk⟩ := List.mem_filter.mp (List.mem_of_getLast? hx)
    obtain rfl : x.1 = k := by simpa using hk
    rw [Option.map_some, Option.some_or, huniq x.2 hl]

/-- The keys of an extended map. -/
theorem lookup_extend_isSome {m : KeyedMap κ α} {l : List (κ × α)} {k : κ} :
    ((m.extend l).lookup k).isSome ↔ (∃ a, (k, a) ∈ l) ∨ (m.lookup k).isSome := by
  by_cases h : ∃ a, (k, a) ∈ l
  · obtain ⟨a, ha⟩ := h
    have hne : (l.filter fun e => e.1 = k) ≠ [] :=
      List.ne_nil_of_mem (List.mem_filter.mpr ⟨ha, by simp⟩)
    rw [lookup_extend, List.getLast?_eq_some_getLast hne]
    exact iff_of_true rfl (.inl ⟨a, ha⟩)
  · rw [lookup_extend_of_notMem (not_exists.mp h)]
    exact (or_iff_right h).symm

theorem ofList_eq_extend (l : List (κ × α)) : ofList l = extend (∅ : KeyedMap κ α) l := rfl

/-- Pairs with distinct keys are all found again. -/
theorem lookup_ofList_of_mem {l : List (κ × α)} (hnd : (l.map Prod.fst).Nodup) {k : κ} {a : α}
    (h : (k, a) ∈ l) : (ofList l).lookup k = some a := by
  rw [ofList_eq_extend]
  apply lookup_extend_of_forall h
  intro a' h'
  have := List.inj_on_of_nodup_map hnd h' h rfl
  exact congrArg Prod.snd this

theorem lookup_ofList_of_notMem {l : List (κ × α)} {k : κ} (h : ∀ a, (k, a) ∉ l) :
    (ofList l).lookup k = none := by
  rw [ofList_eq_extend, lookup_extend_of_notMem h]
  rfl

theorem lookup_ofList_isSome {l : List (κ × α)} {k : κ} (h : k ∈ l.map Prod.fst) :
    ∃ a, (k, a) ∈ l ∧ (ofList l).lookup k = some a := by
  obtain ⟨⟨k', a⟩, hmem, rfl⟩ := List.mem_map.mp h
  have hne : (l.filter fun e => e.1 = k') ≠ [] :=
    List.ne_nil_of_mem (List.mem_filter.mpr ⟨hmem, by simp⟩)
  rw [ofList_eq_extend, lookup_extend]
  cases hx : (l.filter fun e => e.1 = k').getLast? with
  | none => exact absurd (List.getLast?_eq_none_iff.mp hx) hne
  | some x =>
    obtain ⟨hl, hk⟩ := List.mem_filter.mp (List.mem_of_getLast? hx)
    obtain rfl : x.1 = k' := by simpa using hk
    exact ⟨x.2, hl, rfl⟩

theorem mem_of_lookup_ofList {l : List (κ × α)} {k : κ} {a : α}
    (h : (ofList l).lookup k = some a) : (k, a) ∈ l := by
  by_cases hk : k ∈ l.map Prod.fst
  · obtain ⟨a', hmem, hlook⟩ := lookup_ofList_isSome hk
    rw [h] at hlook
    rwa [Option.some.inj hlook]
  · rw [lookup_ofList_of_notMem fun a' hmem => hk (List.mem_map.mpr ⟨_, hmem, rfl⟩)] at h
    cases h

/-- The sum of `f` over the values. -/
def total (f : α → ℕ) (m : KeyedMap κ α) : ℕ := (m.toList.map fun e => f e.2).sum

/-- The entries whose key satisfies `p`. -/
def filterKeys (p : κ → Bool) (m : KeyedMap κ α) : KeyedMap κ α :=
  ofList (m.toList.filter fun e => p e.1)

theorem total_erase (f : α → ℕ) (m : KeyedMap κ α) (k : κ) :
    total f (m.erase k) + ((m.lookup k).map f).getD 0 = total f m := by
  obtain ⟨entries, hnd⟩ := m
  show ((entries.kerase k).map (fun e => (e.1, e.2)) |>.map fun e => f e.2).sum +
    ((entries.dlookup k).map f).getD 0 = ((entries.map fun e => (e.1, e.2)).map fun e => f e.2).sum
  clear hnd
  induction entries with
  | nil => rfl
  | cons e entries ih =>
    by_cases hk : k = e.1
    · subst hk
      rw [List.kerase_cons_eq rfl, List.dlookup_cons_eq]
      simp only [List.map_cons, List.sum_cons, Option.map_some, Option.getD_some]
      omega
    · rw [List.kerase_cons_ne hk, List.dlookup_cons_ne _ _ hk]
      simp only [List.map_cons, List.sum_cons] at ih ⊢
      omega

theorem total_insert (f : α → ℕ) (m : KeyedMap κ α) (k : κ) (a : α) :
    total f (m.insert k a) + ((m.lookup k).map f).getD 0 = total f m + f a := by
  have herase := total_erase f m k
  have hinsert : total f (m.insert k a) = f a + total f (m.erase k) := rfl
  omega

theorem lookup_erase_eq (m : KeyedMap κ α) (k k' : κ) :
    (m.erase k).lookup k' = if k' = k then none else m.lookup k' := by
  by_cases h : k' = k
  · subst h
    rw [AList.lookup_erase, if_pos rfl]
  · rw [AList.lookup_erase_ne h, if_neg h]

theorem lookup_filterKeys (p : κ → Bool) (m : KeyedMap κ α) (k : κ) :
    (m.filterKeys p).lookup k = if p k then m.lookup k else none := by
  have hnd : ((m.toList.filter fun e => p e.1).map Prod.fst).Nodup :=
    m.nodup_keys_toList.sublist ((List.filter_sublist).map _)
  split_ifs with hp
  · cases hl : m.lookup k with
    | none =>
      apply lookup_ofList_of_notMem
      intro a ha
      rw [mem_toList.mp (List.mem_filter.mp ha).1] at hl
      cases hl
    | some a =>
      apply lookup_ofList_of_mem hnd
      exact List.mem_filter.mpr ⟨mem_toList.mpr hl, hp⟩
  · apply lookup_ofList_of_notMem
    intro a ha
    exact hp (List.mem_filter.mp ha).2

/-- Split a list into groups with one value of `f`, each in the order of the list. -/
def groupBy (f : β → κ) (l : List β) : KeyedMap κ (List β) :=
  l.foldl (fun m b => m.insert (f b) ((m.lookup (f b)).getD [] ++ [b])) ∅

theorem lookup_groupBy (f : β → κ) (l : List β) (k : κ) :
    (groupBy f l).lookup k =
      if (l.filter fun b => f b = k) = [] then none else some (l.filter fun b => f b = k) := by
  induction l using List.reverseRecOn with
  | nil => rfl
  | append_singleton l b ih =>
    have hstep : groupBy f (l ++ [b]) = (groupBy f l).insert (f b)
        (((groupBy f l).lookup (f b)).getD [] ++ [b]) := by
      simp [groupBy]
    rw [hstep, lookup_insert_eq, List.filter_append]
    by_cases hk : k = f b
    · subst hk
      rw [ih]
      split_ifs with h1 <;> simp_all
    · simp [hk, Ne.symm hk, ih]

/-- Rewriting the values of a map. -/
theorem lookup_ofList_map (m : KeyedMap κ α) (φ : α → β) (k : κ) :
    (ofList (m.toList.map fun e => (e.1, φ e.2))).lookup k = (m.lookup k).map φ := by
  have hnd : ((m.toList.map fun e => (e.1, φ e.2)).map Prod.fst).Nodup := by
    rw [List.map_map]
    exact m.nodup_keys_toList
  cases hl : m.lookup k with
  | none =>
    apply lookup_ofList_of_notMem
    intro b hb
    obtain ⟨⟨k', a⟩, he, heq⟩ := List.mem_map.mp hb
    obtain rfl : k' = k := congrArg Prod.fst heq
    rw [mem_toList, hl] at he
    cases he
  | some a =>
    apply lookup_ofList_of_mem hnd
    exact List.mem_map.mpr ⟨(k, a), mem_toList.mpr hl, rfl⟩

/-- The entries under one key: at most one. -/
theorem filter_key_toList (m : KeyedMap κ α) (k : κ) :
    (m.toList.filter fun e => e.1 = k) = ((m.lookup k).map fun a => (k, a)).toList := by
  have hnd : (m.toList.filter fun e => e.1 = k).Nodup :=
    (List.Nodup.of_map _ m.nodup_keys_toList).filter _
  have hmem (e : κ × α) : e ∈ (m.toList.filter fun e => e.1 = k) ↔
      e ∈ ((m.lookup k).map fun a => (k, a)).toList := by
    obtain ⟨k', a⟩ := e
    simp only [List.mem_filter, mem_toList, decide_eq_true_eq, Option.mem_toList,
      Option.map_eq_some_iff, Prod.mk.injEq]
    constructor
    · rintro ⟨hl, rfl⟩
      exact ⟨a, hl, rfl, rfl⟩
    · rintro ⟨a, hl, rfl, rfl⟩
      exact ⟨hl, rfl⟩
  cases hl : m.lookup k with
  | none =>
    rw [Option.map_none, Option.toList_none, List.eq_nil_iff_forall_not_mem]
    intro e he
    simpa [hl] using (hmem e).mp he
  | some a =>
    have hp : (m.toList.filter fun e => e.1 = k).Perm [(k, a)] := by
      rw [List.perm_ext_iff_of_nodup hnd (List.nodup_singleton _)]
      intro e
      rw [hmem, hl]
      simp
    simpa using List.perm_singleton.mp hp

/-- The map groups the members of `l` by `g`, in the order of `l`; `f b` stands for `b`. -/
def Groups (m : KeyedMap κ (List α)) (g : β → κ) (l : List β) (f : β → α) : Prop :=
  ∀ k, m.lookup k = if (l.filter fun b => g b = k) = [] then none
    else some ((l.filter fun b => g b = k).map f)

/-- The keys of a grouping are the values of `f` on the list. -/
theorem mem_groupBy {f : β → κ} {l : List β} {k : κ} {bs : List β} :
    (k, bs) ∈ (groupBy f l).toList ↔ bs ≠ [] ∧ bs = l.filter fun b => f b = k := by
  rw [mem_toList, lookup_groupBy]
  constructor
  · intro h
    split_ifs at h with hnil
    obtain rfl := Option.some.inj h
    exact ⟨hnil, rfl⟩
  · rintro ⟨hne, rfl⟩
    rw [if_neg hne]

theorem mem_keys_groupBy {f : β → κ} {l : List β} {k : κ} :
    k ∈ (groupBy f l).toList.map Prod.fst ↔ ∃ b ∈ l, f b = k := by
  constructor
  · intro h
    obtain ⟨⟨k', bs⟩, he, rfl⟩ := List.mem_map.mp h
    obtain ⟨hne, rfl⟩ := mem_groupBy.mp he
    obtain ⟨b, hb⟩ := List.exists_mem_of_ne_nil _ hne
    obtain ⟨hb, hk⟩ := List.mem_filter.mp hb
    exact ⟨b, hb, by simpa using hk⟩
  · rintro ⟨b, hb, rfl⟩
    refine List.mem_map.mpr ⟨(f b, l.filter fun b' => f b' = f b), mem_groupBy.mpr ⟨?_, rfl⟩, rfl⟩
    exact List.ne_nil_of_mem (List.mem_filter.mpr ⟨hb, by simp⟩)

theorem Groups.lookup_of_mem {m : KeyedMap κ (List α)} {g : β → κ} {l : List β} {f : β → α}
    (h : Groups m g l f) {b : β} (hb : b ∈ l) :
    m.lookup (g b) = some ((l.filter fun b' => g b' = g b).map f) := by
  rw [h, if_neg]
  exact List.ne_nil_of_mem (List.mem_filter.mpr ⟨hb, by simp⟩)

theorem Groups.mem_of_lookup {m : KeyedMap κ (List α)} {g : β → κ} {l : List β} {f : β → α}
    (h : Groups m g l f) {k : κ} {as : List α} (has : m.lookup k = some as) {a : α} (ha : a ∈ as) :
    ∃ b ∈ l, g b = k ∧ f b = a := by
  rw [h k] at has
  split_ifs at has
  obtain rfl := Option.some.inj has
  obtain ⟨b, hb, rfl⟩ := List.mem_map.mp ha
  obtain ⟨hb, hk⟩ := List.mem_filter.mp hb
  exact ⟨b, hb, by simpa using hk, rfl⟩

theorem Groups.map {γ : Type*} {m : KeyedMap κ (List α)} {g : β → κ} {l : List β} {f : β → α}
    (h : Groups m g l f) (φ : α → γ) :
    Groups (ofList (m.toList.map fun e => (e.1, e.2.map φ))) g l (φ ∘ f) := by
  intro k
  rw [lookup_ofList_map m (List.map φ), h k]
  split_ifs
  · rfl
  · rw [Option.map_some, List.map_map]

theorem Groups.of_eq {m : KeyedMap κ (List α)} {g : β → κ} {l : List β} {f f' : β → α}
    (h : Groups m g l f) (hf : ∀ b ∈ l, f b = f' b) : Groups m g l f' := by
  intro k
  rw [h k, List.map_congr_left fun b hb => hf b (List.mem_filter.mp hb).1]

/-- A loop whose turns insert at most one entry each. -/
theorem foldlM_insert {ε β : Type*} {f : KeyedMap κ α → β → Except ε (KeyedMap κ α)}
    {g : β → Option (κ × α)} {l : List β}
    (h : ∀ b ∈ l, ∀ m, f m b = .ok (m.extend (g b).toList)) (m : KeyedMap κ α) :
    l.foldlM f m = .ok (m.extend (l.filterMap g)) := by
  induction l generalizing m with
  | nil => rfl
  | cons b l ih =>
    rw [List.foldlM_cons, h b List.mem_cons_self]
    have hrest := ih (fun b' hb' => h b' (List.mem_cons_of_mem b hb')) (m.extend (g b).toList)
    cases hg : g b with
    | none =>
      rw [hg] at hrest
      rw [List.filterMap_cons_none hg]
      exact hrest
    | some e =>
      rw [hg] at hrest
      rw [List.filterMap_cons_some hg]
      exact hrest

/-- The values in the order of their keys. -/
def sortedValues [LinearOrder κ] (m : KeyedMap κ α) : List α :=
  (m.toList.mergeSort fun a b => a.1 ≤ b.1).map Prod.snd

theorem sortedValues_eq [LinearOrder κ] {m : KeyedMap κ α} {l : List β} {key : β → κ} {f : β → α}
    (hl : l.Pairwise fun a b => key a < key b)
    (h : ∀ k a, m.lookup k = some a ↔ ∃ b ∈ l, key b = k ∧ f b = a) :
    m.sortedValues = l.map f := by
  have hnodup : (m.toList.map Prod.fst).Nodup := m.nodup_keys_toList
  have hnodup' : (l.map fun b => (key b, f b)).Nodup := by
    rw [List.Nodup, List.pairwise_map]
    exact hl.imp fun hab heq => hab.ne (congrArg Prod.fst heq)
  have hperm : m.toList.Perm (l.map fun b => (key b, f b)) := by
    rw [List.perm_ext_iff_of_nodup hnodup.of_map hnodup']
    rintro ⟨k, a⟩
    rw [mem_toList, h, List.mem_map]
    simp only [Prod.mk.injEq]
  have hsorted : (l.map fun b => (key b, f b)).Pairwise fun a b => decide (a.1 ≤ b.1) = true := by
    rw [List.pairwise_map]
    exact hl.imp fun hab => decide_eq_true hab.le
  have heq : (m.toList.mergeSort fun a b => decide (a.1 ≤ b.1)) = l.map fun b => (key b, f b) := by
    refine List.Perm.eq_of_pairwise ?_ (List.pairwise_mergeSort ?_ ?_ _) hsorted
      ((List.mergeSort_perm _ _).trans hperm)
    · intro a b ha hb hab hba
      have hkey := le_antisymm (of_decide_eq_true hab) (of_decide_eq_true hba)
      have ha := List.mem_mergeSort.mp ha
      exact List.inj_on_of_nodup_map hnodup ha (hperm.mem_iff.mpr hb) hkey
    · exact fun a b c hab hbc =>
        decide_eq_true ((of_decide_eq_true hab).trans (of_decide_eq_true hbc))
    · simp [le_total]
  rw [sortedValues, heq, List.map_map]
  rfl

end KeyedMap
