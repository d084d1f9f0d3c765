import Mathlib.Data.List.Induction
import Mathlib.Data.List.Nodup
import Mathlib.Data.Nat.Notation

/-! Numbering keys in the order in which they are first written. -/
namespace Enumerate

variable {κ V : Type*} [DecidableEq κ]

/-- The keys seen so far, in the order of their first occurrence. -/
def enumerate (order keys : List κ) : List κ :=
  keys.foldl (fun order k => if k ∈ order then order else order ++ [k]) order

theorem enumerate_concat (order keys : List κ) (k : κ) :
    enumerate order (keys ++ [k]) =
      if k ∈ enumerate order keys then enumerate order keys else enumerate order keys ++ [k] := by
  rw [enumerate, List.foldl_concat]
  rfl

theorem enumerate_append (order keys keys' : List κ) :
    enumerate order (keys ++ keys') = enumerate (enumerate order keys) keys' := by
  rw [enumerate, List.foldl_append]
  rfl

theorem mem_enumerate {order keys : List κ} {k : κ} :
    k ∈ enumerate order keys ↔ k ∈ order ∨ k ∈ keys := by
  induction keys using List.reverseRecOn with
  | nil => simp [enumerate]
  | append_singleton keys k' ih =>
    rw [enumerate_concat]
    by_cases hk : k = k'
    · subst hk
      split_ifs with hmem
      · simp [hmem]
      · simp
    · split_ifs <;> simp [ih, hk]

theorem enumerate_eq_self_iff {order keys : List κ} :
    enumerate order keys = order ↔ ∀ k ∈ keys, k ∈ order := by
  constructor
  · intro h k hk
    rw [← h]
    exact mem_enumerate.mpr (.inr hk)
  · intro h
    induction keys using List.reverseRecOn with
    | nil => rfl
    | append_singleton keys k ih =>
      have hkeys := ih fun k' hk' => h k' (List.mem_append_left _ hk')
      rw [enumerate_concat, hkeys, if_pos (h k (by simp))]

theorem enumerate_nodup {order : List κ} (h : order.Nodup) (keys : List κ) :
    (enumerate order keys).Nodup := by
  induction keys using List.reverseRecOn with
  | nil => exact h
  | append_singleton keys k ih =>
    rw [enumerate_concat]
    split_ifs with hmem
    · exact ih
    · rw [List.nodup_append]
      refine ⟨ih, List.nodup_singleton k, ?_⟩
      rintro a ha b hb rfl
      obtain rfl : a = k := by simpa using hb
      exact hmem ha

theorem prefix_enumerate (order keys : List κ) : order <+: enumerate order keys := by
  induction keys using List.reverseRecOn with
  | nil => exact List.prefix_refl _
  | append_singleton keys k ih =>
    rw [enumerate_concat]
    split_ifs
    · exact ih
    · exact ih.trans (List.prefix_append _ _)

/-- A number once given stays. -/
theorem idxOf_enumerate {order : List κ} {k : κ} (h : k ∈ order) (keys : List κ) :
    (enumerate order keys).idxOf k = order.idxOf k := by
  obtain ⟨rest, hrest⟩ := prefix_enumerate order keys
  rw [← hrest, List.idxOf_append_of_mem h]

/-- Distinct new keys are numbered in their order. -/
theorem enumerate_of_nodup {order keys : List κ} (h : (keys.filter (· ∉ order)).Nodup) :
    enumerate order keys = order ++ keys.filter (· ∉ order) := by
  induction keys using List.reverseRecOn with
  | nil => simp [enumerate]
  | append_singleton keys k ih =>
    rw [List.filter_append, List.nodup_append] at h
    have hkeys := ih h.1
    rw [enumerate_concat, List.filter_append]
    by_cases hk : k ∈ order
    · rw [if_pos (mem_enumerate.mpr (.inl hk)), hkeys]
      simp [hk]
    · have hnew : k ∉ keys := fun hmem =>
        h.2.2 k (List.mem_filter.mpr ⟨hmem, by simpa using hk⟩) k (by simp [hk]) rfl
      rw [if_neg (by simp [mem_enumerate, hk, hnew]), hkeys]
      simp [hk]

theorem enumerate_map {ι : Type*} [DecidableEq ι] {f : κ → ι} (hf : Function.Injective f)
    (order keys : List κ) :
    enumerate (order.map f) (keys.map f) = (enumerate order keys).map f := by
  induction keys using List.reverseRecOn with
  | nil => rfl
  | append_singleton keys k ih =>
    rw [List.map_append, List.map_singleton, enumerate_concat, enumerate_concat, ih]
    simp only [List.mem_map_of_injective hf]
    split_ifs
    · rfl
    · rw [List.map_append, List.map_singleton]

/-- Whether entry `e` of a list of writes, with its position, is the first write to a key that
has no number yet. -/
def isFresh (order : List κ) (writes : List (κ × V)) (e : (κ × V) × ℕ) : Bool :=
  decide (e.1.1 ∉ order ∧ e.1.1 ∉ (writes.take e.2).map Prod.fst)

/-- The first writes to keys without a number. -/
def firstWrites (order : List κ) (writes : List (κ × V)) : List (κ × V) :=
  (writes.zipIdx.filter (isFresh order writes)).map Prod.fst

/-- All other writes. -/
def laterWrites (order : List κ) (writes : List (κ × V)) : List (κ × V) :=
  (writes.zipIdx.filter fun e => !isFresh order writes e).map Prod.fst

private theorem isFresh_append {order : List κ} {writes : List (κ × V)} (w : κ × V)
    {e : (κ × V) × ℕ} (he : e ∈ writes.zipIdx) :
    isFresh order (writes ++ [w]) e = isFresh order writes e := by
  have hlt : e.2 < writes.length := by
    have := List.snd_lt_of_mem_zipIdx he
    omega
  rw [isFresh, isFresh, List.take_append_of_le_length (Nat.le_of_lt hlt)]

private theorem isFresh_last (order : List κ) (writes : List (κ × V)) (w : κ × V) :
    isFresh order (writes ++ [w]) (w, writes.length) =
      decide (w.1 ∉ enumerate order (writes.map Prod.fst)) := by
  rw [isFresh, List.take_left']
  · simp only [mem_enumerate, not_or]
  · rfl

theorem firstWrites_concat (order : List κ) (writes : List (κ × V)) (w : κ × V) :
    firstWrites order (writes ++ [w]) = firstWrites order writes ++
      if w.1 ∈ enumerate order (writes.map Prod.fst) then [] else [w] := by
  rw [firstWrites, List.zipIdx_append, List.filter_append, List.map_append,
    List.filter_congr fun e he => isFresh_append w he]
  congr 1
  simp only [List.zipIdx_singleton, Nat.zero_add, List.filter_cons, isFresh_last, List.filter_nil]
  split_ifs <;> simp_all

theorem laterWrites_concat (order : List κ) (writes : List (κ × V)) (w : κ × V) :
    laterWrites order (writes ++ [w]) = laterWrites order writes ++
      if w.1 ∈ enumerate order (writes.map Prod.fst) then [w] else [] := by
  rw [laterWrites, List.zipIdx_append, List.filter_append, List.map_append,
    List.filter_congr fun e he => congrArg not (isFresh_append w he)]
  congr 1
  simp only [List.zipIdx_singleton, Nat.zero_add, List.filter_cons, isFresh_last, List.filter_nil]
  split_ifs <;> simp_all

theorem isFresh_congr {order order' : List κ} (h : ∀ k, k ∈ order ↔ k ∈ order')
    (writes : List (κ × V)) : isFresh order writes = isFresh order' writes := by
  funext e
  simp only [isFresh, h]

theorem mem_of_mem_firstWrites {order : List κ} {writes : List (κ × V)} {w : κ × V}
    (h : w ∈ firstWrites order writes) : w ∈ writes := by
  obtain ⟨e, he, rfl⟩ := List.mem_map.mp h
  exact List.fst_mem_of_mem_zipIdx (List.mem_filter.mp he).1

theorem mem_of_mem_laterWrites {order : List κ} {writes : List (κ × V)} {w : κ × V}
    (h : w ∈ laterWrites order writes) : w ∈ writes := by
  obtain ⟨e, he, rfl⟩ := List.mem_map.mp h
  exact List.fst_mem_of_mem_zipIdx (List.mem_filter.mp he).1

/-- The last of several writes to different keys has a number only if it had one before. -/
private theorem mem_enumerate_last {order : List κ} {writes : List (κ × V)} {w : κ × V}
    (hnodup : ((writes ++ [w]).map Prod.fst).Nodup) :
    w.1 ∈ enumerate order (writes.map Prod.fst) ↔ w.1 ∈ order := by
  rw [List.map_append, List.nodup_append] at hnodup
  rw [mem_enumerate]
  refine or_iff_left fun hmem => ?_
  exact hnodup.2.2 w.1 hmem w.1 (by simp) rfl

/-- Writes to different keys are first writes when their key has no number. -/
theorem firstWrites_eq_filter (order : List κ) {writes : List (κ × V)}
    (hnodup : (writes.map Prod.fst).Nodup) :
    firstWrites order writes = writes.filter fun w => w.1 ∉ order := by
  induction writes using List.reverseRecOn with
  | nil => rfl
  | append_singleton writes w ih =>
    have hlast := @mem_enumerate_last κ V _ order writes w hnodup
    rw [List.map_append, List.nodup_append] at hnodup
    rw [firstWrites_concat, ih hnodup.1, List.filter_append]
    by_cases hmem : w.1 ∈ order
    · simp [hlast, hmem]
    · simp [hlast, hmem]

theorem laterWrites_eq_filter (order : List κ) {writes : List (κ × V)}
    (hnodup : (writes.map Prod.fst).Nodup) :
    laterWrites order writes = writes.filter fun w => w.1 ∈ order := by
  induction writes using List.reverseRecOn with
  | nil => rfl
  | append_singleton writes w ih =>
    have hlast := @mem_enumerate_last κ V _ order writes w hnodup
    rw [List.map_append, List.nodup_append] at hnodup
    rw [laterWrites_concat, ih hnodup.1, List.filter_append]
    by_cases hmem : w.1 ∈ order
    · simp [hlast, hmem]
    · simp [hlast, hmem]

/-- The keys of the first writes are what the writes add to the numbering. -/
theorem enumerate_eq_append (order : List κ) (writes : List (κ × V)) :
    enumerate order (writes.map Prod.fst) = order ++ (firstWrites order writes).map Prod.fst := by
  induction writes using List.reverseRecOn with
  | nil => simp [enumerate, firstWrites]
  | append_singleton writes w ih =>
    rw [List.map_append, List.map_cons, List.map_nil, enumerate_concat, firstWrites_concat,
      List.map_append]
    split_ifs
    · simp [ih]
    · rw [ih, List.append_assoc]
      rfl

/-- First writes take consecutive numbers. -/
theorem idxOf_of_mem_zipIdx_firstWrites {order : List κ} (hnodup : order.Nodup)
    {writes : List (κ × V)} {e : (κ × V) × ℕ}
    (he : e ∈ (firstWrites order writes).zipIdx (order.length + 1)) :
    (enumerate order (writes.map Prod.fst)).idxOf e.1.1 + 1 = e.2 := by
  obtain ⟨w, i⟩ := e
  obtain ⟨hle, hlt, hw⟩ := List.mem_zipIdx he
  have hlen : i - 1 < (enumerate order (writes.map Prod.fst)).length := by
    rw [enumerate_eq_append, List.length_append, List.length_map]
    omega
  have hget : (enumerate order (writes.map Prod.fst))[i - 1] = w.1 := by
    simp only [enumerate_eq_append]
    rw [List.getElem_append_right (by omega), List.getElem_map]
    simp only [hw, Nat.sub_sub, Nat.add_comm 1]
  rw [← hget, List.Nodup.idxOf_getElem (enumerate_nodup hnodup _)]
  omega

end Enumerate
