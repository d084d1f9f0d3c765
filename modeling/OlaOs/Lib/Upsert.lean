import Mathlib.Data.List.Nodup

/-! A table with a primary key under `INSERT ... ON CONFLICT DO UPDATE`, one row at a time. The
row that a key leads to is found again from the rows that were put in under that key. -/
namespace Upsert

variable {ρ κ : Type*} [DecidableEq κ] {key : ρ → κ} {merge : ρ → ρ → ρ}

/-- The row of a key. -/
def row (key : ρ → κ) (table : List ρ) (k : κ) : Option ρ := table.find? fun r => key r = k

/-- Put a row in; the row that has its key already is merged with it. -/
def upsert (key : ρ → κ) (merge : ρ → ρ → ρ) (table : List ρ) (new : ρ) : List ρ :=
  if key new ∈ table.map key then
    table.map fun old => if key old = key new then merge old new else old
  else table ++ [new]

/-- What the row of a key becomes. -/
def mergeRow (merge : ρ → ρ → ρ) (old : Option ρ) (new : ρ) : Option ρ :=
  some (match old with
    | none => new
    | some old => merge old new)

theorem row_eq_none {table : List ρ} {k : κ} : row key table k = none ↔ k ∉ table.map key := by
  simp [row]

theorem key_of_row {table : List ρ} {k : κ} {r : ρ} (h : row key table k = some r) : key r = k := by
  simpa using List.find?_some h

theorem mem_of_row {table : List ρ} {k : κ} {r : ρ} (h : row key table k = some r) : r ∈ table :=
  List.mem_of_find?_eq_some h

/-- With distinct keys every row is the row of its key. -/
theorem row_of_mem {table : List ρ} (h : (table.map key).Nodup) {r : ρ} (hr : r ∈ table) :
    row key table (key r) = some r := by
  cases hrow : row key table (key r) with
  | none => exact absurd (List.mem_map_of_mem hr) (row_eq_none.mp hrow)
  | some r' =>
    rw [List.inj_on_of_nodup_map h (mem_of_row hrow) hr (key_of_row hrow)]

/-- `UPDATE ... WHERE` the key has a value. -/
def modify (key : ρ → κ) (table : List ρ) (k : κ) (f : ρ → ρ) : List ρ :=
  table.map fun r => if key r = k then f r else r

theorem map_key_modify {f : ρ → ρ} (hf : ∀ r, key (f r) = key r) (table : List ρ) (k : κ) :
    (modify key table k f).map key = table.map key := by
  rw [modify, List.map_map]
  apply List.map_congr_left
  intro r _
  simp only [Function.comp_apply]
  split_ifs
  · exact hf r
  · rfl

theorem row_modify {f : ρ → ρ} (hf : ∀ r, key (f r) = key r) (table : List ρ) (k k' : κ) :
    row key (modify key table k f) k' =
      if k' = k then (row key table k').map f else row key table k' := by
  have hsame : (fun r => decide (key r = k')) ∘ (fun r => if key r = k then f r else r) =
      fun r => decide (key r = k') := by
    funext r
    simp only [Function.comp_apply]
    split_ifs <;> simp [hf]
  rw [modify, row, List.find?_map, hsame, row]
  cases hrow : table.find? fun r => decide (key r = k') with
  | none => simp
  | some r =>
    obtain rfl : key r = k' := key_of_row hrow
    by_cases hk : key r = k
    · simp [hk]
    · simp [hk]

section Keeping

variable (hkey : ∀ old new, key (merge old new) = key old)

include hkey

theorem map_key_upsert (table : List ρ) (new : ρ) : (upsert key merge table new).map key =
    if key new ∈ table.map key then table.map key else table.map key ++ [key new] := by
  unfold upsert
  split_ifs with h
  · exact map_key_modify (f := fun old => merge old new) (fun old => hkey old new) table (key new)
  · simp

theorem nodup_upsert {table : List ρ} (h : (table.map key).Nodup) (new : ρ) :
    ((upsert key merge table new).map key).Nodup := by
  rw [map_key_upsert hkey]
  split_ifs with hmem
  · exact h
  · rw [List.nodup_append]
    exact ⟨h, by simp, fun a ha b hb hab =>
      hmem (List.mem_singleton.mp hb ▸ hab ▸ ha)⟩

theorem row_upsert (table : List ρ) (new : ρ) (k : κ) : row key (upsert key merge table new) k =
    if key new = k then mergeRow merge (row key table k) new else row key table k := by
  unfold upsert
  by_cases hmem : key new ∈ table.map key
  · rw [if_pos hmem]
    have hmodify := row_modify (f := fun old => merge old new) (fun old => hkey old new) table
      (key new) k
    rw [modify] at hmodify
    rw [hmodify]
    by_cases hk : key new = k
    · subst hk
      obtain ⟨old, hold⟩ := Option.ne_none_iff_exists'.mp fun hnone => row_eq_none.mp hnone hmem
      simp [hold, mergeRow]
    · simp [hk, Ne.symm hk]
  · rw [if_neg hmem]
    by_cases hk : key new = k
    · subst hk
      have hnone : row key table (key new) = none := row_eq_none.mpr hmem
      rw [if_pos rfl, hnone, row, List.find?_append]
      rw [row] at hnone
      simp [hnone, mergeRow]
    · simp [row, List.find?_append, hk]

/-- A whole list of rows: each key sees its own rows only, in their order. -/
theorem row_foldl_upsert (table rows : List ρ) (k : κ) :
    row key (rows.foldl (upsert key merge) table) k =
      (rows.filter fun r => key r = k).foldl (mergeRow merge) (row key table k) := by
  induction rows generalizing table with
  | nil => rfl
  | cons new rows ih =>
    rw [List.foldl_cons, ih, row_upsert hkey]
    by_cases hk : key new = k
    · simp [hk]
    · simp [hk]

theorem nodup_foldl_upsert {table : List ρ} (h : (table.map key).Nodup) (rows : List ρ) :
    ((rows.foldl (upsert key merge) table).map key).Nodup := by
  induction rows generalizing table with
  | nil => exact h
  | cons new rows ih => exact ih (nodup_upsert hkey h new)

end Keeping

end Upsert
