import OlaOs.Dedup.SlotHistory
import OlaOs.Lib.SortedGroups

/-! The sort of `sort_storage_access_queries`: by slot and, as long as the positions do not wrap
as `u32`, by position. -/
namespace OlaOs

open SortStorageAccess

/-- The positions of queries on one slot, as `u32`, come in their order. -/
def NoWrap (queries : List LogQuery) : Prop :=
  ∀ i j (hi : i < queries.length) (hj : j < queries.length), i < j →
    queries[i].slot = queries[j].slot → i % 2 ^ 32 ≤ j % 2 ^ 32

/-- At most `2 ^ 32` queries do not wrap. -/
theorem noWrap_of_length {queries : List LogQuery} (h : queries.length ≤ 2 ^ 32) :
    NoWrap queries := by
  intro i j hi hj hij _
  rw [Nat.mod_eq_of_lt (hi.trans_le h), Nat.mod_eq_of_lt (hj.trans_le h)]
  exact hij.le

theorem sameSlot_iff (candidate el : EnumeratedQuery) :
    sameSlot candidate el = true ↔ el.rawQuery.slot = candidate.rawQuery.slot := by
  simp [sameSlot, LogQuery.slot, and_assoc]

theorem sameSlot_eq (candidate : EnumeratedQuery) :
    sameSlot candidate = fun el => decide (el.rawQuery.slot = candidate.rawQuery.slot) := by
  funext el
  rw [Bool.eq_iff_iff, sameSlot_iff, decide_eq_true_eq]

theorem compareQueries_isLE (a b : EnumeratedQuery) : (compareQueries a b).isLE = true ↔
    a.rawQuery.slot < b.rawQuery.slot ∨
      a.rawQuery.slot = b.rawQuery.slot ∧ a.extendedTimestamp ≤ b.extendedTimestamp := by
  have hslot : a.rawQuery.slot = b.rawQuery.slot ↔ a.rawQuery.shardId = b.rawQuery.shardId ∧
      a.rawQuery.address = b.rawQuery.address ∧ a.rawQuery.key = b.rawQuery.key := by
    simp [LogQuery.slot]
  have hlt := Slot.lt_iff a.rawQuery.slot b.rawQuery.slot
  simp only [LogQuery.slot] at hlt
  unfold compareQueries
  rw [hslot, LogQuery.slot, LogQuery.slot, hlt]
  rcases lt_trichotomy a.rawQuery.shardId b.rawQuery.shardId with h | h | h
  · simp [compare_lt_iff_lt.mpr h, h]
  · rcases lt_trichotomy a.rawQuery.address b.rawQuery.address with h' | h' | h'
    · simp [h, compare_lt_iff_lt.mpr h', h']
    · rcases lt_trichotomy a.rawQuery.key b.rawQuery.key with h'' | h'' | h''
      · simp [h, h', compare_lt_iff_lt.mpr h'', h'']
      · simp [h, h', h'', Ordering.isLE_iff_ne_gt, compare_gt_iff_gt]
      · simp [h, h', compare_gt_iff_gt.mpr h'', h''.not_gt, h''.ne']
    · simp [h, compare_gt_iff_gt.mpr h', h'.not_gt, h'.ne']
  · simp [compare_gt_iff_gt.mpr h, h.not_gt, h.ne']

theorem isLE_trans (a b c : EnumeratedQuery) (hab : (compareQueries a b).isLE = true)
    (hbc : (compareQueries b c).isLE = true) : (compareQueries a c).isLE = true := by
  rw [compareQueries_isLE] at *
  rcases hab with hab | ⟨hab, htab⟩
  · rcases hbc with hbc | ⟨hbc, -⟩
    · exact .inl (hab.trans hbc)
    · exact .inl (hbc ▸ hab)
  · rcases hbc with hbc | ⟨hbc, htbc⟩
    · exact .inl (hab ▸ hbc)
    · exact .inr ⟨hab.trans hbc, htab.trans htbc⟩

theorem isLE_total (a b : EnumeratedQuery) :
    ((compareQueries a b).isLE || (compareQueries b a).isLE) = true := by
  rw [Bool.or_eq_true, compareQueries_isLE, compareQueries_isLE]
  rcases lt_trichotomy a.rawQuery.slot b.rawQuery.slot with h | h | h
  · exact .inl (.inl h)
  · rcases le_total a.extendedTimestamp b.extendedTimestamp with ht | ht
    · exact .inl (.inr ⟨h, ht⟩)
    · exact .inr (.inr ⟨h.symm, ht⟩)
  · exact .inr (.inl h)

theorem mem_zipIdx_enumerateQueries {queries : List LogQuery} {e : EnumeratedQuery × ℕ} :
    e ∈ (enumerateQueries queries).zipIdx ↔ ∃ h : e.2 < queries.length,
      e.1 = ⟨queries[e.2], Fin.ofNat (2 ^ 32) e.2⟩ := by
  rw [List.mem_zipIdx_iff_getElem?, enumerateQueries, List.getElem?_map, List.getElem?_zipIdx]
  by_cases h : e.2 < queries.length
  · simp [h, eq_comm]
  · simp [h]

theorem sortQueries_order (queries : List LogQuery) :
    ∃ order : List (EnumeratedQuery × ℕ), order.Perm (enumerateQueries queries).zipIdx ∧
      order.Pairwise (fun a b => List.zipIdxLE (fun a b => (compareQueries a b).isLE) a b = true) ∧
      sortQueries queries = order.map Prod.fst :=
  SortedGroups.exists_stable_order isLE_trans isLE_total _

theorem positions_ne {els : List EnumeratedQuery} {order : List (EnumeratedQuery × ℕ)}
    (hperm : order.Perm els.zipIdx) : order.Pairwise fun a b => a.2 ≠ b.2 := by
  apply List.pairwise_map.mp
  have hsnd := (hperm.map Prod.snd).nodup_iff
  rw [List.zipIdx_map_snd] at hsnd
  exact hsnd.mpr List.nodup_range'

/-- Without a wrap the sort is by slot and position. -/
theorem sortQueries_by_position {queries : List LogQuery} (hwrap : NoWrap queries) :
    ∃ order : List (EnumeratedQuery × ℕ), order.Perm (enumerateQueries queries).zipIdx ∧
      order.Pairwise (fun a b => a.1.rawQuery.slot < b.1.rawQuery.slot ∨
        a.1.rawQuery.slot = b.1.rawQuery.slot ∧ a.2 < b.2) ∧
      sortQueries queries = order.map Prod.fst := by
  obtain ⟨order, hperm, hsorted, heq⟩ := sortQueries_order queries
  refine ⟨order, hperm, ?_, heq⟩
  refine (hsorted.and (positions_ne hperm)).imp_of_mem ?_
  intro a b ha hb hab
  rcases mem_zipIdx_enumerateQueries.mp (hperm.mem_iff.mp ha) with ⟨hai, hae⟩
  rcases mem_zipIdx_enumerateQueries.mp (hperm.mem_iff.mp hb) with ⟨hbi, hbe⟩
  rcases hab with ⟨hle, hne⟩
  simp only [List.zipIdxLE, compareQueries_isLE] at hle
  by_cases hslot : a.1.rawQuery.slot = b.1.rawQuery.slot
  · refine .inr ⟨hslot, lt_of_le_of_ne ?_ hne⟩
    by_contra hgt
    -- the later query comes first, so its timestamp is not greater, and the sort is stable
    have hts : b.1.extendedTimestamp ≤ a.1.extendedTimestamp := by
      rw [hae, hbe] at hslot ⊢
      rw [Fin.le_def, Fin.val_ofNat, Fin.val_ofNat]
      exact hwrap b.2 a.2 hbi hai (by omega) hslot.symm
    simp only [hslot, lt_irrefl, true_and, false_or, hts] at hle
    split_ifs at hle with h
    exact hgt (by simpa using hle)
  · split_ifs at hle with h
    · rcases h with h | h
      · exact .inl h
      · exact absurd h.1 hslot
    · rcases h with h | h
      · exact .inl h
      · exact absurd h.1 hslot

/-- A sort by slot and position leaves no wrap. -/
theorem noWrap_of_order {queries : List LogQuery} {order : List (EnumeratedQuery × ℕ)}
    (hperm : order.Perm (enumerateQueries queries).zipIdx)
    (horder : order.Pairwise (fun a b => a.1.rawQuery.slot < b.1.rawQuery.slot ∨
      a.1.rawQuery.slot = b.1.rawQuery.slot ∧ a.2 < b.2))
    (heq : sortQueries queries = order.map Prod.fst) : NoWrap queries := by
  intro i j hi hj hij hslot
  have hsorted : (order.map Prod.fst).Pairwise fun a b => (compareQueries a b).isLE = true := by
    rw [← heq]
    exact List.pairwise_mergeSort isLE_trans isLE_total _
  have hmem (k : ℕ) (hk : k < queries.length) :
      ((⟨queries[k], Fin.ofNat (2 ^ 32) k⟩, k) : EnumeratedQuery × ℕ) ∈ order :=
    hperm.mem_iff.mpr (mem_zipIdx_enumerateQueries.mpr ⟨hk, rfl⟩)
  have hboth := SortedGroups.pairwise_or (horder.and (List.pairwise_map.mp hsorted)) (hmem i hi)
    (hmem j hj) (fun h => hij.ne (congrArg Prod.snd h))
  simp only [hslot, lt_irrefl, true_and, false_or, compareQueries_isLE, Fin.le_def,
    Fin.val_ofNat] at hboth
  rcases hboth with h | h
  · exact h.2
  · omega

/-- The sorted queries of one slot are its queries in their original order. -/
theorem filter_order {queries : List LogQuery} {order : List (EnumeratedQuery × ℕ)}
    (hperm : order.Perm (enumerateQueries queries).zipIdx)
    (horder : order.Pairwise (fun a b => a.1.rawQuery.slot < b.1.rawQuery.slot ∨
      a.1.rawQuery.slot = b.1.rawQuery.slot ∧ a.2 < b.2)) (slot : Slot) :
    ((order.map Prod.fst).filter fun e => e.rawQuery.slot = slot).map EnumeratedQuery.rawQuery =
      queries.filter fun q => q.slot = slot := by
  have hfilter : order.filter (fun e => e.1.rawQuery.slot = slot) =
      (enumerateQueries queries).zipIdx.filter fun e => e.1.rawQuery.slot = slot := by
    refine List.Perm.eq_of_pairwise (fun a b _ _ (hab : a.2 < b.2) hba => absurd hab hba.not_gt)
      ?_ ?_ (hperm.filter _)
    · refine (horder.filter _).imp_of_mem ?_
      intro a b ha hb hab
      have ha' : a.1.rawQuery.slot = slot := by simpa using (List.mem_filter.mp ha).2
      have hb' : b.1.rawQuery.slot = slot := by simpa using (List.mem_filter.mp hb).2
      rw [ha', hb'] at hab
      rcases hab with hab | hab
      · exact absurd hab (lt_irrefl _)
      · exact hab.2
    · apply List.Pairwise.filter
      apply List.pairwise_map.mp
      rw [List.zipIdx_map_snd]
      exact List.pairwise_lt_range'
  have hqueries : (enumerateQueries queries).zipIdx.map (fun e => e.1.rawQuery) = queries := by
    have hfst : (enumerateQueries queries).zipIdx.map (fun e => e.1.rawQuery) =
        ((enumerateQueries queries).zipIdx.map Prod.fst).map EnumeratedQuery.rawQuery := by
      rw [List.map_map]
      rfl
    rw [hfst, List.zipIdx_map_fst, enumerateQueries, List.map_map]
    exact List.zipIdx_map_fst 0 queries
  have hmap : ((order.map Prod.fst).filter fun e => e.rawQuery.slot = slot).map
      EnumeratedQuery.rawQuery = (order.filter (fun e => e.1.rawQuery.slot = slot)).map
        fun e => e.1.rawQuery := by
    rw [List.filter_map, List.map_map]
    rfl
  rw [hmap, hfilter]
  conv_rhs => rw [← hqueries]
  rw [List.filter_map]
  rfl

end OlaOs
