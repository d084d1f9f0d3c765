import OlaOs.Dedup.SortOrder
import OlaOs.Lib.Seq

/-! The loop of `sort_storage_access_queries` over sorted queries, slot by slot. -/
namespace OlaOs

open SortStorageAccess

/-- The queries of one slot, reduced. -/
def reduceGroup : List EnumeratedQuery → Except String (Option LogQuery)
  | [] => .ok none
  | candidate :: rest => do
    let history ← (candidate :: rest).foldlM keepQuery {}
    reduceSlot candidate history

/-- The queries of a slot in a list. -/
def queriesOf (els : List EnumeratedQuery) (slot : Slot) : List EnumeratedQuery :=
  els.filter fun el => el.rawQuery.slot = slot

theorem queriesOf_eq_nil_iff {els : List EnumeratedQuery} {slot : Slot} :
    queriesOf els slot = [] ↔ slot ∉ els.map fun el => el.rawQuery.slot := by
  rw [queriesOf, List.filter_eq_nil_iff, List.mem_map]
  simp

/-- Queries that are reduced from increasing slots are increasing. -/
theorem pairwise_flatMap_toList {slots : List Slot} (hs : slots.Pairwise (· < ·))
    {result : Slot → Option LogQuery}
    (hslot : ∀ slot ∈ slots, ∀ q, result slot = some q → q.slot = slot) :
    ((slots.map result).flatMap Option.toList).Pairwise fun a b => a.slot < b.slot := by
  induction slots with
  | nil => exact .nil
  | cons slot slots ih =>
    rcases List.pairwise_cons.mp hs with ⟨hlt, hs'⟩
    rw [List.map_cons, List.flatMap_cons, List.pairwise_append]
    refine ⟨by cases result slot <;> simp,
      ih hs' fun slot' hmem => hslot slot' (List.mem_cons_of_mem slot hmem), ?_⟩
    intro a ha b hb
    simp only [List.mem_flatMap, List.mem_map, Option.mem_toList] at hb
    obtain ⟨_, ⟨slot', hmem, rfl⟩, hb⟩ := hb
    rw [hslot slot List.mem_cons_self a (Option.mem_toList.mp ha),
      hslot slot' (List.mem_cons_of_mem slot hmem) b hb]
    exact hlt slot' hmem

theorem mem_slots_filter_ne {els : List EnumeratedQuery} {least slot : Slot} :
    slot ∈ (els.filter fun el => el.rawQuery.slot ≠ least).map (fun el => el.rawQuery.slot) ↔
      slot ≠ least ∧ slot ∈ els.map fun el => el.rawQuery.slot := by
  simp only [List.mem_map, List.mem_filter, decide_eq_true_eq]
  constructor
  · rintro ⟨el, ⟨hel, hne⟩, rfl⟩
    exact ⟨hne, el, hel, rfl⟩
  · rintro ⟨hne, el, hel, rfl⟩
    exact ⟨el, ⟨hel, hne⟩, rfl⟩

theorem queriesOf_filter_ne {els : List EnumeratedQuery} {least slot : Slot} (hne : slot ≠ least) :
    queriesOf (els.filter fun el => el.rawQuery.slot ≠ least) slot = queriesOf els slot := by
  rw [queriesOf, queriesOf, List.filter_filter]
  apply List.filter_congr
  intro el _
  by_cases heq : el.rawQuery.slot = slot
  · simp [heq, hne]
  · simp [heq]

section
variable {candidate : EnumeratedQuery} {rest : List EnumeratedQuery}

theorem least_slot
    (hs : (candidate :: rest).Pairwise fun a b => a.rawQuery.slot ≤ b.rawQuery.slot) :
    ∀ el ∈ candidate :: rest, candidate.rawQuery.slot ≤ el.rawQuery.slot := by
  intro el hel
  rcases List.mem_cons.mp hel with rfl | hel
  · exact le_rfl
  · exact (List.pairwise_cons.mp hs).1 el hel

/-- The loop reduces the queries of the first slot and goes on with the other slots. -/
theorem deduplicate_cons
    (hs : (candidate :: rest).Pairwise fun a b => a.rawQuery.slot ≤ b.rawQuery.slot) :
    deduplicate (candidate :: rest) = do
      let query ← reduceGroup (queriesOf (candidate :: rest) candidate.rawQuery.slot)
      let queries ← deduplicate
        ((candidate :: rest).filter fun el => el.rawQuery.slot ≠ candidate.rawQuery.slot)
      return query.toList ++ queries := by
  obtain ⟨htake, hdrop⟩ := SortedGroups.takeWhile_eq_filter hs (least_slot hs)
    (sameSlot_iff candidate)
  have hself : sameSlot candidate candidate = true := by simp [sameSlot]
  rw [List.dropWhile_cons, hself, if_pos rfl] at hdrop
  have hfirst : (candidate :: rest).takeWhile (sameSlot candidate) =
      queriesOf (candidate :: rest) candidate.rawQuery.slot := by
    rw [htake, sameSlot_eq]
    rfl
  have hremaining : rest.dropWhile (sameSlot candidate) =
      (candidate :: rest).filter fun el => el.rawQuery.slot ≠ candidate.rawQuery.slot := by
    rw [hdrop, sameSlot_eq]
    exact List.filter_congr fun el _ => by simp
  have hhead : queriesOf (candidate :: rest) candidate.rawQuery.slot =
      candidate :: queriesOf rest candidate.rawQuery.slot := by
    simp [queriesOf]
  rw [deduplicate, hremaining, hfirst, hhead, reduceGroup, bind_assoc]

end

/-- Sorted queries are reduced in groups, in the order of their slots. -/
theorem deduplicate_groups {els : List EnumeratedQuery}
    (hs : els.Pairwise fun a b => a.rawQuery.slot ≤ b.rawQuery.slot) :
    ∃ slots : List Slot, slots.Pairwise (· < ·) ∧
      (∀ slot, slot ∈ slots ↔ slot ∈ els.map fun el => el.rawQuery.slot) ∧
      deduplicate els = (slots.mapM fun slot => reduceGroup (queriesOf els slot)).map
        fun results => results.flatMap Option.toList := by
  induction hn : els.length using Nat.strong_induction_on generalizing els with
  | _ n ih =>
    cases els with
    | nil => exact ⟨[], .nil, by simp, deduplicate_nil⟩
    | cons candidate rest =>
      have hlen : ((candidate :: rest).filter fun el =>
          el.rawQuery.slot ≠ candidate.rawQuery.slot).length < n := by
        rw [List.filter_cons_of_neg (by simp), ← hn, List.length_cons]
        exact Nat.lt_succ_of_le (List.length_filter_le _ _)
      obtain ⟨slots, hincreasing, hslots, hrest⟩ := ih _ hlen (hs.filter _) rfl
      have hother {slot : Slot} : slot ∈ slots ↔ slot ≠ candidate.rawQuery.slot ∧
          slot ∈ (candidate :: rest).map fun el => el.rawQuery.slot :=
        (hslots slot).trans mem_slots_filter_ne
      refine ⟨candidate.rawQuery.slot :: slots, ?_, ?_, ?_⟩
      · refine List.pairwise_cons.mpr ⟨?_, hincreasing⟩
        intro slot hslot
        obtain ⟨hne, hmem⟩ := hother.mp hslot
        obtain ⟨el, hel, rfl⟩ := List.mem_map.mp hmem
        exact lt_of_le_of_ne (least_slot hs el hel) hne.symm
      · intro slot
        rw [List.mem_cons, hother]
        by_cases hcandidate : slot = candidate.rawQuery.slot
        · simp [hcandidate]
        · simp [hcandidate]
      · -- the groups of the later slots are the same in what remains
        have hgroups : ∀ slot ∈ slots, reduceGroup (queriesOf (candidate :: rest) slot) =
            reduceGroup (queriesOf ((candidate :: rest).filter fun el =>
              el.rawQuery.slot ≠ candidate.rawQuery.slot) slot) := by
          intro slot hslot
          rw [queriesOf_filter_ne (hother.mp hslot).1]
        rw [deduplicate_cons hs, hrest, List.mapM_cons, Seq.mapM_congr hgroups]
        cases reduceGroup (queriesOf (candidate :: rest) candidate.rawQuery.slot) with
        | error e => rfl
        | ok query =>
          cases slots.mapM fun slot => reduceGroup (queriesOf ((candidate :: rest).filter fun el =>
              el.rawQuery.slot ≠ candidate.rawQuery.slot) slot) with
          | error e => rfl
          | ok results => rfl

end OlaOs
