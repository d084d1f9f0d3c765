import OlaOs.Dedup.SlotGroups
import OlaOs.Dedup.Wrap

/-! `sort_storage_access_queries` against the replay of the queries. -/
namespace OlaOs

open SortStorageAccess

/-- The store after the writes of a list of queries. -/
def applyWrites (store : Slot → U256) (queries : List LogQuery) : Slot → U256 :=
  queries.foldl (fun store q => if q.rwFlag then Function.update store q.slot q.writtenValue
    else store) store

/-- The result of the sort for queries that lead from `initial` to `slots`. -/
structure Deduplicates (queries : List LogQuery) (initial : Slot → U256) (slots : Slot → SlotState)
    (sorted : List EnumeratedQuery) (deduplicated : List LogQuery) : Prop where
  /-- By slot, and then by original position. -/
  order : ∃ order : List (EnumeratedQuery × ℕ), order.Perm (enumerateQueries queries).zipIdx ∧
    order.Pairwise (fun a b => a.1.rawQuery.slot < b.1.rawQuery.slot ∨
      a.1.rawQuery.slot = b.1.rawQuery.slot ∧ a.2 < b.2) ∧ sorted = order.map Prod.fst
  increasing : deduplicated.Pairwise fun a b => a.slot < b.slot
  entries : ∀ q, q ∈ deduplicated ↔ ∃ slot, netQuery slot (initial slot) (slots slot) = some q
  store : applyWrites initial deduplicated = fun slot => (slots slot).value

/-- The loop over queries that are sorted by slot. -/
theorem deduplicate_eq {initial : Slot → U256} {slots : Slot → SlotState}
    {els : List EnumeratedQuery}
    (hs : els.Pairwise fun a b => a.rawQuery.slot ≤ b.rawQuery.slot)
    (hgroup : ∀ slot, ((queriesOf els slot).map EnumeratedQuery.rawQuery).foldlM
      SlotState.step (.start (initial slot)) = some (slots slot))
    (hvalid : ∀ slot, (slots slot).Valid slot (initial slot)) :
    ∃ queries, deduplicate els = .ok queries ∧ queries.Pairwise (fun a b => a.slot < b.slot) ∧
      ∀ q, q ∈ queries ↔ ∃ slot ∈ els.map (fun el => el.rawQuery.slot),
        netQuery slot (initial slot) (slots slot) = some q := by
  obtain ⟨order, hincreasing, horder, hrun⟩ := deduplicate_groups hs
  have hreduce : ∀ slot ∈ order, reduceGroup (queriesOf els slot) =
      .ok (netQuery slot (initial slot) (slots slot)) := by
    intro slot hslot
    have hne : queriesOf els slot ≠ [] := by
      rw [Ne, queriesOf_eq_nil_iff, not_not, ← horder]
      exact hslot
    have hmem : ∀ el ∈ queriesOf els slot, el.rawQuery.slot = slot := fun el hel => by
      simpa using (List.mem_filter.mp hel).2
    obtain ⟨history, hfold, hkeeps⟩ := foldlM_keepQuery hne hmem (hgroup slot)
    obtain ⟨candidate, rest, hcons⟩ := List.exists_cons_of_ne_nil hne
    have hcandidate := hmem candidate (by simp [hcons])
    rw [hcons] at hfold
    simp only [hcons, reduceGroup, hfold, hkeeps.reduceSlot (hvalid slot) hcandidate, bind,
      Except.bind]
  refine ⟨_, by rw [hrun, Seq.mapM_eq_ok hreduce]; rfl, ?_, ?_⟩
  · exact pairwise_flatMap_toList hincreasing fun slot _ q hq => netQuery_slot hq
  · intro q
    simp [← horder]

theorem applyWrites_of_forall {store : Slot → U256} {queries : List LogQuery} {slot : Slot}
    (h : ∀ q ∈ queries, q.rwFlag = true → q.slot ≠ slot) :
    applyWrites store queries slot = store slot := by
  unfold applyWrites
  induction queries generalizing store with
  | nil => rfl
  | cons q queries ih =>
    rw [List.foldl_cons, ih fun q' hq' => h q' (List.mem_cons_of_mem _ hq')]
    split_ifs with hrw
    · exact Function.update_of_ne (h q List.mem_cons_self hrw).symm _ _
    · rfl

theorem applyWrites_of_mem (store : Slot → U256) {queries : List LogQuery}
    (hincreasing : queries.Pairwise fun a b => a.slot < b.slot) {q : LogQuery} (hq : q ∈ queries)
    (hrw : q.rwFlag = true) : applyWrites store queries q.slot = q.writtenValue := by
  induction queries generalizing store with
  | nil => cases hq
  | cons q' queries ih =>
    rcases List.pairwise_cons.mp hincreasing with ⟨hlt, hincreasing'⟩
    rcases List.mem_cons.mp hq with rfl | hq
    · have hnone : applyWrites (Function.update store q.slot q.writtenValue) queries q.slot = _ :=
        applyWrites_of_forall fun q' hq' _ => (hlt q' hq').ne'
      unfold applyWrites at hnone ⊢
      rw [List.foldl_cons, if_pos hrw, hnone, Function.update_self]
    · exact ih _ hincreasing' hq

/-- The writes of the deduplicated list make the store of the replay. -/
theorem applyWrites_eq {initial : Slot → U256} {slots : Slot → SlotState} {queries : List LogQuery}
    (hincreasing : queries.Pairwise fun a b => a.slot < b.slot)
    (hentries : ∀ q, q ∈ queries ↔ ∃ slot, netQuery slot (initial slot) (slots slot) = some q) :
    applyWrites initial queries = fun slot => (slots slot).value := by
  funext slot
  by_cases hvalue : (slots slot).value = initial slot
  · rw [hvalue]
    apply applyWrites_of_forall
    intro q hq hrw hslot
    obtain ⟨slot', hnet⟩ := (hentries q).mp hq
    obtain rfl : slot' = slot := (netQuery_slot hnet).symm.trans hslot
    unfold netQuery at hnet
    rw [if_neg (not_not.mpr hvalue)] at hnet
    split_ifs at hnet
    cases hnet
    cases hrw
  · have hnet : netQuery slot (initial slot) (slots slot) =
        some (.createPartiallyFilledFromFields slot.shardId slot.address slot.key (initial slot)
          (slots slot).value true) := by
      unfold netQuery
      rw [if_pos hvalue]
    have happly := applyWrites_of_mem initial hincreasing
      ((hentries _).mpr ⟨slot, hnet⟩) rfl
    rwa [netQuery_slot hnet] at happly

/-- Queries whose positions do not wrap are sorted and deduplicated exactly. -/
theorem sortStorageAccessQueries_eq {initial : Slot → U256} {queries : List LogQuery}
    {slots : Slot → SlotState} (h : replay (startSlots initial) queries = some slots)
    (hwrap : NoWrap queries) :
    ∃ sorted deduplicated, sortStorageAccessQueries queries = .ok (sorted, deduplicated) ∧
      Deduplicates queries initial slots sorted deduplicated := by
  obtain ⟨order, hperm, horder, heq⟩ := sortQueries_by_position hwrap
  have hsorted : (order.map Prod.fst).Pairwise fun a b => a.rawQuery.slot ≤ b.rawQuery.slot := by
    rw [List.pairwise_map]
    apply horder.imp
    rintro a b (hlt | ⟨hslot, -⟩)
    · exact hlt.le
    · exact hslot.le
  have hgroup (slot : Slot) : ((queriesOf (order.map Prod.fst) slot).map
      EnumeratedQuery.rawQuery).foldlM SlotState.step (.start (initial slot)) =
        some (slots slot) := by
    rw [queriesOf, filter_order hperm horder slot]
    exact replay_slot h slot
  obtain ⟨deduplicated, hrun, hincreasing, hentries⟩ := deduplicate_eq hsorted hgroup
    (replay_valid h)
  -- a slot without queries is reduced to nothing
  have hall (q : LogQuery) : q ∈ deduplicated ↔
      ∃ slot, netQuery slot (initial slot) (slots slot) = some q := by
    rw [hentries]
    constructor
    · rintro ⟨slot, -, hq⟩
      exact ⟨slot, hq⟩
    · rintro ⟨slot, hq⟩
      refine ⟨slot, ?_, hq⟩
      by_contra hnot
      have hstart := hgroup slot
      rw [queriesOf_eq_nil_iff.mpr hnot] at hstart
      rw [← Option.some.inj hstart] at hq
      simp [netQuery, SlotState.start] at hq
  refine ⟨order.map Prod.fst, deduplicated, ?_, ⟨order, hperm, horder, rfl⟩, hincreasing, hall,
    applyWrites_eq hincreasing hall⟩
  simp only [sortStorageAccessQueries, heq, hrun, bind, Except.bind, pure, Except.pure]

/-- A result in the order of the positions leaves no wrap. -/
theorem noWrap_of_deduplicates {initial : Slot → U256} {queries : List LogQuery}
    {slots : Slot → SlotState} {sorted : List EnumeratedQuery} {deduplicated : List LogQuery}
    (hrun : sortStorageAccessQueries queries = .ok (sorted, deduplicated))
    (h : Deduplicates queries initial slots sorted deduplicated) : NoWrap queries := by
  obtain ⟨order, hperm, horder, heq⟩ := h.order
  refine noWrap_of_order hperm horder ?_
  simp only [sortStorageAccessQueries, bind, Except.bind, pure, Except.pure] at hrun
  split at hrun
  · cases hrun
  · cases hrun
    exact heq

/-- For every sequence of queries that can be replayed, the sort triggers no assertion and its
result is exact if and only if the positions, as `u32`, do not wrap between two queries of one
slot. -/
theorem sortStorageAccessQueries_exact_iff (initial : Slot → U256) (queries : List LogQuery)
    (slots : Slot → SlotState) (h : replay (startSlots initial) queries = some slots) :
    (∃ sorted deduplicated, sortStorageAccessQueries queries = .ok (sorted, deduplicated) ∧
      Deduplicates queries initial slots sorted deduplicated) ↔ NoWrap queries := by
  constructor
  · rintro ⟨sorted, deduplicated, hrun, hspec⟩
    exact noWrap_of_deduplicates hrun hspec
  · exact sortStorageAccessQueries_eq h

/-- A query on slot `key` of the zero address. -/
def sampleQuery (key readValue writtenValue : U256) (rwFlag rollback : Bool) : LogQuery :=
  { LogQuery.createPartiallyFilledFromFields 0 .zero key readValue writtenValue rwFlag with
    rollback }

/-- A slot that is written, written again and rolled back once, and a slot that is read. -/
def sampleQueries : List LogQuery :=
  [sampleQuery 1 0 5 true false, sampleQuery 2 0 0 false false, sampleQuery 1 5 7 true false,
    sampleQuery 1 5 7 true true]

theorem sortStorageAccessQueries_exact_iff_sample : ∃ slots sorted deduplicated,
    replay (startSlots fun _ => 0) sampleQueries = some slots ∧
    sortStorageAccessQueries sampleQueries = .ok (sorted, deduplicated) ∧
    Deduplicates sampleQueries (fun _ => 0) slots sorted deduplicated := by
  obtain ⟨slots, hslots⟩ := Option.isSome_iff_exists.mp
    (by decide : (replay (startSlots fun _ => 0) sampleQueries).isSome = true)
  obtain ⟨sorted, deduplicated, hrun, hspec⟩ :=
    (sortStorageAccessQueries_exact_iff _ _ slots hslots).mpr (noWrap_of_length (by decide))
  exact ⟨slots, sorted, deduplicated, hslots, hrun, hspec⟩

/-- After `2 ^ 32` reads of a slot, a write to it is sorted before all but the first of them. -/
theorem sortStorageAccessQueries_counterexample : ∃ slots,
    replay (startSlots fun _ => 0) (List.replicate (2 ^ 32) (sampleQuery 1 0 0 false false) ++
      [sampleQuery 1 0 5 true false]) = some slots ∧
    ¬ ∃ sorted deduplicated, sortStorageAccessQueries (List.replicate (2 ^ 32)
        (sampleQuery 1 0 0 false false) ++ [sampleQuery 1 0 5 true false]) =
          .ok (sorted, deduplicated) ∧
      Deduplicates (List.replicate (2 ^ 32) (sampleQuery 1 0 0 false false) ++
        [sampleQuery 1 0 5 true false]) (fun _ => 0) slots sorted deduplicated := by
  generalize hn : 2 ^ 32 = n
  obtain ⟨slots, hslots⟩ := replay_reads_write (startSlots fun _ => 0)
    (r := sampleQuery 1 0 0 false false)
    (w := sampleQuery 1 0 5 true false) rfl rfl rfl rfl rfl rfl n
  refine ⟨slots, hslots, ?_⟩
  rintro ⟨sorted, deduplicated, hrun, hspec⟩
  exact not_noWrap_reads (by rfl) hn.symm (noWrap_of_deduplicates hrun hspec)

end OlaOs
