import OlaOs.Dedup.SlotGroups
import OlaOs.Lib.Walk

/-! The writes of the deduplicated list are the changed slots whenever
`sort_storage_access_queries` returns, in whatever order it has put the queries of a slot. -/
namespace OlaOs

open SortStorageAccess

/-- The values of the slot before and after a query. -/
def LogQuery.move (q : LogQuery) : U256 × U256 :=
  if !q.rwFlag then (q.readValue, q.readValue)
  else if !q.rollback then (q.readValue, q.writtenValue)
  else (q.writtenValue, q.readValue)

/-- What the deduplicated list says about the changed slots. -/
structure ListsChanges (queries : List LogQuery) (initial : Slot → U256) (slots : Slot → SlotState)
    (deduplicated : List LogQuery) : Prop where
  increasing : deduplicated.Pairwise fun a b => a.slot < b.slot
  slot_mem : ∀ q ∈ deduplicated, q.slot ∈ queries.map LogQuery.slot
  changed_iff : ∀ slot, (slots slot).value ≠ initial slot ↔
    ∃ q ∈ deduplicated, q.slot = slot ∧ q.rwFlag = true

theorem SlotState.Valid.move_eq {slot : Slot} {initial : U256} {s s' : SlotState} {q : LogQuery}
    (hv : s.Valid slot initial) (h : s.step q = some s') : q.move = (s.value, s'.value) := by
  unfold LogQuery.move
  rcases step_cases h with ⟨hrw, hread, rfl⟩ | ⟨hrw, hrb, hread, rfl⟩ |
    ⟨hrw, hrb, w, rest, hout, hread, hwritten, rfl⟩
  · simp [hrw, hread]
  · simp [hrw, hrb, hread]
  · have hchain := hv.chain
    rw [hout] at hchain
    simp [hrw, hrb, hread, hwritten, hchain.1]

/-- The queries of a slot lead from its first value to its last. -/
theorem SlotState.Valid.leads {slot : Slot} {initial : U256} {s s' : SlotState}
    {queries : List LogQuery} (hv : s.Valid slot initial) (hq : ∀ q ∈ queries, q.slot = slot)
    (h : queries.foldlM SlotState.step s = some s') :
    Walk.Leads s.value s'.value (queries.map LogQuery.move) := by
  induction queries generalizing s with
  | nil =>
    cases h
    rfl
  | cons q queries ih =>
    rw [List.foldlM_cons] at h
    obtain ⟨next, hnext, hrest⟩ := Option.bind_eq_some_iff.mp h
    have hmove := hv.move_eq hnext
    have hlater := ih (hv.step (hq q List.mem_cons_self) hnext)
      (fun q' hq' => hq q' (List.mem_cons_of_mem _ hq')) hrest
    exact ⟨by rw [hmove], by rw [hmove]; exact hlater⟩

theorem assertEq_eq_ok {α : Type} [DecidableEq α] {a b : α} {u : Unit} :
    assertEq a b = .ok u ↔ a = b := by
  unfold assertEq
  split_ifs with h <;> simp [h]

theorem unwrap_eq_ok {α : Type} {o : Option α} {a : α} : unwrap o = .ok a ↔ o = some a := by
  cases o <;> simp [unwrap]

/-- The part of the loop body that fixes the first value of a slot. -/
theorem observe_ok {history history' : StorageSlotHistoryKeeper} {el : EnumeratedQuery}
    (h : observe history el = .ok history') :
    history'.changesStack = history.changesStack ∧
    (history.currentValue = none → (el.rawQuery.rwFlag = true → el.rawQuery.rollback = false) ∧
      history'.initialValue = some el.rawQuery.readValue ∧
      history'.currentValue = some el.rawQuery.readValue) ∧
    (∀ value, history.currentValue = some value →
      history'.initialValue = history.initialValue ∧ history'.currentValue = some value) := by
  unfold observe at h
  cases hcurrent : history.currentValue with
  | none =>
    simp only [hcurrent] at h
    split_ifs at h with h₁ h₂ h₃
    · cases h
      simp_all
    · cases h
      simp_all
  | some value =>
    simp only [hcurrent] at h
    split_ifs at h
    · cases h
      simp
    · cases h
      simp [hcurrent]

/-- A query that the loop accepts starts from the current value of the slot. -/
theorem keepQuery_ok {history history' : StorageSlotHistoryKeeper} {el : EnumeratedQuery}
    (h : keepQuery history el = .ok history') :
    history'.currentValue = some el.rawQuery.move.2 ∧
    (history.currentValue = none → history'.initialValue = some el.rawQuery.move.1) ∧
    (∀ value, history.currentValue = some value →
      value = el.rawQuery.move.1 ∧ history'.initialValue = history.initialValue) := by
  obtain ⟨seen, hseen, h⟩ := Seq.bind_eq_ok.mp h
  obtain ⟨current, hcurrent, h⟩ := Seq.bind_eq_ok.mp h
  rw [unwrap_eq_ok] at hcurrent
  obtain ⟨-, hfirst, hlater⟩ := observe_ok hseen
  -- in every branch the query starts from `current`
  have hmove : el.rawQuery.move.1 = current ∧ history'.currentValue = some el.rawQuery.move.2 ∧
      history'.initialValue = seen.initialValue := by
    unfold LogQuery.move
    cases hrw : el.rawQuery.rwFlag with
    | false =>
      simp only [hrw, Bool.not_false, ↓reduceIte] at h ⊢
      obtain ⟨_, hread, h⟩ := Seq.bind_eq_ok.mp h
      cases h
      rw [assertEq_eq_ok] at hread
      exact ⟨hread, by rw [hcurrent, hread], rfl⟩
    | true =>
      cases hrb : el.rawQuery.rollback with
      | false =>
        simp only [hrw, hrb, Bool.not_true, Bool.false_eq_true, Bool.not_false, ↓reduceIte] at h ⊢
        obtain ⟨_, hread, h⟩ := Seq.bind_eq_ok.mp h
        cases h
        rw [assertEq_eq_ok] at hread
        exact ⟨hread, rfl, rfl⟩
      | true =>
        simp only [hrw, hrb, Bool.not_true, Bool.false_eq_true, ↓reduceIte] at h ⊢
        obtain ⟨popped, -, h⟩ := Seq.bind_eq_ok.mp h
        obtain ⟨-, -, h⟩ := Seq.bind_eq_ok.mp h
        obtain ⟨-, -, h⟩ := Seq.bind_eq_ok.mp h
        obtain ⟨_, hwritten, h⟩ := Seq.bind_eq_ok.mp h
        obtain ⟨-, -, h⟩ := Seq.bind_eq_ok.mp h
        obtain ⟨-, -, h⟩ := Seq.bind_eq_ok.mp h
        obtain ⟨-, -, h⟩ := Seq.bind_eq_ok.mp h
        cases h
        rw [assertEq_eq_ok] at hwritten
        exact ⟨hwritten, rfl, rfl⟩
  obtain ⟨hstart, hend, hinitial⟩ := hmove
  refine ⟨hend, ?_, ?_⟩
  · intro hnone
    obtain ⟨-, hi, hc⟩ := hfirst hnone
    rw [hinitial, hi, hstart, ← hcurrent, hc]
  · intro value hvalue
    obtain ⟨hi, hc⟩ := hlater value hvalue
    rw [hcurrent] at hc
    exact ⟨by rw [hstart]; exact (Option.some.inj hc).symm, hinitial.trans hi⟩

/-- The queries that the loop accepts for one slot form a walk. -/
theorem foldlM_keepQuery_leads {els : List EnumeratedQuery} (hne : els ≠ [])
    {history : StorageSlotHistoryKeeper} (h : els.foldlM keepQuery {} = .ok history) :
    ∃ initial current, history.initialValue = some initial ∧ history.currentValue = some current ∧
      Walk.Leads initial current (els.map fun el => el.rawQuery.move) := by
  have later {els : List EnumeratedQuery} {start : StorageSlotHistoryKeeper} {value : U256}
      (hvalue : start.currentValue = some value) (h : els.foldlM keepQuery start = .ok history) :
      ∃ current, history.initialValue = start.initialValue ∧
        history.currentValue = some current ∧
        Walk.Leads value current (els.map fun el => el.rawQuery.move) := by
    induction els generalizing start value with
    | nil =>
      cases h
      exact ⟨value, rfl, hvalue, rfl⟩
    | cons el els ih =>
      rw [List.foldlM_cons] at h
      obtain ⟨next, hnext, h⟩ := Seq.bind_eq_ok.mp h
      obtain ⟨hcurrent, -, hkeep⟩ := keepQuery_ok hnext
      obtain ⟨hstart, hinitial⟩ := hkeep value hvalue
      obtain ⟨current, hi, hc, hleads⟩ := ih hcurrent h
      exact ⟨current, hi.trans hinitial, hc, hstart.symm, hleads⟩
  obtain ⟨el, els, rfl⟩ := List.exists_cons_of_ne_nil hne
  rw [List.foldlM_cons] at h
  obtain ⟨next, hnext, h⟩ := Seq.bind_eq_ok.mp h
  obtain ⟨hcurrent, hfirst, -⟩ := keepQuery_ok hnext
  obtain ⟨current, hi, hc, hleads⟩ := later hcurrent h
  exact ⟨_, current, hi.trans (hfirst rfl), hc, rfl, hleads⟩

theorem reduceSlot_ok {candidate : EnumeratedQuery} {history : StorageSlotHistoryKeeper}
    {initial current : U256} (hinitial : history.initialValue = some initial)
    (hcurrent : history.currentValue = some current) {result : Option LogQuery}
    (h : reduceSlot candidate history = .ok result) :
    (∀ q, result = some q → q.slot = candidate.rawQuery.slot ∧
      (q.rwFlag = true ↔ initial ≠ current)) ∧ (initial ≠ current → result ≠ none) := by
  unfold reduceSlot at h
  simp only [hinitial, hcurrent, unwrap_some, bind, Except.bind, pure, Except.pure] at h
  by_cases heq : initial = current
  · subst heq
    simp only [assertEq_self, ↓reduceIte] at h
    split_ifs at h <;> cases h <;>
      simp [LogQuery.slot, LogQuery.createPartiallyFilledFromFields]
  · simp only [assertEq, heq, ↓reduceIte] at h
    split_ifs at h
    cases h
    simp [LogQuery.slot, LogQuery.createPartiallyFilledFromFields, heq]

theorem sortQueries_sorted (queries : List LogQuery) :
    (sortQueries queries).Pairwise fun a b => a.rawQuery.slot ≤ b.rawQuery.slot := by
  have h : (sortQueries queries).Pairwise fun a b => (compareQueries a b).isLE = true :=
    List.pairwise_mergeSort isLE_trans isLE_total _
  apply h.imp
  intro a b hab
  rcases (compareQueries_isLE a b).mp hab with hlt | ⟨heq, -⟩
  · exact hlt.le
  · exact heq.le

theorem sortQueries_perm (queries : List LogQuery) :
    ((sortQueries queries).map EnumeratedQuery.rawQuery).Perm queries := by
  have hfst : (enumerateQueries queries).map EnumeratedQuery.rawQuery = queries := by
    rw [enumerateQueries, List.map_map]
    exact List.zipIdx_map_fst 0 queries
  calc ((sortQueries queries).map EnumeratedQuery.rawQuery).Perm
        ((enumerateQueries queries).map EnumeratedQuery.rawQuery) :=
      (List.mergeSort_perm _ _).map _
    _ = queries := hfst

/-- The sorted queries of a slot are a reordering of its queries. -/
theorem queriesOf_sortQueries_perm (queries : List LogQuery) (slot : Slot) :
    ((queriesOf (sortQueries queries) slot).map EnumeratedQuery.rawQuery).Perm
      (queries.filter fun q => q.slot = slot) := by
  have h := (sortQueries_perm queries).filter fun q => q.slot = slot
  rwa [List.filter_map] at h

/-- What the loop makes of the queries of one slot, in any order. -/
theorem reduceGroup_ok {queries : List LogQuery} {els : List EnumeratedQuery} {slot : Slot}
    {initial : U256} {s : SlotState} (hne : els ≠ []) (hmem : ∀ el ∈ els, el.rawQuery.slot = slot)
    (hperm : (els.map EnumeratedQuery.rawQuery).Perm queries)
    (h : queries.foldlM SlotState.step (.start initial) = some s) {result : Option LogQuery}
    (hrun : reduceGroup els = .ok result) :
    (∀ q, result = some q → q.slot = slot ∧ (q.rwFlag = true ↔ s.value ≠ initial)) ∧
      (s.value ≠ initial → result ≠ none) := by
  obtain ⟨candidate, rest, hcons⟩ := List.exists_cons_of_ne_nil hne
  have hcandidate := hmem candidate (by simp [hcons])
  rw [hcons, reduceGroup, ← hcons] at hrun
  obtain ⟨history, hfold, hreduce⟩ := Seq.bind_eq_ok.mp hrun
  obtain ⟨initial', current, hi, hc, hleads⟩ := foldlM_keepQuery_leads hne hfold
  have hqueries : ∀ q ∈ queries, q.slot = slot := by
    intro q hq
    obtain ⟨el, hel, rfl⟩ := List.mem_map.mp (hperm.mem_iff.mpr hq)
    exact hmem el hel
  have hleads' := (SlotState.valid_start slot initial).leads hqueries h
  have hmoves : (queries.map LogQuery.move).Perm (els.map fun el => el.rawQuery.move) := by
    have := (hperm.map LogQuery.move).symm
    rwa [List.map_map] at this
  obtain ⟨hclosed, hopen⟩ := hleads'.ends_of_perm hleads hmoves
  -- both walks are open, or both are closed
  have hiff : initial' ≠ current ↔ s.value ≠ initial := by
    by_cases heq : initial = s.value
    · simp [hclosed heq, heq]
    · obtain ⟨rfl, rfl⟩ := hopen heq
      exact ne_comm
  obtain ⟨hsome, hnone⟩ := reduceSlot_ok hi hc hreduce
  rw [hcandidate, hiff] at hsome
  exact ⟨hsome, fun hne => hnone (hiff.mpr hne)⟩

/-- Whenever the sort returns for queries that can be replayed, its writes are the changed
slots. -/
theorem listsChanges_of_ok {initial : Slot → U256} {queries : List LogQuery}
    {slots : Slot → SlotState} (h : replay (startSlots initial) queries = some slots)
    {sorted : List EnumeratedQuery} {deduplicated : List LogQuery}
    (hrun : sortStorageAccessQueries queries = .ok (sorted, deduplicated)) :
    ListsChanges queries initial slots deduplicated := by
  obtain ⟨deduplicated', hdedup, hrun⟩ := Seq.bind_eq_ok.mp hrun
  cases hrun
  obtain ⟨order, hincreasing, horder, heq⟩ := deduplicate_groups (sortQueries_sorted queries)
  rw [hdedup] at heq
  obtain ⟨results, hresults, hflat⟩ := Seq.map_eq_ok.mp heq.symm
  let result : Slot → Option LogQuery := fun slot =>
    (reduceGroup (queriesOf (sortQueries queries) slot)).toOption.join
  have hgroup : ∀ slot ∈ order, reduceGroup (queriesOf (sortQueries queries) slot) =
      .ok (result slot) := by
    intro slot hslot
    obtain ⟨r, -, hr⟩ := (Seq.mem_mapM hresults).1 slot hslot
    simp [result, hr, Except.toOption]
  rw [Seq.mapM_eq_ok hgroup] at hresults
  cases hresults
  have hslots (slot : Slot) : slot ∈ order ↔ slot ∈ queries.map LogQuery.slot := by
    have hmem := ((sortQueries_perm queries).map LogQuery.slot).mem_iff (a := slot)
    rw [List.map_map] at hmem
    exact (horder slot).trans hmem
  have hspec : ∀ slot ∈ order, (∀ q, result slot = some q → q.slot = slot ∧
      (q.rwFlag = true ↔ (slots slot).value ≠ initial slot)) ∧
      ((slots slot).value ≠ initial slot → result slot ≠ none) := by
    intro slot hslot
    refine reduceGroup_ok ?_ (fun el hel => by simpa using (List.mem_filter.mp hel).2)
      (queriesOf_sortQueries_perm queries slot) (replay_slot h slot) (hgroup slot hslot)
    rw [Ne, queriesOf_eq_nil_iff, not_not, ← horder]
    exact hslot
  have hentries (q : LogQuery) : q ∈ deduplicated ↔ ∃ slot ∈ order, result slot = some q := by
    rw [← hflat]
    simp
  refine ⟨?_, ?_, ?_⟩
  · rw [← hflat]
    exact pairwise_flatMap_toList hincreasing fun slot hslot q hq => ((hspec slot hslot).1 q hq).1
  · intro q hq
    obtain ⟨slot, hslot, hresult⟩ := (hentries q).mp hq
    rw [((hspec slot hslot).1 q hresult).1, ← hslots]
    exact hslot
  · intro slot
    constructor
    · intro hchanged
      -- a slot without queries keeps its value
      have hslot : slot ∈ order := by
        rw [hslots]
        by_contra hnot
        have hnil : queries.filter (fun q => q.slot = slot) = [] := by
          rw [List.filter_eq_nil_iff]
          intro q hq hslot
          exact hnot (List.mem_map.mpr ⟨q, hq, by simpa using hslot⟩)
        have hstart := replay_slot h slot
        rw [hnil] at hstart
        exact hchanged (by rw [← Option.some.inj hstart]; rfl)
      obtain ⟨hsome, hnone⟩ := hspec slot hslot
      obtain ⟨q, hq⟩ := Option.ne_none_iff_exists'.mp (hnone hchanged)
      exact ⟨q, (hentries q).mpr ⟨slot, hslot, hq⟩, (hsome q hq).1, (hsome q hq).2.mpr hchanged⟩
    · rintro ⟨q, hq, rfl, hrw⟩
      obtain ⟨slot, hslot, hresult⟩ := (hentries q).mp hq
      obtain ⟨heq, hiff⟩ := (hspec slot hslot).1 q hresult
      rw [heq]
      exact hiff.mp hrw

end OlaOs
