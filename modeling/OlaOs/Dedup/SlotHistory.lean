import OlaOs.Dedup.Replay

/-! The history keeper of one slot follows the replay of its queries. -/
namespace OlaOs

open SortStorageAccess

/-- The query that stands for all queries of a slot: a write when its value has changed, else a
read when its value was observed or when writes are outstanding. -/
def netQuery (slot : Slot) (initial : U256) (s : SlotState) : Option LogQuery :=
  if s.value ≠ initial then
    some (.createPartiallyFilledFromFields slot.shardId slot.address slot.key initial s.value true)
  else if s.readAtZero ∨ s.outstanding ≠ [] then
    some (.createPartiallyFilledFromFields slot.shardId slot.address slot.key initial initial false)
  else none

theorem netQuery_slot {slot : Slot} {initial : U256} {s : SlotState} {q : LogQuery}
    (h : netQuery slot initial s = some q) : q.slot = slot := by
  unfold netQuery at h
  split_ifs at h
  · cases h
    rfl
  · cases h
    rfl

/-- A history that has seen a query of a slot which started from `initial` and is in the state
`s` now. -/
structure Keeps (initial : U256) (history : StorageSlotHistoryKeeper) (s : SlotState) : Prop where
  initialValue : history.initialValue = some initial
  currentValue : history.currentValue = some s.value
  changesStack : history.changesStack.map EnumeratedQuery.rawQuery = s.outstanding
  didReadAtDepthZero : history.didReadAtDepthZero = s.readAtZero

@[simp] theorem assertEq_self {α : Type} [DecidableEq α] (a : α) : assertEq a a = .ok () := by
  simp [assertEq]

@[simp] theorem unwrap_some {α : Type} (a : α) : unwrap (some a) = .ok a := rfl

theorem Keeps.stack_isEmpty {initial : U256} {history : StorageSlotHistoryKeeper} {s : SlotState}
    (h : Keeps initial history s) : history.changesStack.isEmpty = s.outstanding.isEmpty := by
  rw [← h.changesStack, List.isEmpty_map]

/-- The first query of a slot. -/
theorem keepQuery_first {initial : U256} {s : SlotState} {el : EnumeratedQuery}
    (h : (SlotState.start initial).step el.rawQuery = some s) :
    ∃ history, keepQuery {} el = .ok history ∧ Keeps initial history s := by
  rcases SlotState.step_cases h with ⟨hrw, hread, rfl⟩ | ⟨hrw, hrb, hread, rfl⟩ |
    ⟨-, -, w, rest, hout, -⟩
  · have hread' : el.rawQuery.readValue = initial := hread
    refine ⟨⟨some initial, some initial, [], true⟩, ?_, rfl, rfl, rfl, rfl⟩
    simp [keepQuery, observe, hrw, hread', bind, Except.bind, pure, Except.pure]
  · have hread' : el.rawQuery.readValue = initial := hread
    refine ⟨⟨some initial, some el.rawQuery.writtenValue, [el], false⟩, ?_, rfl, rfl, rfl, rfl⟩
    simp [keepQuery, observe, hrw, hrb, hread', bind, Except.bind, pure, Except.pure]
  · cases hout

/-- Any later query. -/
theorem Keeps.keepQuery {slot : Slot} {initial : U256} {history : StorageSlotHistoryKeeper}
    {s s' : SlotState} (hk : Keeps initial history s) (hv : s.Valid slot initial)
    {el : EnumeratedQuery} (hslot : el.rawQuery.slot = slot) (h : s.step el.rawQuery = some s') :
    ∃ history', keepQuery history el = .ok history' ∧ Keeps initial history' s' := by
  have hempty := hk.stack_isEmpty
  rcases SlotState.step_cases h with ⟨hrw, hread, rfl⟩ | ⟨hrw, hrb, hread, rfl⟩ |
    ⟨hrw, hrb, w, rest, hout, hread, hwritten, rfl⟩
  · cases hz : s.outstanding.isEmpty with
    | true =>
      refine ⟨{ history with didReadAtDepthZero := true }, ?_, hk.initialValue, hk.currentValue,
        hk.changesStack, (Bool.or_true _).symm⟩
      simp [SortStorageAccess.keepQuery, observe, hk.currentValue, hrw, hempty, hz, hread, bind,
        Except.bind, pure, Except.pure]
    | false =>
      refine ⟨history, ?_, hk.initialValue, hk.currentValue, hk.changesStack, ?_⟩
      · simp [SortStorageAccess.keepQuery, observe, hk.currentValue, hrw, hempty, hz, hread, bind,
          Except.bind, pure, Except.pure]
      · rw [hk.didReadAtDepthZero, Bool.or_false]
  · refine ⟨{ history with
      currentValue := some el.rawQuery.writtenValue
      changesStack := el :: history.changesStack }, ?_, hk.initialValue, rfl, ?_,
      hk.didReadAtDepthZero⟩
    · simp [SortStorageAccess.keepQuery, observe, hk.currentValue, hrw, hrb, hread, bind,
        Except.bind, pure, Except.pure]
    · simp [hk.changesStack]
  · -- the popped change is the latest outstanding write, whose value is the current one
    have hstack := hk.changesStack
    rw [hout] at hstack
    obtain ⟨popped, stack, hpop, hpopped, hrest⟩ := List.map_eq_cons_iff.mp hstack
    have hvalue : s.value = w.writtenValue := by
      have hchain := hv.chain
      rw [hout] at hchain
      exact hchain.1
    have hsame : el.rawQuery.slot = w.slot := by
      rw [hslot, hv.slots w (by rw [hout]; exact List.mem_cons_self)]
    simp only [LogQuery.slot, Slot.mk.injEq] at hsame
    refine ⟨{ history with currentValue := some w.readValue, changesStack := stack }, ?_,
      hk.initialValue, rfl, hrest, hk.didReadAtDepthZero⟩
    simp [SortStorageAccess.keepQuery, observe, hk.currentValue, hrw, hrb, hpop, hpopped, hread,
      hwritten, hvalue, hsame, bind, Except.bind, pure, Except.pure]

/-- The history after all queries of a slot. -/
theorem foldlM_keepQuery {slot : Slot} {initial : U256} {els : List EnumeratedQuery}
    (hne : els ≠ []) (hslot : ∀ el ∈ els, el.rawQuery.slot = slot) {s : SlotState}
    (h : (els.map EnumeratedQuery.rawQuery).foldlM SlotState.step (.start initial) = some s) :
    ∃ history, els.foldlM keepQuery {} = .ok history ∧ Keeps initial history s := by
  have later {els : List EnumeratedQuery} {history : StorageSlotHistoryKeeper} {s₀ : SlotState}
      (hk : Keeps initial history s₀) (hv : s₀.Valid slot initial)
      (hslot : ∀ el ∈ els, el.rawQuery.slot = slot)
      (h : (els.map EnumeratedQuery.rawQuery).foldlM SlotState.step s₀ = some s) :
      ∃ history', els.foldlM SortStorageAccess.keepQuery history = .ok history' ∧
        Keeps initial history' s := by
    induction els generalizing history s₀ with
    | nil =>
      cases h
      exact ⟨history, rfl, hk⟩
    | cons el els ih =>
      rw [List.map_cons, List.foldlM_cons] at h
      obtain ⟨s₁, hs₁, hrest⟩ := Option.bind_eq_some_iff.mp h
      have hel := hslot el List.mem_cons_self
      obtain ⟨history₁, hkeep, hk₁⟩ := hk.keepQuery hv hel hs₁
      obtain ⟨history', hrun, hk'⟩ := ih hk₁ (hv.step hel hs₁)
        (fun e he => hslot e (List.mem_cons_of_mem _ he)) hrest
      exact ⟨history', by rw [List.foldlM_cons, hkeep]; exact hrun, hk'⟩
  obtain ⟨el, els, rfl⟩ := List.exists_cons_of_ne_nil hne
  rw [List.map_cons, List.foldlM_cons] at h
  obtain ⟨s₁, hs₁, hrest⟩ := Option.bind_eq_some_iff.mp h
  have hel := hslot el List.mem_cons_self
  obtain ⟨history₁, hkeep, hk₁⟩ := keepQuery_first hs₁
  obtain ⟨history', hrun, hk'⟩ := later hk₁ ((SlotState.valid_start slot initial).step hel hs₁)
    (fun e he => hslot e (List.mem_cons_of_mem _ he)) hrest
  exact ⟨history', by rw [List.foldlM_cons, hkeep]; exact hrun, hk'⟩

theorem Keeps.reduceSlot {slot : Slot} {initial : U256} {history : StorageSlotHistoryKeeper}
    {s : SlotState} (hk : Keeps initial history s) (hv : s.Valid slot initial)
    {candidate : EnumeratedQuery} (hslot : candidate.rawQuery.slot = slot) :
    reduceSlot candidate history = .ok (netQuery slot initial s) := by
  have hempty := hk.stack_isEmpty
  subst hslot
  unfold SortStorageAccess.reduceSlot netQuery
  simp only [hk.initialValue, hk.currentValue, unwrap_some, hk.didReadAtDepthZero, hempty, bind,
    Except.bind, pure, Except.pure]
  cases hout : s.outstanding with
  | nil =>
    have hvalue : s.value = initial := by
      have hchain := hv.chain
      rw [hout] at hchain
      exact hchain
    cases s.readAtZero <;> simp [hvalue, LogQuery.slot]
  | cons w rest =>
    by_cases hvalue : s.value = initial
    · cases s.readAtZero <;> simp [hvalue, LogQuery.slot]
    · simp [hvalue, Ne.symm hvalue, LogQuery.slot]

end OlaOs
