import OlaOs.Dedup.SortStorageAccess

/-! What a sequence of storage queries means: every slot has a value and the writes that are not
undone yet, and each query is a step of its slot. -/
namespace OlaOs

/-- The state of one slot: its value, the writes not undone yet with the latest in front, and
whether it was read while there were none. -/
structure SlotState where
  value : U256
  outstanding : List LogQuery
  readAtZero : Bool

namespace SlotState

/-- A slot before its first query. -/
def start (value : U256) : SlotState := ⟨value, [], false⟩

/-- One query: reads and writes carry the current value, and a rollback undoes the latest
outstanding write. -/
def step (s : SlotState) (q : LogQuery) : Option SlotState :=
  if !q.rwFlag then
    if q.readValue = s.value then
      some { s with readAtZero := s.readAtZero || s.outstanding.isEmpty } else none
  else if !q.rollback then
    if q.readValue = s.value then
      some { s with value := q.writtenValue, outstanding := q :: s.outstanding } else none
  else
    match s.outstanding with
    | [] => none
    | w :: rest =>
      if q.readValue = w.readValue ∧ q.writtenValue = w.writtenValue then
        some { s with value := w.readValue, outstanding := rest } else none

/-- All that a step can do. -/
theorem step_cases {s s' : SlotState} {q : LogQuery} (h : s.step q = some s') :
    (q.rwFlag = false ∧ q.readValue = s.value ∧
      s' = { s with readAtZero := s.readAtZero || s.outstanding.isEmpty }) ∨
    (q.rwFlag = true ∧ q.rollback = false ∧ q.readValue = s.value ∧
      s' = { s with value := q.writtenValue, outstanding := q :: s.outstanding }) ∨
    (q.rwFlag = true ∧ q.rollback = true ∧ ∃ w rest, s.outstanding = w :: rest ∧
      q.readValue = w.readValue ∧ q.writtenValue = w.writtenValue ∧
      s' = { s with value := w.readValue, outstanding := rest }) := by
  unfold step at h
  cases hrw : q.rwFlag with
  | false =>
    simp only [hrw, Bool.not_false, ↓reduceIte, Option.ite_none_right_eq_some,
      Option.some.injEq] at h
    exact .inl ⟨rfl, h.1, h.2.symm⟩
  | true =>
    simp only [hrw, Bool.not_true, Bool.false_eq_true, ↓reduceIte] at h
    cases hrb : q.rollback with
    | false =>
      simp only [hrb, Bool.not_false, ↓reduceIte, Option.ite_none_right_eq_some,
        Option.some.injEq] at h
      exact .inr (.inl ⟨rfl, rfl, h.1, h.2.symm⟩)
    | true =>
      simp only [hrb, Bool.not_true, Bool.false_eq_true, ↓reduceIte] at h
      split at h
      · cases h
      · next w rest hout =>
        simp only [Option.ite_none_right_eq_some, Option.some.injEq] at h
        exact .inr (.inr ⟨rfl, rfl, w, rest, hout, h.1.1, h.1.2, h.2.symm⟩)

/-- The outstanding writes lead from the initial value to a value. -/
def Chain (initial : U256) : U256 → List LogQuery → Prop
  | value, [] => value = initial
  | value, w :: rest => value = w.writtenValue ∧ Chain initial w.readValue rest

/-- A state that the slot `slot` can reach from the value `initial`. -/
structure Valid (slot : Slot) (initial : U256) (s : SlotState) : Prop where
  chain : Chain initial s.value s.outstanding
  slots : ∀ w ∈ s.outstanding, w.slot = slot

theorem valid_start (slot : Slot) (initial : U256) : Valid slot initial (start initial) :=
  ⟨rfl, fun _ h => by cases h⟩

theorem Valid.step {slot : Slot} {initial : U256} {s s' : SlotState} (hv : Valid slot initial s)
    {q : LogQuery} (hq : q.slot = slot) (h : s.step q = some s') : Valid slot initial s' := by
  rcases step_cases h with ⟨-, -, rfl⟩ | ⟨-, -, hread, rfl⟩ | ⟨-, -, w, rest, hout, -, -, rfl⟩
  · exact ⟨hv.chain, hv.slots⟩
  · refine ⟨⟨rfl, hread ▸ hv.chain⟩, ?_⟩
    intro w hw
    rcases List.mem_cons.mp hw with rfl | hw
    · exact hq
    · exact hv.slots w hw
  · have hchain := hv.chain
    rw [hout] at hchain
    exact ⟨hchain.2, fun w' hw' => hv.slots w' (by rw [hout]; exact List.mem_cons_of_mem _ hw')⟩

theorem Valid.foldlM {slot : Slot} {initial : U256} {s s' : SlotState} (hv : Valid slot initial s)
    {queries : List LogQuery} (hq : ∀ q ∈ queries, q.slot = slot)
    (h : queries.foldlM SlotState.step s = some s') : Valid slot initial s' := by
  induction queries generalizing s with
  | nil =>
    cases h
    exact hv
  | cons q queries ih =>
    rw [List.foldlM_cons] at h
    obtain ⟨next, hnext, hrest⟩ := Option.bind_eq_some_iff.mp h
    exact ih (hv.step (hq q List.mem_cons_self) hnext)
      (fun q' hq' => hq q' (List.mem_cons_of_mem _ hq')) hrest

end SlotState

/-- Replaying queries over the states of all slots; `none` when a query does not fit. -/
def replay (slots : Slot → SlotState) : List LogQuery → Option (Slot → SlotState)
  | [] => some slots
  | q :: queries =>
    ((slots q.slot).step q).bind fun s => replay (Function.update slots q.slot s) queries

/-- The states before the first query. -/
def startSlots (initial : Slot → U256) : Slot → SlotState := fun slot => .start (initial slot)

/-- Every slot sees its own queries only. -/
theorem replay_slot {slots slots' : Slot → SlotState} {queries : List LogQuery}
    (h : replay slots queries = some slots') (slot : Slot) :
    (queries.filter fun q => q.slot = slot).foldlM SlotState.step (slots slot) =
      some (slots' slot) := by
  induction queries generalizing slots with
  | nil =>
    cases h
    rfl
  | cons q queries ih =>
    obtain ⟨s, hs, hrest⟩ := Option.bind_eq_some_iff.mp h
    have hslot := ih hrest
    by_cases hq : q.slot = slot
    · subst hq
      rw [Function.update_self] at hslot
      simp only [List.filter_cons, decide_true, ↓reduceIte, List.foldlM_cons, hs]
      exact hslot
    · rw [Function.update_of_ne (Ne.symm hq)] at hslot
      simpa only [List.filter_cons, hq, decide_false, Bool.false_eq_true, ↓reduceIte] using hslot

theorem replay_append {slots : Slot → SlotState} (queries queries' : List LogQuery) :
    replay slots (queries ++ queries') =
      (replay slots queries).bind fun slots' => replay slots' queries' := by
  induction queries generalizing slots with
  | nil => rfl
  | cons q queries ih =>
    rw [List.cons_append, replay, replay, Option.bind_assoc]
    congr 1
    funext s
    exact ih

theorem replay_valid {initial : Slot → U256} {slots : Slot → SlotState} {queries : List LogQuery}
    (h : replay (startSlots initial) queries = some slots) (slot : Slot) :
    (slots slot).Valid slot (initial slot) :=
  (SlotState.valid_start slot (initial slot)).foldlM
    (fun q hq => by simpa using (List.mem_filter.mp hq).2) (replay_slot h slot)

end OlaOs
