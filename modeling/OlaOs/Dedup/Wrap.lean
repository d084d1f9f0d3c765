import Mathlib.Data.List.TakeWhile
import OlaOs.Dedup.SortOrder
import OlaOs.Lib.Seq

/-! Queries whose positions wrap: after `2 ^ 32` reads of a slot, a write to it takes the
timestamp of the first read. -/
namespace OlaOs

open SortStorageAccess

theorem keepQuery_write {history history' : StorageSlotHistoryKeeper} {w : EnumeratedQuery}
    (hw : w.rawQuery.rwFlag = true) (hrb : w.rawQuery.rollback = false)
    (h : keepQuery history w = .ok history') :
    history'.currentValue = some w.rawQuery.writtenValue := by
  unfold keepQuery at h
  obtain ⟨history₁, -, h⟩ := Seq.bind_eq_ok.mp h
  obtain ⟨value, -, h⟩ := Seq.bind_eq_ok.mp h
  simp only [hw, hrb, Bool.not_true, Bool.not_false, Bool.false_eq_true, ↓reduceIte] at h
  obtain ⟨-, -, h⟩ := Seq.bind_eq_ok.mp h
  cases h
  rfl

theorem keepQuery_read_ne_ok {history history' : StorageSlotHistoryKeeper} {r : EnumeratedQuery}
    {value : U256} (hvalue : history.currentValue = some value) (hr : r.rawQuery.rwFlag = false)
    (hread : r.rawQuery.readValue ≠ value) : keepQuery history r ≠ .ok history' := by
  intro h
  unfold keepQuery at h
  obtain ⟨history₁, hobserve, h⟩ := Seq.bind_eq_ok.mp h
  have hsame : history₁.currentValue = some value := by
    unfold observe at hobserve
    simp only [hvalue] at hobserve
    split_ifs at hobserve
    · cases hobserve
      rfl
    · cases hobserve
      exact hvalue
  simp [hsame, hr, hread, assertEq, bind, Except.bind] at h

/-- Queries of one slot where a read of another value stands right after a write. -/
theorem deduplicate_ne_ok (slot : Slot) {before after : List EnumeratedQuery}
    {w r : EnumeratedQuery} (hslot : ∀ el ∈ before ++ w :: r :: after, el.rawQuery.slot = slot)
    (hw : w.rawQuery.rwFlag = true) (hrb : w.rawQuery.rollback = false)
    (hr : r.rawQuery.rwFlag = false) (hread : r.rawQuery.readValue ≠ w.rawQuery.writtenValue)
    (queries : List LogQuery) : deduplicate (before ++ w :: r :: after) ≠ .ok queries := by
  intro h
  obtain ⟨candidate, rest, hcons⟩ := List.exists_cons_of_ne_nil
    (by simp : before ++ w :: r :: after ≠ [])
  rw [hcons] at h hslot
  have htake : (candidate :: rest).takeWhile (sameSlot candidate) = before ++ w :: r :: after := by
    rw [hcons, List.takeWhile_eq_self_iff]
    intro el hel
    rw [sameSlot_iff, hslot el hel, hslot candidate List.mem_cons_self]
  rw [deduplicate, htake] at h
  obtain ⟨history, hrun, -⟩ := Seq.bind_eq_ok.mp h
  rw [List.foldlM_append] at hrun
  obtain ⟨history₁, -, hrun⟩ := Seq.bind_eq_ok.mp hrun
  rw [List.foldlM_cons] at hrun
  obtain ⟨history₂, hwrite, hrun⟩ := Seq.bind_eq_ok.mp hrun
  rw [List.foldlM_cons] at hrun
  obtain ⟨history₃, hread', -⟩ := Seq.bind_eq_ok.mp hrun
  exact keepQuery_read_ne_ok (keepQuery_write hw hrb hwrite) hr hread hread'

theorem replay_reads {slots : Slot → SlotState} {r : LogQuery} (hr : r.rwFlag = false)
    (hread : r.readValue = (slots r.slot).value) (n : ℕ) :
    ∃ slots', replay slots (List.replicate n r) = some slots' ∧
      (slots' r.slot).value = (slots r.slot).value := by
  induction n generalizing slots with
  | zero => exact ⟨slots, rfl, rfl⟩
  | succ n ih =>
    let s : SlotState := { slots r.slot with
      readAtZero := (slots r.slot).readAtZero || (slots r.slot).outstanding.isEmpty }
    have hstep : (slots r.slot).step r = some s := by
      simp [SlotState.step, hr, hread, s]
    have hnext : (Function.update slots r.slot s r.slot).value = (slots r.slot).value := by
      rw [Function.update_self]
    obtain ⟨slots', hrun, hvalue⟩ := ih (hread.trans hnext.symm)
    refine ⟨slots', ?_, hvalue.trans hnext⟩
    rw [List.replicate_succ, replay, hstep]
    exact hrun

theorem replay_reads_write (slots : Slot → SlotState) {r w : LogQuery} (hr : r.rwFlag = false)
    (hread : r.readValue = (slots r.slot).value) (hw : w.rwFlag = true) (hrb : w.rollback = false)
    (hslot : w.slot = r.slot) (hsame : w.readValue = r.readValue) (n : ℕ) :
    ∃ slots', replay slots (List.replicate n r ++ [w]) = some slots' := by
  obtain ⟨slots', hrun, hvalue⟩ := replay_reads hr hread n
  have hstep : ((slots' w.slot).step w).isSome = true := by
    simp [SlotState.step, hw, hrb, hslot, hsame, hread, hvalue]
  obtain ⟨s, hs⟩ := Option.isSome_iff_exists.mp hstep
  refine ⟨Function.update slots' w.slot s, ?_⟩
  rw [replay_append, hrun, Option.bind_some, replay, hs]
  rfl

theorem getElem_reads_write {r w : LogQuery} {n i : ℕ}
    (hi : i < (List.replicate n r ++ [w]).length) :
    (List.replicate n r ++ [w])[i] = if i < n then r else w := by
  split_ifs with hlt
  · rw [List.getElem_append_left (by rwa [List.length_replicate]), List.getElem_replicate]
  · rw [List.getElem_append_right (by rw [List.length_replicate]; omega)]
    simp

/-- Reads of a slot and a write at position `n`, which takes the timestamp of the first read. -/
theorem not_noWrap_reads {r w : LogQuery} (hslot : r.slot = w.slot) {n : ℕ} (hn : n = 2 ^ 32) :
    ¬ NoWrap (List.replicate n r ++ [w]) := by
  intro h
  have hlen : (List.replicate n r ++ [w]).length = n + 1 := by
    rw [List.length_append, List.length_replicate, List.length_singleton]
  have hle := h 1 n (by omega) (by omega) (by omega) (by
    rw [getElem_reads_write, getElem_reads_write, if_pos (by omega), if_neg (lt_irrefl n)]
    exact hslot)
  rw [hn] at hle
  exact absurd hle (by decide)

/-- The write is sorted before the second read, which then sees another value than it carries. -/
theorem sort_reads_write_ne_ok {r w : LogQuery} (hslot : r.slot = w.slot) (hr : r.rwFlag = false)
    (hw : w.rwFlag = true) (hrb : w.rollback = false) (hread : r.readValue ≠ w.writtenValue)
    {n : ℕ} (hn : n = 2 ^ 32) (result : List EnumeratedQuery × List LogQuery) :
    sortStorageAccessQueries (List.replicate n r ++ [w]) ≠ .ok result := by
  intro h
  obtain ⟨order, hperm, hsorted, heq⟩ := sortQueries_order (List.replicate n r ++ [w])
  have hlen : (List.replicate n r ++ [w]).length = n + 1 := by
    rw [List.length_append, List.length_replicate, List.length_singleton]
  have hmem {e : EnumeratedQuery × ℕ} : e ∈ order ↔ e.2 < n + 1 ∧
      e.1 = ⟨if e.2 < n then r else w, Fin.ofNat (2 ^ 32) e.2⟩ := by
    rw [hperm.mem_iff, mem_zipIdx_enumerateQueries]
    constructor
    · rintro ⟨hi, he⟩
      rw [getElem_reads_write] at he
      exact ⟨hlen ▸ hi, he⟩
    · rintro ⟨hi, he⟩
      refine ⟨hlen.symm ▸ hi, ?_⟩
      rw [getElem_reads_write]
      exact he
  -- the write stands somewhere in the sorted list, and the second read after it
  have hlast : ((⟨w, Fin.ofNat (2 ^ 32) n⟩, n) : EnumeratedQuery × ℕ) ∈ order :=
    hmem.mpr ⟨by omega, by rw [if_neg (lt_irrefl n)]⟩
  have hsecond : ((⟨r, Fin.ofNat (2 ^ 32) 1⟩, 1) : EnumeratedQuery × ℕ) ∈ order :=
    hmem.mpr ⟨by omega, by rw [if_pos (by omega)]⟩
  obtain ⟨before, after, rfl⟩ := List.append_of_mem hlast
  have hnot : ((⟨r, Fin.ofNat (2 ^ 32) 1⟩, 1) : EnumeratedQuery × ℕ) ∉ before := by
    intro hbefore
    have hle := (List.pairwise_append.mp hsorted).2.2 _ hbefore _ List.mem_cons_self
    simp only [List.zipIdxLE, compareQueries_isLE, hslot, lt_irrefl, true_and, false_or, hn] at hle
    exact absurd hle (by decide)
  have hafter : after ≠ [] := by
    rintro rfl
    rcases List.mem_append.mp hsecond with h | h
    · exact hnot h
    · rcases List.mem_cons.mp h with h | h
      · have := congrArg Prod.snd h
        omega
      · cases h
  obtain ⟨next, after, rfl⟩ := List.exists_cons_of_ne_nil hafter
  have hnext : next.1.rawQuery = r := by
    have hne := (List.pairwise_cons.mp (List.pairwise_append.mp (positions_ne hperm)).2.1).1 next
      List.mem_cons_self
    obtain ⟨hlt, he⟩ := hmem.mp (List.mem_append_right before
      (List.mem_cons_of_mem _ List.mem_cons_self) : next ∈ _)
    have hlt' : next.2 < n := by
      have : n ≠ next.2 := hne
      omega
    rw [he, if_pos hlt']
  unfold sortStorageAccessQueries at h
  obtain ⟨queries, hrun, -⟩ := Seq.bind_eq_ok.mp h
  rw [heq, List.map_append, List.map_cons, List.map_cons] at hrun
  refine deduplicate_ne_ok w.slot ?_ hw hrb (by rw [hnext]; exact hr)
    (by rw [hnext]; exact hread) queries hrun
  intro el hel
  rw [← List.map_cons, ← List.map_cons, ← List.map_append] at hel
  obtain ⟨e, he, rfl⟩ := List.mem_map.mp hel
  rw [(hmem.mp he).2]
  split_ifs
  · exact hslot
  · rfl

end OlaOs
