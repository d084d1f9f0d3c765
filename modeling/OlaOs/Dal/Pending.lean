import Mathlib.Data.Bool.Basic
import Mathlib.Data.Prod.Lex
import Mathlib.Order.WithBot
import OlaOs.Dal.Blocks
import OlaOs.Dal.Distinct
import OlaOs.Lib.Numbered
import OlaOs.Lib.SortedGroups

/-! The rows of executed transactions without a batch, in their order, and what
`get_miniblocks_to_reexecute` makes of them. -/
namespace OlaOs

open TransactionsDal

/-- The miniblock and the index of a row; missing indices come last. -/
def TransactionRow.place (row : TransactionRow) : ℤ ×ₗ Bool ×ₗ ℤ :=
  toLex (row.miniblockNumber.getD 0, toLex (row.indexInBlock.isNone, row.indexInBlock.getD 0))

theorem executedBefore_iff {a b : TransactionRow} (ha : a.miniblockNumber.isSome = true)
    (hb : b.miniblockNumber.isSome = true) : executedBefore a b = true ↔ a.place ≤ b.place := by
  obtain ⟨m, hm⟩ := Option.isSome_iff_exists.mp ha
  obtain ⟨n, hn⟩ := Option.isSome_iff_exists.mp hb
  unfold executedBefore TransactionRow.place
  rw [Prod.Lex.toLex_le_toLex, Prod.Lex.toLex_le_toLex, hm, hn]
  by_cases heq : m = n
  · subst heq
    cases a.indexInBlock with
    | none =>
      cases b.indexInBlock with
      | none => simp
      | some j => simp
    | some i =>
      cases b.indexInBlock with
      | none => simp
      | some j => simp
  · simp [heq]

/-- The rows that a restarted sequencer executes again, in the order of the query. -/
def pendingRows (scan : List TransactionRow) : List TransactionRow :=
  (scan.filter isPending).insertionSort fun a b => executedBefore a b = true

variable {scan : List TransactionRow}

theorem mem_pendingRows {row : TransactionRow} :
    row ∈ pendingRows scan ↔ row ∈ scan ∧ isPending row = true :=
  (List.mem_insertionSort _).trans List.mem_filter

theorem pendingRows_perm : (pendingRows scan).Perm (scan.filter isPending) :=
  List.perm_insertionSort _ _

theorem isPending_isSome {row : TransactionRow} (h : isPending row = true) :
    row.miniblockNumber.isSome = true :=
  (Bool.and_eq_true _ _ ▸ h).1

theorem pendingRows_sorted : (pendingRows scan).Pairwise fun a b => a.place ≤ b.place := by
  refine SortedGroups.pairwise_insertionSort_key fun a ha b hb => ?_
  exact executedBefore_iff (isPending_isSome (List.mem_filter.mp ha).2)
    (isPending_isSome (List.mem_filter.mp hb).2)

/-- The rows of a range, in the order of the table. -/
theorem timestampsBetween_eq {rows : List MiniblockHeaderRow}
    (hnumbers : Numbered MiniblockHeaderRow.number rows) (first last : ℕ) :
    timestampsBetween rows first last =
      ((rows.take (last + 1)).drop first).map MiniblockHeaderRow.timestamp := by
  unfold timestampsBetween
  rw [hnumbers.filter_between, List.Pairwise.insertionSort_eq]
  have hsublist := (List.drop_sublist first _).trans (List.take_sublist (last + 1) rows)
  exact (hnumbers.pairwise.sublist hsublist).imp Nat.le_of_lt

/-- The pending rows after a step are pending rows of before it, with the same transactions. -/
def Descends (table table' : List TransactionRow) : Prop :=
  ∀ row' ∈ table', isPending row' = true → ∃ row ∈ table, isPending row = true ∧
    row'.hash = row.hash ∧ row'.miniblockNumber = row.miniblockNumber ∧
    rowToTransaction row' = rowToTransaction row

theorem isPending_eq_false {row : TransactionRow} (h : row.miniblockNumber = none) :
    isPending row = false := by
  simp [isPending, h]

theorem Edited.descends {table table' : List TransactionRow} (h : Edited table table') :
    Descends table table' := by
  intro row' hrow' hpending
  cases h with
  | flagged inMempool error _ =>
    obtain ⟨row, hrow, rfl⟩ := List.mem_map.mp hrow'
    exact ⟨row, hrow, hpending, rfl, rfl, rfl⟩
  | deleted stays _ => exact ⟨row', List.mem_of_mem_filter hrow', hpending, rfl, rfl, rfl⟩
  | replaced hash input tx hfree _ =>
    obtain ⟨row, hrow, rfl⟩ := List.mem_map.mp hrow'
    split_ifs at hpending ⊢ with hkey
    · have hnot : isPending (writeTx row hash input tx) = false :=
        isPending_eq_false (hfree row hrow hkey)
      rw [hnot] at hpending
      cases hpending
    · exact ⟨row, hrow, hpending, rfl, rfl, rfl⟩
  | added hash input tx _ _ =>
    rcases List.mem_append.mp hrow' with hrow | hnew
    · exact ⟨row', hrow, hpending, rfl, rfl, rfl⟩
    · cases List.mem_singleton.mp hnew
      cases hpending

/-- The rows that get a batch are pending no more. -/
theorem pending_of_markTxsAsExecutedInL1Batch (table : List TransactionRow) (blockNumber : ℕ)
    (transactions : List TransactionExecutionResult) :
    ∀ row' ∈ markTxsAsExecutedInL1Batch table blockNumber transactions, isPending row' = true →
      row' ∈ table ∧ ∀ result ∈ transactions, result.hash ≠ row'.hash := by
  intro row' hrow' hpending
  obtain ⟨row, hrow, rfl⟩ := List.mem_map.mp hrow'
  split_ifs at hpending ⊢ with hmem
  · simp [isPending] at hpending
  · refine ⟨hrow, fun result hresult heq => hmem ?_⟩
    exact List.contains_iff_mem.mpr (List.mem_map.mpr ⟨result, hresult, heq⟩)

/-- Every pending row is marked with the number of a stored miniblock. -/
def PendingStored (scan : List TransactionRow) (rows : List MiniblockHeaderRow) : Prop :=
  ∀ row ∈ scan, isPending row = true →
    ∃ number : ℕ, row.miniblockNumber = some (number : ℤ) ∧ number < rows.length

theorem PendingStored.descends {table table' : List TransactionRow}
    {rows rows' : List MiniblockHeaderRow} (h : PendingStored table rows)
    (hdescends : Descends table table') (hle : rows.length ≤ rows'.length) :
    PendingStored table' rows' := by
  intro row' hrow' hpending'
  obtain ⟨row, hrow, hpending, -, hnumber, -⟩ := hdescends row' hrow' hpending'
  obtain ⟨number, heq, hlt⟩ := h row hrow hpending
  exact ⟨number, hnumber.trans heq, Nat.lt_of_lt_of_le hlt hle⟩

/-- The numbers of the groups, as far as the groups are those of stored miniblocks. -/
theorem groupNumber_eq {rows : List MiniblockHeaderRow} (hstored : PendingStored scan rows)
    (hle : rows.length ≤ 2 ^ 32) {group : List TransactionRow}
    (hgroup : group ∈ pendingGroups scan) :
    ∃ row ∈ group, row.miniblockNumber = some (groupNumber group : ℤ) ∧
      groupNumber group < rows.length := by
  have hne : group ≠ [] := by
    rintro rfl
    exact List.nil_notMem_splitBy _ _ hgroup
  obtain ⟨row, rest, rfl⟩ := List.exists_cons_of_ne_nil hne
  have hflatten : row ∈ (pendingGroups scan).flatten :=
    List.mem_flatten.mpr ⟨_, hgroup, List.mem_cons_self⟩
  unfold pendingGroups at hflatten
  rw [List.flatten_splitBy] at hflatten
  obtain ⟨hrow, hpending⟩ := mem_pendingRows.mp hflatten
  obtain ⟨number, hnumber, hlt⟩ := hstored row hrow hpending
  have heq : groupNumber (row :: rest) = number := by
    simp only [groupNumber, asU32, List.head?_cons, Option.bind_some, hnumber, Option.getD_some]
    omega
  rw [heq]
  exact ⟨row, List.mem_cons_self, hnumber, hlt⟩

/-- The groups are in the order of their miniblocks. -/
theorem groupNumber_increasing {rows : List MiniblockHeaderRow} (hstored : PendingStored scan rows)
    (hle : rows.length ≤ 2 ^ 32) :
    ((pendingGroups scan).map groupNumber).Pairwise (· < ·) := by
  have hsorted : (pendingRows scan).Pairwise fun a b =>
      (a.miniblockNumber : WithBot ℤ) ≤ b.miniblockNumber := by
    refine pendingRows_sorted.imp_of_mem fun {a b} ha hb hab => ?_
    obtain ⟨m, hm, -⟩ := hstored a (mem_pendingRows.mp ha).1 (mem_pendingRows.mp ha).2
    obtain ⟨n, hn, -⟩ := hstored b (mem_pendingRows.mp hb).1 (mem_pendingRows.mp hb).2
    have hle : (m : ℤ) ≤ n := by
      have hfst := Prod.Lex.monotone_fst _ _ hab
      simpa [TransactionRow.place, hm, hn] using hfst
    rw [hm, hn]
    exact WithBot.coe_le_coe.mpr hle
  have hgroups := SortedGroups.pairwise_splitBy hsorted
  refine List.pairwise_map.mpr (List.Pairwise.imp_of_mem (fun {g g'} hg hg' hlt => ?_) hgroups)
  obtain ⟨a, ha, hm, -⟩ := groupNumber_eq hstored hle hg
  obtain ⟨b, hb, hn, -⟩ := groupNumber_eq hstored hle hg'
  have hkeys := hlt a ha b hb
  rw [hm, hn] at hkeys
  exact_mod_cast WithBot.coe_lt_coe.mp hkeys

/-- The transactions that are executed again are those of the pending rows, in their order. -/
theorem getMiniblocksToReexecute_txs {rows : List MiniblockHeaderRow}
    (hnumbers : Numbered MiniblockHeaderRow.number rows) (hstored : PendingStored scan rows)
    (hle : rows.length ≤ 2 ^ 32) {miniblocks : List MiniblockReexecuteData}
    (h : getMiniblocksToReexecute scan rows = .ok miniblocks) :
    (pendingRows scan).mapM rowToTransaction =
      .ok (miniblocks.flatMap MiniblockReexecuteData.txs) := by
  unfold getMiniblocksToReexecute at h
  obtain ⟨groups, hgroups, h⟩ := Seq.bind_eq_ok.mp h
  have hparts : List.Forall₂ (fun part result => part.mapM rowToTransaction = .ok result.2)
      (pendingGroups scan) groups := by
    refine (Seq.forall₂_of_mapM hgroups).imp fun part result hresult => ?_
    obtain ⟨txs, htxs, hresult⟩ := Seq.bind_eq_ok.mp hresult
    cases hresult
    exact htxs
  have hfst : groups.map Prod.fst = (pendingGroups scan).map groupNumber := by
    refine Seq.map_of_mapM (fun group result hresult => ?_) hgroups
    obtain ⟨txs, -, hresult⟩ := Seq.bind_eq_ok.mp hresult
    cases hresult
    rfl
  have hall := Seq.mapM_flatten hparts
  rw [show (pendingGroups scan).flatten = pendingRows scan from List.flatten_splitBy _ _] at hall
  rw [hall]
  -- there are at least as many timestamps as groups
  have hincreasing := groupNumber_increasing hstored hle
  rw [← hfst] at hincreasing
  cases hfirst : groups.head? with
  | none =>
    obtain rfl := List.head?_eq_none_iff.mp hfirst
    cases h
    rfl
  | some first =>
    cases hlast : groups.getLast? with
    | none =>
      obtain rfl := List.getLast?_eq_none_iff.mp hlast
      cases hfirst
    | some last =>
      rw [hfirst, hlast] at h
      cases h
      have hlength : groups.length ≤ (timestampsBetween rows first.1 last.1).length := by
        have hspan := Seq.length_le_of_increasing hincreasing
          (by rw [List.head?_map, hfirst]; rfl) (by rw [List.getLast?_map, hlast]; rfl)
        have hlastMem : last.1 ∈ (pendingGroups scan).map groupNumber := by
          rw [← hfst]
          exact List.mem_map_of_mem (List.mem_of_getLast? hlast)
        obtain ⟨group, hgroup, hnumber⟩ := List.mem_map.mp hlastMem
        obtain ⟨-, -, -, hlt⟩ := groupNumber_eq hstored hle hgroup
        rw [timestampsBetween_eq hnumbers, List.length_map, List.length_drop, List.length_take]
        rw [List.length_map] at hspan
        omega
      have hzip : (groups.zipWith (fun group timestamp =>
          (⟨group.1, timestamp, group.2⟩ : MiniblockReexecuteData))
          (timestampsBetween rows first.1 last.1)).map MiniblockReexecuteData.txs =
            groups.map Prod.snd := by
        refine Seq.zipWith_left (fun group timestamp => ?_) hlength
        rfl
      rw [List.flatMap_def, List.flatMap_def, hzip]

end OlaOs
