import OlaOs.Dal.TransactionKeys
import OlaOs.Lib.SortedGroups

/-! The primary key and the unique index of the `transactions` table, and what the statements of the
API servers and the mempool fetcher can do to its rows. -/
namespace OlaOs

open TransactionsDal

/-- Two rows differ in their hashes, and in their initiators or nonces. -/
def Apart (a b : TransactionRow) : Prop :=
  a.hash ≠ b.hash ∧ ∀ key, a.key = some key → b.key ≠ some key

variable {table table' : List TransactionRow}

theorem eq_of_hash (h : table.Pairwise Apart) {a b : TransactionRow} (ha : a ∈ table)
    (hb : b ∈ table) (hhash : a.hash = b.hash) : a = b := by
  by_contra hne
  rcases SortedGroups.pairwise_or h ha hb hne with hab | hba
  · exact hab.1 hhash
  · exact hba.1 hhash.symm

theorem eq_of_key (h : table.Pairwise Apart) {a b : TransactionRow} (ha : a ∈ table)
    (hb : b ∈ table) {key : Address × ℤ} (hakey : a.key = some key) (hbkey : b.key = some key) :
    a = b := by
  by_contra hne
  rcases SortedGroups.pairwise_or h ha hb hne with hab | hba
  · exact hab.2 key hakey hbkey
  · exact hba.2 key hbkey hakey

/-- An update that gives the row of an initiator and a nonce a hash that no other row has. -/
theorem pairwise_apart_update (h : table.Pairwise Apart) {initiatorAddress : Address} {nonce : ℤ}
    {hash : H256} {f : TransactionRow → TransactionRow}
    (htaken : hashTaken table hash initiatorAddress nonce = false)
    (hkey : ∀ row, (f row).key = row.key) (hhash : ∀ row, (f row).hash = hash) :
    (table.map fun row => if hasKey initiatorAddress nonce row then f row else row).Pairwise
      Apart := by
  have hfree : ∀ row ∈ table, hasKey initiatorAddress nonce row = false → row.hash ≠ hash := by
    intro row hrow hnot heq
    refine Bool.eq_false_iff.mp htaken (List.any_eq_true.mpr ⟨row, hrow, ?_⟩)
    simp [heq, hnot]
  refine List.pairwise_map.mpr (h.imp_of_mem fun {a b} ha hb hab => ?_)
  have hkeys : ∀ key, (if hasKey initiatorAddress nonce a then f a else a).key = some key →
      (if hasKey initiatorAddress nonce b then f b else b).key ≠ some key := by
    intro key
    rw [key_ite hkey, key_ite hkey]
    exact hab.2 key
  refine ⟨?_, hkeys⟩
  split_ifs with hakey hbkey hbkey
  · exact absurd (hasKey_iff.mp hbkey) (hab.2 _ (hasKey_iff.mp hakey))
  · rw [hhash]
    exact (hfree b hb (Bool.eq_false_iff.mpr hbkey)).symm
  · rw [hhash]
    exact hfree a ha (Bool.eq_false_iff.mpr hakey)
  · exact hab.1

theorem pairwise_apart_map (h : table.Pairwise Apart) {f : TransactionRow → TransactionRow}
    (hkey : ∀ row, (f row).key = row.key) (hhash : ∀ row, (f row).hash = row.hash) :
    (table.map f).Pairwise Apart := by
  refine List.pairwise_map.mpr (h.imp fun {a b} hab => ?_)
  unfold Apart
  rw [hkey, hkey, hhash, hhash]
  exact hab

/-- What a statement other than the marks of executed transactions does: flags and errors of rows
change, rows without a miniblock or in the mempool are deleted, the row of an initiator and a nonce
is replaced if it has no miniblock, or a row is added. -/
inductive Edited : List TransactionRow → List TransactionRow → Prop where
  | flagged {table : List TransactionRow} (inMempool : TransactionRow → Bool)
      (error : TransactionRow → Option String) :
      (∀ row ∈ table, inMempool row = true → row.inMempool = true ∨ row.miniblockNumber = none) →
      Edited table (table.map fun row =>
        { row with inMempool := inMempool row, error := error row })
  | deleted {table : List TransactionRow} (stays : TransactionRow → Bool) :
      (∀ row ∈ table, stays row = false → row.inMempool = true ∨ row.miniblockNumber = none) →
      Edited table (table.filter stays)
  | replaced {table : List TransactionRow} (hash : H256) (input : List UInt8) (tx : L2Tx) :
      (∀ row ∈ table, hasKey tx.initiatorAccount tx.nonce.val row = true →
        row.miniblockNumber = none) →
      hashTaken table hash tx.initiatorAccount tx.nonce.val = false →
      Edited table (table.map fun row =>
        if hasKey tx.initiatorAccount tx.nonce.val row then writeTx row hash input tx else row)
  | added {table : List TransactionRow} (hash : H256) (input : List UInt8) (tx : L2Tx) :
      (∀ row ∈ table, row.hash ≠ hash) → columnKey tx.key ∉ keys table →
      Edited table (table ++ [writeTx (emptyRow hash tx) hash input tx])

theorem Edited.refl (table : List TransactionRow) : Edited table table := by
  have h : Edited table (table.filter fun _ => true) := .deleted _ fun _ _ hfalse => nomatch hfalse
  rwa [List.filter_true] at h

/-- Only the flags of some rows change. -/
theorem Edited.inMempool {f : TransactionRow → Bool}
    (h : ∀ row ∈ table, f row = true → row.inMempool = true ∨ row.miniblockNumber = none) :
    Edited table (table.map fun row => { row with inMempool := f row }) :=
  .flagged f TransactionRow.error h

theorem edited_insertTransactionL2 (hapart : table.Pairwise Apart) {tx : L2Tx}
    {result : L2TxSubmissionResult} (h : insertTransactionL2 table tx = .ok (result, table')) :
    Edited table table' := by
  unfold insertTransactionL2 at h
  split at h
  · cases h
  · rename_i input hinput
    dsimp only at h
    split at h
    · rename_i old hold
      have hkeyOld := hasKey_iff.mp (List.find?_some hold)
      split_ifs at h with hpending htaken
      · cases h
        exact .refl table
      · cases h
        refine .replaced input.hash input.data tx (fun row hrow hkey => ?_)
          (Bool.eq_false_iff.mpr htaken)
        rw [eq_of_key hapart hrow (List.mem_of_find?_eq_some hold) (hasKey_iff.mp hkey) hkeyOld]
        exact hpending.2
      · cases h
        exact .refl table
    · rename_i hfind
      split_ifs at h with hduplicate
      · cases h
        exact .refl table
      · cases h
        refine .added input.hash input.data tx (fun row hrow heq => ?_) fun hmem => ?_
        · exact hduplicate (List.any_eq_true.mpr ⟨row, hrow, by simp [heq]⟩)
        · obtain ⟨row, hrow, hkey⟩ := mem_keys.mp hmem
          exact List.find?_eq_none.mp hfind row hrow (hasKey_iff.mpr hkey)

theorem edited_removeStuckTxs (since : U64) : Edited table (removeStuckTxs table since) := by
  refine .deleted _ fun row _ hgone => .inr ?_
  simp only [Bool.not_eq_false', Bool.and_eq_true, Option.isNone_iff_eq_none] at hgone
  exact hgone.1.1.1

theorem edited_resetMempool : Edited table (resetMempool table) :=
  .inMempool fun _ _ h => nomatch h

theorem edited_releaseStashed (stashedAccounts : List Address) :
    Edited table (releaseStashed table stashedAccounts) := by
  have heq : releaseStashed table stashedAccounts = table.map fun row =>
      { row with
        inMempool := row.inMempool && !stashedAccounts.contains row.initiatorAddress } := by
    refine List.map_congr_left fun row _ => ?_
    cases hin : row.inMempool <;>
      cases hcontains : stashedAccounts.contains row.initiatorAddress <;>
      simp [← hin]
  rw [heq]
  refine .inMempool fun row _ h => .inl ?_
  exact (Bool.and_eq_true _ _ ▸ h).1

theorem edited_deletePurged (purgedAccounts : List Address) :
    Edited table (deletePurged table purgedAccounts) := by
  refine .deleted _ fun row _ hgone => .inl ?_
  rw [Bool.not_eq_false', Bool.and_eq_true] at hgone
  exact hgone.1

theorem edited_selectRows (hapart : table.Pairwise Apart) {scan : List TransactionRow}
    (hscan : scan.Perm table) (limit : ℕ) :
    Edited table (selectRows table (selectedHashes scan limit)).1 := by
  have heq : (selectRows table (selectedHashes scan limit)).1 = table.map fun row =>
      { row with
        inMempool := row.inMempool || (selectedHashes scan limit).contains row.hash } := by
    refine List.map_congr_left fun row _ => ?_
    cases hin : row.inMempool <;>
      cases hcontains : (selectedHashes scan limit).contains row.hash <;> simp [← hin]
  rw [heq]
  refine .inMempool fun row hrow h => ?_
  rw [Bool.or_eq_true] at h
  refine h.imp_right fun hmem => ?_
  -- the hash is that of a selectable row, and no other row has it
  obtain ⟨selected, hselected, hhash⟩ := List.mem_map.mp (List.contains_iff_mem.mp hmem)
  have hin := (List.mem_insertionSort _).mp (List.mem_of_mem_take hselected)
  obtain ⟨hscanned, hselectable⟩ := List.mem_filter.mp hin
  rw [← eq_of_hash hapart (hscan.mem_iff.mp hscanned) hrow hhash]
  unfold isSelectable at hselectable
  simp only [Bool.and_eq_true, Option.isNone_iff_eq_none] at hselectable
  exact hselectable.1.1.1

theorem edited_markTxAsRejected (hash : H256) (error : String) :
    Edited table (markTxAsRejected table hash error) := by
  have heq : markTxAsRejected table hash error = table.map fun row =>
      { row with
        inMempool := row.inMempool
        error := if row.hash = hash then some error else row.error } := by
    refine List.map_congr_left fun row _ => ?_
    split_ifs <;> rfl
  rw [heq]
  exact .flagged _ _ fun _ _ h => .inl h

theorem Edited.apart (h : Edited table table') (hapart : table.Pairwise Apart) :
    table'.Pairwise Apart := by
  cases h with
  | flagged inMempool error _ => exact pairwise_apart_map hapart (fun _ => rfl) fun _ => rfl
  | deleted stays _ => exact hapart.filter stays
  | replaced hash input tx _ htaken =>
    exact pairwise_apart_update hapart htaken (fun row => key_writeTx row ..) fun _ => rfl
  | added hash input tx hhash hkey =>
    refine List.pairwise_append.mpr
      ⟨hapart, List.pairwise_singleton _ _, fun row hrow new hnew => ?_⟩
    cases List.mem_singleton.mp hnew
    refine ⟨hhash row hrow, fun key hrowKey hnewKey => hkey (mem_keys.mpr ⟨row, hrow, ?_⟩)⟩
    exact hrowKey.trans hnewKey.symm

theorem pairwise_apart_markTxsAsExecutedInMiniblock (hapart : table.Pairwise Apart)
    {miniblockNumber : ℕ} {transactions : List TransactionExecutionResult}
    (hl2 : AllL2 transactions)
    (h : markTxsAsExecutedInMiniblock table miniblockNumber transactions = .ok table') :
    table'.Pairwise Apart := by
  rw [hl2.mark_eq] at h
  generalize executedRows transactions = executed at h
  induction executed generalizing table with
  | nil =>
    cases h
    exact hapart
  | cons e executed ih =>
    rw [List.foldlM_cons] at h
    obtain ⟨table₁, hone, hrest⟩ := Seq.bind_eq_ok.mp h
    refine ih ?_ hrest
    unfold markL2 at hone
    dsimp only at hone
    split_ifs at hone with hany htaken hnumber
    · cases hone
      exact pairwise_apart_update hapart (Bool.eq_false_iff.mpr htaken) (fun _ => rfl) fun _ => rfl
    · cases hone
      exact hapart

theorem pairwise_apart_markTxsAsExecutedInL1Batch (hapart : table.Pairwise Apart)
    (blockNumber : ℕ) (transactions : List TransactionExecutionResult) :
    (markTxsAsExecutedInL1Batch table blockNumber transactions).Pairwise Apart := by
  refine pairwise_apart_map hapart (fun row => ?_) fun row => ?_
  · split_ifs <;> rfl
  · split_ifs <;> rfl

/-- A row after the executed transactions of a miniblock are marked: untouched, or with the columns
of one of them. -/
theorem foldl_markIfKey_cases (miniblockNumber : ℤ) (row : TransactionRow)
    (executed : List ExecutedRow) :
    executed.foldl (markIfKey miniblockNumber) row = row ∨
      ∃ e ∈ executed, row.key = some (e.initiatorAddress, e.nonce) ∧
        executed.foldl (markIfKey miniblockNumber) row = markRow miniblockNumber e row := by
  induction executed generalizing row with
  | nil => exact .inl rfl
  | cons e executed ih =>
    rw [List.foldl_cons]
    unfold markIfKey
    split_ifs with hkey
    · right
      have hrow := hasKey_iff.mp hkey
      rcases ih (markRow miniblockNumber e row) with hsame | ⟨e', he', hkey', heq⟩
      · exact ⟨e, List.mem_cons_self, hrow, hsame⟩
      · exact ⟨e', List.mem_cons_of_mem _ he', hkey', heq⟩
    · refine (ih row).imp_right ?_
      rintro ⟨e', he', hkey', heq⟩
      exact ⟨e', List.mem_cons_of_mem _ he', hkey', heq⟩

end OlaOs
