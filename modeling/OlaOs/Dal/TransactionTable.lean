import OlaOs.Dal.TransactionKeys

/-! The `transactions` table under its unique index, with hashes that stand for an initiator and a
nonce. -/
namespace OlaOs

open TransactionsDal

/-- The initiator and nonce that the preimage of a transaction hash names. -/
abbrev KeyOf := H256 → Option (Address × Nonce)

/-- The hash of a transaction is the hash of its own initiator and nonce. -/
def L2Tx.Signed (keyOf : KeyOf) (tx : L2Tx) : Prop :=
  ∀ hash, tx.hash = some hash → keyOf hash = some tx.key

/-- What the schema and the hashes guarantee: an initiator and a nonce have one row, the hash of a
row is the hash of its initiator and nonce, and only protocol upgrades have no nonce. -/
structure TableInv (keyOf : KeyOf) (table : List TransactionRow) : Prop where
  hash : ∀ row ∈ table, (keyOf row.hash).map columnKey = row.key
  distinct : (keys table).Nodup
  upgrade : ∀ row ∈ table, row.key = none →
    row.txFormat = some TransactionType.protocolUpgradeTransaction.txFormat

section Table

variable {keyOf : KeyOf} {table : List TransactionRow}

/-- An update keeps hash and format of a row, or gives a row with a nonce its own hash. -/
theorem TableInv.map (h : TableInv keyOf table) {f : TransactionRow → TransactionRow}
    (hkey : ∀ row, (f row).key = row.key)
    (hrow : ∀ row ∈ table, (f row).hash = row.hash ∧ (f row).txFormat = row.txFormat ∨
      row.key ≠ none ∧ (keyOf (f row).hash).map columnKey = row.key) :
    TableInv keyOf (table.map f) := by
  refine ⟨fun row' hrow' => ?_, by rw [keys_map hkey]; exact h.distinct, fun row' hrow' hnone => ?_⟩
  · obtain ⟨row, hmem, rfl⟩ := List.mem_map.mp hrow'
    rw [hkey]
    rcases hrow row hmem with ⟨hhash, -⟩ | ⟨-, hhash⟩
    · rw [hhash]
      exact h.hash row hmem
    · exact hhash
  · obtain ⟨row, hmem, rfl⟩ := List.mem_map.mp hrow'
    rw [hkey] at hnone
    rcases hrow row hmem with ⟨-, hformat⟩ | ⟨hsome, -⟩
    · rw [hformat]
      exact h.upgrade row hmem hnone
    · exact absurd hnone hsome

theorem TableInv.filter (h : TableInv keyOf table) (p : TransactionRow → Bool) :
    TableInv keyOf (table.filter p) :=
  ⟨fun row hrow => h.hash row (List.mem_of_mem_filter hrow),
    h.distinct.sublist (List.filter_sublist.filterMap _),
    fun row hrow => h.upgrade row (List.mem_of_mem_filter hrow)⟩

/-- One row for an initiator and a nonce. -/
theorem TableInv.eq_of_key (h : TableInv keyOf table) {row row' : TransactionRow}
    (hrow : row ∈ table) (hrow' : row' ∈ table) {key : Address × ℤ} (hkey : row.key = some key)
    (hkey' : row'.key = some key) : row = row' := by
  have hdistinct := h.distinct
  unfold keys at hdistinct
  clear h
  induction table with
  | nil => cases hrow
  | cons first table ih =>
    rw [List.filterMap_cons] at hdistinct
    have hrest : (table.filterMap TransactionRow.key).Nodup := by
      split at hdistinct
      · exact hdistinct
      · exact hdistinct.of_cons
    have hfirst {row : TransactionRow} (hrow : row ∈ table) (hkey : row.key = some key) :
        first.key ≠ some key := by
      intro hsome
      rw [hsome] at hdistinct
      exact (List.nodup_cons.mp hdistinct).1 (List.mem_filterMap.mpr ⟨row, hrow, hkey⟩)
    rcases List.mem_cons.mp hrow with rfl | hmem
    · rcases List.mem_cons.mp hrow' with rfl | hmem'
      · rfl
      · exact absurd hkey (hfirst hmem' hkey')
    · rcases List.mem_cons.mp hrow' with rfl | hmem'
      · exact absurd hkey' (hfirst hmem hkey)
      · exact ih hmem hmem' hrest

/-- The hash is a primary key. -/
theorem TableInv.eq_of_hash (h : TableInv keyOf table) {row row' : TransactionRow}
    (hrow : row ∈ table) (hrow' : row' ∈ table) (hhash : row.hash = row'.hash)
    (hsome : row.key ≠ none) : row = row' := by
  obtain ⟨key, hkey⟩ := Option.ne_none_iff_exists'.mp hsome
  refine h.eq_of_key hrow hrow' hkey ?_
  rw [← h.hash row' hrow', ← hhash, h.hash row hrow, hkey]

theorem TableInv.insertTransactionL2 (h : TableInv keyOf table) {tx : L2Tx}
    (hsigned : tx.Signed keyOf) {result : L2TxSubmissionResult} {table' : List TransactionRow}
    (hrun : insertTransactionL2 table tx = .ok (result, table')) :
    TableInv keyOf table' ∧ keys table ⊆ keys table' := by
  rcases insertTransactionL2_cases hrun with rfl | ⟨input, hinput, rfl | ⟨hnew, rfl⟩⟩
  · exact ⟨h, List.Subset.refl _⟩
  · have hkey : ∀ row : TransactionRow, (if hasKey tx.initiatorAccount tx.nonce.val row then
        writeTx row input.hash input.data tx else row).key = row.key :=
      key_ite fun row => key_writeTx row ..
    have hhash : keyOf input.hash = some tx.key :=
      hsigned _ (by simp [L2Tx.hash, L2TxCommonData.hash, hinput])
    refine ⟨h.map hkey fun row _ => ?_, (keys_map hkey).symm ▸ List.Subset.refl _⟩
    split_ifs with hrow
    · right
      rw [hasKey_iff.mp hrow]
      refine ⟨Option.some_ne_none _, ?_⟩
      show (keyOf input.hash).map columnKey = _
      rw [hhash]
      rfl
    · exact .inl ⟨rfl, rfl⟩
  · have hhash : keyOf input.hash = some tx.key :=
      hsigned _ (by simp [L2Tx.hash, L2TxCommonData.hash, hinput])
    have hkeys : keys (table ++ [writeTx (emptyRow input.hash tx) input.hash input.data tx]) =
        keys table ++ [columnKey tx.key] := keys_append_writeTx ..
    refine ⟨⟨fun row hrow => ?_, ?_, fun row hrow hnone => ?_⟩, ?_⟩
    · rcases List.mem_append.mp hrow with hrow | hrow
      · exact h.hash row hrow
      · rw [List.mem_singleton.mp hrow]
        show (keyOf input.hash).map columnKey = _
        rw [hhash]
        rfl
    · rw [hkeys]
      refine h.distinct.append (List.nodup_singleton _) ?_
      exact List.disjoint_singleton.mpr hnew
    · rcases List.mem_append.mp hrow with hrow | hrow
      · exact h.upgrade row hrow hnone
      · rw [List.mem_singleton.mp hrow] at hnone
        cases hnone
    · rw [hkeys]
      exact List.subset_append_left _ _

/-- An executed transaction with its own hash is marked without a violation. -/
theorem TableInv.markL2 (h : TableInv keyOf table) {miniblockNumber : ℕ}
    (hnumber : miniblockNumber < 2 ^ 31) {executed : ExecutedRow}
    (hhash : (keyOf executed.hash).map columnKey =
      some (executed.initiatorAddress, executed.nonce)) :
    ∃ table', markL2 miniblockNumber table executed = .ok table' ∧ TableInv keyOf table' := by
  have htaken : hashTaken table executed.hash executed.initiatorAddress executed.nonce = false := by
    refine Bool.eq_false_iff.mpr fun htaken => ?_
    obtain ⟨row, hrow, htrue⟩ := List.any_eq_true.mp htaken
    simp only [Bool.and_eq_true, decide_eq_true_eq, Bool.not_eq_true'] at htrue
    have hkey := h.hash row hrow
    rw [htrue.1, hhash] at hkey
    rw [hasKey_iff.mpr hkey.symm] at htrue
    cases htrue.2
  have hok : ∃ table', TransactionsDal.markL2 miniblockNumber table executed = .ok table' := by
    unfold TransactionsDal.markL2
    dsimp only
    rw [htaken, asI32_of_lt hnumber, if_neg Bool.false_ne_true, if_neg (not_not.mpr rfl)]
    split_ifs
    · exact ⟨_, rfl⟩
    · exact ⟨_, rfl⟩
  obtain ⟨table', hrun⟩ := hok
  refine ⟨table', hrun, ?_⟩
  rw [markL2_eq hrun]
  refine h.map (fun row => key_markIfKey ..) fun row _ => ?_
  unfold markIfKey
  split_ifs with hkey
  · rw [hasKey_iff.mp hkey]
    exact .inr ⟨Option.some_ne_none _, hhash⟩
  · exact .inl ⟨rfl, rfl⟩

theorem TableInv.foldlM_markL2 (h : TableInv keyOf table) {miniblockNumber : ℕ}
    (hnumber : miniblockNumber < 2 ^ 31) {executed : List ExecutedRow}
    (hhash : ∀ e ∈ executed, (keyOf e.hash).map columnKey = some (e.initiatorAddress, e.nonce)) :
    ∃ table', executed.foldlM (TransactionsDal.markL2 miniblockNumber) table = .ok table' ∧
      TableInv keyOf table' := by
  induction executed generalizing table with
  | nil => exact ⟨table, rfl, h⟩
  | cons e executed ih =>
    obtain ⟨he, hrest⟩ := List.forall_mem_cons.mp hhash
    obtain ⟨table₁, hone, h₁⟩ := h.markL2 hnumber he
    obtain ⟨table', hrun, h'⟩ := ih h₁ hrest
    refine ⟨table', ?_, h'⟩
    rw [List.foldlM_cons, hone]
    exact hrun

/-- The selected rows are those of known transactions. -/
theorem TableInv.rowToTransaction (h : TableInv keyOf table) {row : TransactionRow}
    (hrow : row ∈ table) (hformat : row.txFormat ≠
      some TransactionType.protocolUpgradeTransaction.txFormat) {tx : Transaction}
    (hrun : TransactionsDal.rowToTransaction { row with inMempool := true } = .ok tx) :
    ∃ l2Tx : L2Tx, tx = l2Tx.intoTransaction ∧ l2Tx.hash = some row.hash ∧
      keyOf row.hash = some l2Tx.key ∧ row.key = some (columnKey l2Tx.key) := by
  rcases rowToTransaction_cases hrun with ⟨hupgrade, -⟩ | ⟨nonce, l2Tx, hnonce, rfl, hl2, htxHash⟩
  · exact absurd hupgrade hformat
  have hhash := h.hash row hrow
  rw [TransactionRow.key, show row.nonce = some nonce from hnonce] at hhash
  obtain ⟨key, hkey, hcolumn⟩ := Option.map_eq_some_iff.mp hhash
  obtain ⟨haddress, hval⟩ := Prod.mk.inj hcolumn
  have hsame : l2Tx.key = key := by
    rw [hl2, ← hval, asNonce_val]
    exact Prod.ext haddress.symm rfl
  refine ⟨l2Tx, rfl, htxHash, hsame ▸ hkey, ?_⟩
  rw [hsame, hcolumn, TransactionRow.key, show row.nonce = some nonce from hnonce]
  rfl

theorem TableInv.resetMempool {table : List TransactionRow} (h : TableInv keyOf table) :
    TableInv keyOf (resetMempool table) :=
  h.map (fun _ => rfl) fun _ _ => .inl ⟨rfl, rfl⟩

end Table

end OlaOs
