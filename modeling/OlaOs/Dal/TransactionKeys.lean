import OlaOs.Dal.Transactions
import OlaOs.Lib.Seq

/-! What the statements on the `transactions` table do to the initiators and nonces of its rows. -/
namespace OlaOs

open TransactionsDal

/-- The entry of a row in the unique index. -/
def TransactionRow.key (row : TransactionRow) : Option (Address × ℤ) :=
  row.nonce.map fun nonce => (row.initiatorAddress, nonce)

def L2Tx.key (tx : L2Tx) : Address × Nonce := (tx.initiatorAccount, tx.nonce)

/-- An initiator and a nonce as the columns of the table. -/
def columnKey (key : Address × Nonce) : Address × ℤ := (key.1, key.2.val)

theorem columnKey_injective : Function.Injective columnKey := by
  rintro ⟨address, nonce⟩ ⟨address', nonce'⟩ h
  obtain ⟨haddress, hnonce⟩ := Prod.mk.inj h
  have hval : nonce = nonce' := Fin.ext (by exact_mod_cast hnonce)
  rw [show address = address' from haddress, hval]

/-- The entries of the unique index. -/
def keys (table : List TransactionRow) : List (Address × ℤ) := table.filterMap TransactionRow.key

variable {table : List TransactionRow}

theorem hasKey_iff {initiatorAddress : Address} {nonce : ℤ} {row : TransactionRow} :
    hasKey initiatorAddress nonce row = true ↔ row.key = some (initiatorAddress, nonce) := by
  simp [hasKey, TransactionRow.key, and_comm]

theorem mem_keys {key : Address × ℤ} : key ∈ keys table ↔ ∃ row ∈ table, row.key = some key :=
  List.mem_filterMap

theorem keys_map {f : TransactionRow → TransactionRow} (h : ∀ row, (f row).key = row.key) :
    keys (table.map f) = keys table := by
  unfold keys
  rw [List.filterMap_map]
  exact congrArg (List.filterMap · table) (funext h)

/-- An update of the rows with a condition. -/
theorem key_ite {p : TransactionRow → Bool} {f : TransactionRow → TransactionRow}
    (h : ∀ row, (f row).key = row.key) (row : TransactionRow) :
    (if p row then f row else row).key = row.key := by
  split_ifs
  · exact h row
  · rfl

theorem keys_resetMempool : keys (resetMempool table) = keys table := keys_map fun _ => rfl

theorem keys_releaseStashed (stashedAccounts : List Address) :
    keys (releaseStashed table stashedAccounts) = keys table :=
  keys_map (key_ite fun _ => rfl)

theorem keys_selectRows (hashes : List H256) : keys (selectRows table hashes).1 = keys table :=
  keys_map (key_ite fun _ => rfl)

theorem keys_markTxAsRejected (hash : H256) (error : String) :
    keys (markTxAsRejected table hash error) = keys table := by
  refine keys_map fun row => ?_
  split_ifs <;> rfl

/-- The three outcomes of a submission: nothing changes, the row with the initiator and nonce is
replaced, or a row is added. -/
theorem insertTransactionL2_cases {tx : L2Tx} {result : L2TxSubmissionResult}
    {table' : List TransactionRow} (h : insertTransactionL2 table tx = .ok (result, table')) :
    table' = table ∨ ∃ input, tx.commonData.input = some input ∧
      (table' = table.map (fun row => if hasKey tx.initiatorAccount tx.nonce.val row
        then writeTx row input.hash input.data tx else row) ∨
      columnKey tx.key ∉ keys table ∧
        table' = table ++ [writeTx (emptyRow input.hash tx) input.hash input.data tx]) := by
  unfold insertTransactionL2 at h
  cases hinput : tx.commonData.input with
  | none =>
    rw [hinput] at h
    cases h
  | some input =>
    rw [hinput] at h
    dsimp only at h
    split at h
    · split_ifs at h
      · cases h
        exact .inl rfl
      · cases h
        exact .inr ⟨input, rfl, .inl rfl⟩
      · cases h
        exact .inl rfl
    · rename_i hfind
      split_ifs at h
      · cases h
        exact .inl rfl
      · cases h
        refine .inr ⟨input, rfl, .inr ⟨fun hmem => ?_, rfl⟩⟩
        obtain ⟨row, hrow, hkey⟩ := mem_keys.mp hmem
        exact List.find?_eq_none.mp hfind row hrow (hasKey_iff.mpr hkey)

/-- The row that a submission writes. -/
theorem key_writeTx (row : TransactionRow) (hash : H256) (input : List UInt8) (tx : L2Tx) :
    (writeTx row hash input tx).key = row.key := rfl

/-- The keys after a row for a new initiator and nonce is added. -/
theorem keys_append_writeTx (hash : H256) (input : List UInt8) (tx : L2Tx) :
    keys (table ++ [writeTx (emptyRow hash tx) hash input tx]) =
      keys table ++ [columnKey tx.key] := by
  unfold keys
  rw [List.filterMap_append]
  rfl

/-- The update of one executed transaction, row by row. -/
def markIfKey (miniblockNumber : ℤ) (row : TransactionRow) (executed : ExecutedRow) :
    TransactionRow :=
  if hasKey executed.initiatorAddress executed.nonce row then markRow miniblockNumber executed row
  else row

theorem key_markIfKey (miniblockNumber : ℤ) (row : TransactionRow) (executed : ExecutedRow) :
    (markIfKey miniblockNumber row executed).key = row.key := by
  unfold markIfKey
  split_ifs <;> rfl

theorem markIfKey_of_key {row : TransactionRow} {executed : ExecutedRow}
    (h : row.key = some (executed.initiatorAddress, executed.nonce)) (miniblockNumber : ℤ) :
    markIfKey miniblockNumber row executed = markRow miniblockNumber executed row :=
  if_pos (hasKey_iff.mpr h)

theorem markIfKey_of_ne {row : TransactionRow} {executed : ExecutedRow}
    (h : row.key ≠ some (executed.initiatorAddress, executed.nonce)) (miniblockNumber : ℤ) :
    markIfKey miniblockNumber row executed = row :=
  if_neg fun hhas => h (hasKey_iff.mp hhas)

theorem key_foldl_markIfKey (miniblockNumber : ℤ) (row : TransactionRow)
    (executed : List ExecutedRow) :
    (executed.foldl (markIfKey miniblockNumber) row).key = row.key := by
  induction executed generalizing row with
  | nil => rfl
  | cons e executed ih => exact (ih _).trans (key_markIfKey ..)

theorem markL2_eq {miniblockNumber : ℕ} {executed : ExecutedRow} {table' : List TransactionRow}
    (h : markL2 miniblockNumber table executed = .ok table') :
    table' = table.map fun row => markIfKey (asI32 miniblockNumber) row executed := by
  unfold markL2 at h
  dsimp only at h
  split_ifs at h with hany hhash hnumber
  · cases h
    rfl
  · cases h
    refine (List.map_id table).symm.trans (List.map_congr_left fun row hrow => ?_)
    have hnot : ¬ hasKey executed.initiatorAddress executed.nonce row = true := fun hkey =>
      hany (List.any_eq_true.mpr ⟨row, hrow, hkey⟩)
    unfold markIfKey
    rw [if_neg hnot]
    rfl

theorem foldlM_markL2_eq {miniblockNumber : ℕ} {executed : List ExecutedRow}
    {table' : List TransactionRow}
    (h : executed.foldlM (markL2 miniblockNumber) table = .ok table') :
    table' = table.map fun row => executed.foldl (markIfKey (asI32 miniblockNumber)) row := by
  induction executed generalizing table with
  | nil =>
    cases h
    exact (List.map_id _).symm
  | cons e executed ih =>
    rw [List.foldlM_cons] at h
    obtain ⟨table₁, hone, hrest⟩ := Seq.bind_eq_ok.mp h
    rw [ih hrest, markL2_eq hone, List.map_map]
    rfl

/-- The rows of the executed L2 transactions of a miniblock. -/
def executedRows (transactions : List TransactionExecutionResult) : List ExecutedRow :=
  (indexed transactions).filterMap fun e => executedRow e.1 e.2

theorem mem_executedRows {transactions : List TransactionExecutionResult} {e : ExecutedRow} :
    e ∈ executedRows transactions ↔
      ∃ i result, transactions[i]? = some result ∧ executedRow i result = some e := by
  unfold executedRows indexed
  simp only [List.mem_filterMap, List.mem_map, Prod.exists, List.mem_zipIdx_iff_getElem?,
    Prod.mk.injEq]
  constructor
  · rintro ⟨i, result, ⟨_, _, hmem, rfl, rfl⟩, he⟩
    exact ⟨_, _, hmem, he⟩
  · rintro ⟨i, result, hmem, he⟩
    exact ⟨i, result, ⟨result, i, hmem, rfl, rfl⟩, he⟩

theorem executedRow_l2 {i : ℕ} {result : TransactionExecutionResult} {tx : L2Tx}
    (htx : result.transaction = tx.intoTransaction) {row : ExecutedRow}
    (h : executedRow i result = some row) :
    row.initiatorAddress = tx.initiatorAccount ∧ row.nonce = asI32 tx.nonce.val ∧
      row.hash = result.hash ∧ row.indexInBlock = asI32 i := by
  unfold executedRow at h
  rw [htx, L2Tx.intoTransaction_commonData] at h
  obtain rfl := Option.some.inj h
  have hnonce : tx.nonce = tx.commonData.nonce := rfl
  dsimp only
  rw [hnonce]
  exact ⟨rfl, rfl, rfl, rfl⟩

/-- Every transaction of the miniblock is an L2 transaction. -/
def AllL2 (transactions : List TransactionExecutionResult) : Prop :=
  ∀ result ∈ transactions, ∃ tx : L2Tx, result.transaction = tx.intoTransaction

theorem AllL2.filter_isUpgrade {transactions : List TransactionExecutionResult}
    (h : AllL2 transactions) : (indexed transactions).filter isUpgrade = [] := by
  refine List.filter_eq_nil_iff.mpr fun e he => ?_
  obtain ⟨⟨result, i⟩, hmem, rfl⟩ := List.mem_map.mp he
  obtain ⟨tx, htx⟩ := h result (List.mem_iff_getElem?.mpr ⟨i, List.mem_zipIdx_iff_getElem?.mp hmem⟩)
  simp [isUpgrade, htx]

theorem AllL2.mark_eq {transactions : List TransactionExecutionResult} (h : AllL2 transactions)
    (miniblockNumber : ℕ) : markTxsAsExecutedInMiniblock table miniblockNumber transactions =
      (executedRows transactions).foldlM (markL2 miniblockNumber) table := by
  unfold markTxsAsExecutedInMiniblock
  rw [h.filter_isUpgrade]
  exact bind_pure _

/-- A row that no executed transaction stands for stays as it is. -/
theorem foldl_markIfKey_of_not {miniblockNumber : ℤ} {row : TransactionRow}
    {executed : List ExecutedRow}
    (h : ∀ e ∈ executed, hasKey e.initiatorAddress e.nonce row = false) :
    executed.foldl (markIfKey miniblockNumber) row = row := by
  induction executed with
  | nil => rfl
  | cons e executed ih =>
    obtain ⟨he, hrest⟩ := List.forall_mem_cons.mp h
    rw [List.foldl_cons, markIfKey, he]
    exact ih hrest

/-- A row that exactly one executed transaction stands for gets the columns of that one. -/
theorem foldl_markIfKey_of_mem {miniblockNumber : ℤ} {row : TransactionRow}
    {executed : List ExecutedRow}
    (hdistinct : executed.Pairwise fun e e' =>
      (e.initiatorAddress, e.nonce) ≠ (e'.initiatorAddress, e'.nonce))
    {e : ExecutedRow} (he : e ∈ executed)
    (hkey : row.key = some (e.initiatorAddress, e.nonce)) :
    executed.foldl (markIfKey miniblockNumber) row = markRow miniblockNumber e row := by
  induction executed with
  | nil => cases he
  | cons e' executed ih =>
    obtain ⟨hne, hdistinct⟩ := List.pairwise_cons.mp hdistinct
    rw [List.foldl_cons]
    rcases List.mem_cons.mp he with rfl | he
    · rw [markIfKey_of_key hkey]
      refine foldl_markIfKey_of_not fun e' he' => ?_
      refine Bool.eq_false_iff.mpr fun h => hne e' he' ?_
      have hkey' : row.key = some (e'.initiatorAddress, e'.nonce) := hasKey_iff.mp h
      exact Option.some.inj (hkey.symm.trans hkey')
    · rw [markIfKey_of_ne fun h => hne e he (Option.some.inj (h.symm.trans hkey))]
      exact ih hdistinct he

theorem asNonce_val (nonce : Nonce) : asNonce (nonce.val : ℤ) = nonce := by
  apply Fin.ext
  have hlt := nonce.isLt
  simp only [asNonce, Fin.ofNat_eq_cast, Fin.val_natCast]
  omega

/-- A row is a protocol upgrade, or an L2 transaction with its initiator, nonce and hash. -/
theorem rowToTransaction_cases {row : TransactionRow} {tx : Transaction}
    (h : rowToTransaction row = .ok tx) :
    row.txFormat = some TransactionType.protocolUpgradeTransaction.txFormat ∧
      (∀ l2Tx : L2Tx, tx ≠ l2Tx.intoTransaction) ∨
    ∃ nonce, ∃ l2Tx : L2Tx, row.nonce = some nonce ∧ tx = l2Tx.intoTransaction ∧
      l2Tx.key = (row.initiatorAddress, asNonce nonce) ∧ l2Tx.hash = some row.hash := by
  unfold rowToTransaction at h
  split_ifs at h with hformat
  · obtain rfl := Except.ok.inj h
    exact .inl ⟨hformat, fun l2Tx heq => nomatch congrArg Transaction.commonData heq⟩
  · right
    split at h <;> cases h
    rename_i nonce transactionType signature input hnonce htype hsignature hinput
    exact ⟨nonce, ⟨row.data, ⟨asNonce nonce, row.initiatorAddress, signature, transactionType,
      some ⟨row.hash, input⟩⟩, row.receivedAt⟩, hnonce, rfl, rfl, rfl⟩

theorem hash_of_rowToTransaction {row : TransactionRow} {tx : Transaction}
    (h : rowToTransaction row = .ok tx) : tx.hash = some row.hash := by
  unfold rowToTransaction at h
  split_ifs at h
  · cases h
    rfl
  · split at h <;> cases h
    rfl

theorem rowType_txFormat {t type : TransactionType}
    (h : rowType (some t.txFormat) = some type) : type = t := by
  cases t <;> cases h <;> rfl

theorem asNonce_asI32 (nonce : Nonce) : asNonce (asI32 nonce.val) = nonce := by
  have hlt := nonce.isLt
  have hmod : asI32 nonce.val % 2 ^ 32 = nonce.val := by
    unfold asI32
    have := Int.bmod_emod (x := nonce.val) (m := 2 ^ 32)
    omega
  unfold asNonce
  rw [hmod]
  exact Fin.ofNat_val_eq_self nonce

/-- A row that was marked as an executed transaction is read as that transaction; only the time at
which it was received can differ. -/
theorem rowToTransaction_markRow {i : ℕ} {result : TransactionExecutionResult} {executed tx : L2Tx}
    (hexecuted : result.transaction = executed.intoTransaction)
    (hhash : result.transaction.hash = some result.hash) {e : ExecutedRow}
    (he : executedRow i result = some e) {row : TransactionRow}
    (hkey : row.key = some (e.initiatorAddress, e.nonce)) {miniblockNumber : ℤ}
    (h : rowToTransaction (markRow miniblockNumber e row) = .ok tx.intoTransaction) :
    tx.commonData = executed.commonData ∧ tx.execute = executed.execute ∧
      tx.receivedTimestampMs = row.receivedAt := by
  unfold executedRow at he
  rw [hexecuted] at he hhash
  cases he
  obtain ⟨execute, ⟨nonce, initiatorAddress, signature, transactionType, input⟩, received⟩ :=
    executed
  obtain ⟨⟨hash, data⟩, rfl, rfl⟩ := Option.map_eq_some_iff.mp hhash
  obtain ⟨rowNonce, hrowNonce, hpair⟩ := Option.map_eq_some_iff.mp hkey
  obtain ⟨haddress, hvalue⟩ := Prod.mk.inj hpair
  obtain ⟨execute', data', received'⟩ := tx
  unfold rowToTransaction markRow at h
  dsimp only at h
  split_ifs at h
  · cases h
  · rw [hrowNonce] at h
    split at h <;> cases h
    rename_i hnonce htype hsignature hrowInput
    cases hnonce
    cases hsignature
    cases hrowInput
    obtain rfl := rowType_txFormat htype
    dsimp only at hvalue
    have hrowAddress : row.initiatorAddress = initiatorAddress := haddress
    have hrowNonce : asNonce rowNonce = nonce := by rw [hvalue, asNonce_asI32]
    refine ⟨?_, rfl, rfl⟩
    rw [hrowAddress, hrowNonce]
    rfl

end OlaOs
