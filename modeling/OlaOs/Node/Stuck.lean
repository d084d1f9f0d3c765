import OlaOs.Dal.TransactionKeys
import OlaOs.Mempool.Concurrent
import OlaOs.Node.Held

/-! No row of the `transactions` table is marked as in the mempool and forgotten: a pending row is
stored in the mempool, or the sequencer has its transaction. -/
namespace OlaOs

open TransactionsDal MempoolStore

/-- A pending row that `sync_mempool` will not select again. -/
def TransactionRow.IsWaiting (row : TransactionRow) : Prop :=
  row.inMempool = true ∧ row.miniblockNumber = none ∧ row.error = none

section Table

variable {table : List TransactionRow}

/-- Every nonce of the table is a nonce. -/
def NoncesFit (table : List TransactionRow) : Prop := ∀ key ∈ keys table, ∃ k, key = columnKey k

/-- An update that changes no waiting row, and makes none. -/
theorem mem_of_isWaiting_map {f : TransactionRow → TransactionRow}
    (h : ∀ row, (f row).IsWaiting → f row = row) {row : TransactionRow}
    (hrow : row ∈ table.map f) (hwaiting : row.IsWaiting) : row ∈ table := by
  obtain ⟨row, hmem, rfl⟩ := List.mem_map.mp hrow
  rwa [h row hwaiting]

theorem mem_of_isWaiting_insertTransactionL2 {tx : L2Tx} {result : L2TxSubmissionResult}
    {table' : List TransactionRow} (hrun : insertTransactionL2 table tx = .ok (result, table'))
    {row : TransactionRow} (hrow : row ∈ table') (hwaiting : row.IsWaiting) : row ∈ table := by
  rcases insertTransactionL2_cases hrun with rfl | ⟨input, -, rfl | ⟨-, rfl⟩⟩
  · exact hrow
  · refine mem_of_isWaiting_map (fun row hwaiting => ?_) hrow hwaiting
    split_ifs at hwaiting ⊢
    · cases hwaiting.1
    · rfl
  · rcases List.mem_append.mp hrow with hrow | hrow
    · exact hrow
    · rw [List.mem_singleton.mp hrow] at hwaiting
      cases hwaiting.1

theorem mem_of_isWaiting_releaseStashed {stashedAccounts : List Address} {row : TransactionRow}
    (hrow : row ∈ releaseStashed table stashedAccounts) (hwaiting : row.IsWaiting) :
    row ∈ table := by
  refine mem_of_isWaiting_map (fun row hwaiting => ?_) hrow hwaiting
  split_ifs at hwaiting ⊢
  · cases hwaiting.1
  · rfl

theorem mem_of_isWaiting_markTxAsRejected {hash : H256} {error : String} {row : TransactionRow}
    (hrow : row ∈ markTxAsRejected table hash error) (hwaiting : row.IsWaiting) :
    row ∈ table ∧ row.hash ≠ hash := by
  obtain ⟨row, hmem, rfl⟩ := List.mem_map.mp hrow
  split_ifs at hwaiting ⊢ with hhash
  · cases hwaiting.2.2
  · exact ⟨hmem, hhash⟩

/-- A row that an executed transaction stands for does not wait after its miniblock is sealed. -/
theorem foldl_markIfKey_miniblockNumber {number : ℤ} {executed : List ExecutedRow}
    {row : TransactionRow}
    (h : row.miniblockNumber ≠ none ∨
      ∃ e ∈ executed, hasKey e.initiatorAddress e.nonce row = true) :
    (executed.foldl (markIfKey number) row).miniblockNumber ≠ none := by
  induction executed generalizing row with
  | nil =>
    rcases h with h | ⟨e, he, -⟩
    · exact h
    · cases he
  | cons first executed ih =>
    rw [List.foldl_cons]
    apply ih
    by_cases hfirst : hasKey first.initiatorAddress first.nonce row = true
    · left
      rw [markIfKey, if_pos hfirst]
      exact Option.some_ne_none _
    · have hsame : markIfKey number row first = row := by rw [markIfKey, if_neg hfirst]
      rw [hsame]
      rcases h with h | ⟨e, he, hkey⟩
      · exact .inl h
      · rcases List.mem_cons.mp he with rfl | he
        · exact absurd hkey hfirst
        · exact .inr ⟨e, he, hkey⟩

theorem mem_of_isWaiting_mark {number : ℕ} {executed : List TransactionExecutionResult}
    (hl2 : AllL2 executed) {table' : List TransactionRow}
    (hrun : markTxsAsExecutedInMiniblock table number executed = .ok table')
    {row : TransactionRow} (hrow : row ∈ table') (hwaiting : row.IsWaiting) :
    row ∈ table ∧ ∀ e ∈ executedRows executed, hasKey e.initiatorAddress e.nonce row = false := by
  rw [hl2.mark_eq] at hrun
  rw [foldlM_markL2_eq hrun] at hrow
  obtain ⟨row, hmem, rfl⟩ := List.mem_map.mp hrow
  have hnone : ∀ e ∈ executedRows executed, hasKey e.initiatorAddress e.nonce row = false := by
    intro e he
    refine Bool.eq_false_iff.mpr fun hkey => ?_
    exact foldl_markIfKey_miniblockNumber (.inr ⟨e, he, hkey⟩) hwaiting.2.1
  rw [foldl_markIfKey_of_not hnone]
  exact ⟨hmem, hnone⟩

/-- The initiator and the nonce, if it has one, of the row that a transaction was read from. -/
def Names (tx : Transaction) (row : TransactionRow) : Prop :=
  ∀ l2Tx : L2Tx, tx = l2Tx.intoTransaction → row.key = some (columnKey l2Tx.key)

/-- A row that enters the mempool names its transaction. -/
theorem names_rowToTransaction (hfit : NoncesFit table) {row : TransactionRow} (hrow : row ∈ table)
    {tx : Transaction}
    (hrun : rowToTransaction { row with inMempool := true } = .ok tx) : Names tx row := by
  rintro l2Tx rfl
  rcases rowToTransaction_cases hrun with ⟨-, hnot⟩ | ⟨nonce, l2Tx', hnonce, heq, hkey', -⟩
  · exact absurd rfl (hnot l2Tx)
  have hkey : row.key = some (row.initiatorAddress, nonce) := by
    rw [TransactionRow.key, show row.nonce = some nonce from hnonce]
    rfl
  obtain ⟨k, hk⟩ := hfit _ (mem_keys.mpr ⟨row, hrow, hkey⟩)
  obtain ⟨haddress, hval⟩ := Prod.mk.inj hk
  have hsame : l2Tx.key = l2Tx'.key := by
    have haccount : l2Tx.initiatorAccount = l2Tx'.initiatorAccount :=
      congrArg Transaction.initiatorAccount heq
    have hnonces : some l2Tx.nonce = some l2Tx'.nonce := congrArg Transaction.nonce heq
    exact Prod.ext haccount (Option.some.inj hnonces)
  rw [hkey, hsame, hkey', hval, asNonce_val]
  rfl

end Table

namespace NodeState

/-- The sequencer has taken a transaction with the initiator and nonce, and neither sealed nor
rejected it. -/
def Holds (s : NodeState) (key : Address × Nonce) : Prop :=
  ∃ l2Tx : L2Tx, l2Tx.intoTransaction ∈ s.heldOut ∧ l2Tx.key = key

/-- The fetcher is about to insert the transaction of a row, or to delete the row. -/
def OnItsWay (s : NodeState) (row : TransactionRow) : Prop :=
  (∃ tx ∈ s.fetcher.transactions, Names tx row) ∨
    row.initiatorAddress ∈ s.fetcher.purgedAccounts

/-- A row is stored in the mempool, or held by the sequencer. -/
def IsTracked (s : NodeState) (row : TransactionRow) : Prop :=
  ∃ key, row.key = some (columnKey key) ∧ (s.mempool.StoresAt key ∨ s.Holds key)

/-- The conditions on a step under which no row is forgotten: an inserted transaction is not below
the nonce of its account, unless the sequencer holds its initiator and nonce or no row waits for it;
a rejected transaction still has its hash in the row that waits for it, unless the row is stored or
on its way; and an executed nonce fits the column. -/
def KeepsTrack (s : NodeState) : NodeAction → Prop
  | .insertSynced => ∀ transactions nonces (l2Tx : L2Tx), s.fetcher = .synced transactions nonces →
      l2Tx.intoTransaction ∈ transactions →
      (s.mempool.entry nonces l2Tx.initiatorAccount).nonce ≤ l2Tx.nonce ∨ s.Holds l2Tx.key ∨
        ∀ row ∈ s.table, row.key = some (columnKey l2Tx.key) → ¬ row.IsWaiting
  | .reinsert => ∀ l2Tx : L2Tx, s.inHand = .rolledBack l2Tx.intoTransaction →
      (s.mempool.entry ∅ l2Tx.initiatorAccount).nonce ≤ l2Tx.nonce ∨
        ∀ row ∈ s.table, row.key = some (columnKey l2Tx.key) → ¬ row.IsWaiting
  | .markRejected _ => ∀ l2Tx : L2Tx, s.inHand = .rejecting l2Tx.intoTransaction →
      ∀ row ∈ s.table, row.key = some (columnKey l2Tx.key) → row.IsWaiting →
        l2Tx.hash = some row.hash ∨ s.mempool.StoresAt l2Tx.key ∨ s.OnItsWay row
  | .includeTx _ => ∀ tx nonce, s.inHand = .holding tx → tx.nonce = some nonce → nonce.val < 2 ^ 31
  | _ => True

/-- A node that has just started, after `reset_mempool`. -/
structure IsReset (s : NodeState) : Prop where
  table : ∃ table, NoncesFit table ∧ s.table = resetMempool table
  mempool : ∃ nextPriorityId capacity, s.mempool = .new nextPriorityId capacity
  fetcher : s.fetcher = .idle
  inHand : s.inHand = .idle
  executed : s.pending = [] ∧ s.sealing = []

structure TrackInv (s : NodeState) : Prop where
  keyed : s.mempool.AllKeyed
  fit : NoncesFit s.table
  held : ∀ tx ∈ s.heldOut, ∃ l2Tx : L2Tx, tx = l2Tx.intoTransaction
  nonces : ∀ e ∈ s.executed, ∀ nonce, e.transaction.nonce = some nonce → nonce.val < 2 ^ 31
  tracked : ∀ row ∈ s.table, row.IsWaiting → s.IsTracked row ∨ s.OnItsWay row

variable {s s' : NodeState} {a : NodeAction}

theorem TrackInv.allL2 (h : TrackInv s) {number : ℕ} {executed : List TransactionExecutionResult}
    {sealing : List (ℕ × List TransactionExecutionResult)}
    (hsealing : s.sealing = (number, executed) :: sealing) : AllL2 executed := fun e he =>
  h.held e.transaction (mem_heldOut.mpr (.inl ⟨e, mem_executed_of_sealing hsealing he, rfl⟩))

theorem TrackInv.keyed_step (h : TrackInv s) (hstep : Stepped s a s') : s'.mempool.AllKeyed := by
  cases hstep with
  | getMempoolInfo hfetcher => exact h.keyed.getMempoolInfo
  | insertSynced hfetcher hrun => exact h.keyed.insert hrun
  | nextTransaction hhand hrun => exact h.keyed.nextTransaction hrun
  | noTransaction hhand hrun => exact h.keyed.nextTransaction hrun
  | rollback hhand hrun => exact h.keyed.rollback hrun
  | reinsert hhand hrun => exact h.keyed.insert hrun
  | rejectInMempool hhand hrun => exact h.keyed.rollback hrun
  | _ => exact h.keyed

theorem TrackInv.fit_step (h : TrackInv s) (hstep : Stepped s a s') : NoncesFit s'.table := by
  have hsame (hkeys : keys s'.table = keys s.table) : NoncesFit s'.table := by
    unfold NoncesFit
    rw [hkeys]
    exact h.fit
  cases hstep with
  | @submitTx tx result table hrun =>
    rcases insertTransactionL2_cases hrun with rfl | ⟨input, -, rfl | ⟨-, rfl⟩⟩
    · exact h.fit
    · exact hsame (keys_map (key_ite fun row => key_writeTx row ..))
    · intro key hkey
      rw [keys_append_writeTx] at hkey
      rcases List.mem_append.mp hkey with hkey | hkey
      · exact h.fit key hkey
      · exact ⟨tx.key, List.mem_singleton.mp hkey⟩
  | releaseStashed hfetcher => exact hsame (keys_releaseStashed _)
  | deletePurged hfetcher =>
    exact fun key hkey => h.fit key ((List.filter_sublist.filterMap _).subset hkey)
  | selectRows hfetcher hperm hrun => exact hsame (keys_selectRows _)
  | markRejected hhand hhash => exact hsame (keys_markTxAsRejected _ _)
  | sealMiniblock hsealing hrun =>
    rw [(h.allL2 hsealing).mark_eq] at hrun
    refine hsame ?_
    rw [foldlM_markL2_eq hrun]
    exact keys_map fun row => key_foldl_markIfKey ..
  | _ => exact h.fit

theorem TrackInv.held_step (h : TrackInv s) (hstep : Stepped s a s') :
    ∀ tx ∈ s'.heldOut, ∃ l2Tx : L2Tx, tx = l2Tx.intoTransaction := by
  intro tx htx
  rcases hstep.mem_heldOut htx with htx | ⟨l2Tx, heq, -⟩
  · exact h.held tx htx
  · exact ⟨l2Tx, heq⟩

theorem TrackInv.nonces_step (h : TrackInv s) (hstep : Stepped s a s') (hkeeps : s.KeepsTrack a) :
    ∀ e ∈ s'.executed, ∀ nonce, e.transaction.nonce = some nonce → nonce.val < 2 ^ 31 := by
  intro e he
  rcases hstep.mem_executed he with hold | ⟨hhand, -, status, rfl⟩
  · exact h.nonces e hold
  · exact fun nonce hnonce => hkeeps e.transaction nonce hhand hnonce

/-- What the sequencer has taken it keeps, until it gives it back, rejects or seals it. -/
theorem Stepped.heldOut_subset (h : Stepped s a s')
    (ha : a ≠ .reinsert ∧ (∀ error, a ≠ .markRejected error) ∧ a ≠ .sealMiniblock) :
    s.heldOut ⊆ s'.heldOut := by
  intro tx htx
  cases h with
  | nextTransaction hhand hrun =>
    rw [heldOut, hhand, InHand.tx?, Option.toList_none, List.append_nil] at htx
    exact List.mem_append_left _ htx
  | noTransaction hhand hrun =>
    rw [heldOut, hhand] at htx
    exact htx
  | includeTx hhand hhash =>
    rw [heldOut, hhand, executed] at htx
    rw [heldOut, executed]
    simpa [InHand.tx?, or_assoc] using htx
  | rollback hhand hrun =>
    rw [heldOut, hhand] at htx
    exact htx
  | rejectInMempool hhand hrun =>
    rw [heldOut, hhand] at htx
    exact htx
  | submitMiniblock hhand =>
    rw [heldOut, executed] at htx ⊢
    simpa [List.flatMap_append, hhand] using htx
  | reinsert hhand hrun => exact absurd rfl ha.1
  | markRejected hhand hhash => exact absurd rfl (ha.2.1 _)
  | sealMiniblock hsealing hrun => exact absurd rfl ha.2.2
  | _ => exact htx

theorem Holds.mono {key : Address × Nonce} (h : s.Holds key) (hsubset : s.heldOut ⊆ s'.heldOut) :
    s'.Holds key := by
  obtain ⟨l2Tx, hmem, hkey⟩ := h
  exact ⟨l2Tx, hsubset hmem, hkey⟩

/-- A tracked row stays tracked while the sequencer keeps what it has and the mempool does. -/
theorem IsTracked.mono {row : TransactionRow} (h : s.IsTracked row)
    (hstored : ∀ key, s.mempool.StoresAt key → s'.mempool.StoresAt key)
    (hheld : s.heldOut ⊆ s'.heldOut) : s'.IsTracked row := by
  obtain ⟨key, hkey, hstores | hholds⟩ := h
  · exact ⟨key, hkey, .inl (hstored key hstores)⟩
  · exact ⟨key, hkey, .inr (hholds.mono hheld)⟩

/-- The account that an inserted transaction belongs to had it stored, or skipped it. -/
theorem TrackInv.tracked_insertSynced (h : TrackInv s) {transactions : List Transaction}
    {nonces : KeyedMap Address Nonce} {m : MempoolStore}
    (hfetcher : s.fetcher = .synced transactions nonces)
    (hrun : s.mempool.insert transactions nonces = .ok m) (hkeeps : s.KeepsTrack .insertSynced)
    {row : TransactionRow} (hrow : row ∈ s.table) (hwaiting : row.IsWaiting) :
    IsTracked { s with mempool := m, fetcher := .idle } row := by
  rcases h.tracked row hrow hwaiting with htracked | ⟨tx, htx, hnames⟩ | hpurged
  · exact htracked.mono (fun _ hstores => hstores.insert hrun) (List.Subset.refl _)
  · rw [hfetcher] at htx
    obtain ⟨l2Tx, rfl⟩ := insert_isL2 hrun htx
    have hkey := hnames l2Tx rfl
    rcases hkeeps transactions nonces l2Tx hfetcher htx with hle | hholds | hnone
    · exact ⟨l2Tx.key, hkey, .inl (storesAt_insert hrun htx hle)⟩
    · exact ⟨l2Tx.key, hkey, .inr hholds⟩
    · exact absurd hwaiting (hnone row hrow hkey)
  · rw [hfetcher] at hpurged
    cases hpurged

theorem tracked_reinsert {tx : Transaction} {m : MempoolStore}
    (hhand : s.inHand = .rolledBack tx) (hrun : s.mempool.insert [tx] ∅ = .ok m)
    (hkeeps : s.KeepsTrack .reinsert) {row : TransactionRow} (hrow : row ∈ s.table)
    (hwaiting : row.IsWaiting) (htracked : s.IsTracked row) :
    IsTracked { s with mempool := m, inHand := .idle } row := by
  obtain ⟨key, hkey, hstores | ⟨l2Tx, hmem, rfl⟩⟩ := htracked
  · exact ⟨key, hkey, .inl (hstores.insert hrun)⟩
  · rcases mem_heldOut.mp hmem with hexecuted | hin
    · exact ⟨_, hkey, .inr ⟨l2Tx, mem_heldOut.mpr (.inl hexecuted), rfl⟩⟩
    · rw [hhand] at hin
      obtain rfl := Option.some.inj hin
      rcases hkeeps l2Tx hhand with hle | hnone
      · exact ⟨_, hkey, .inl (storesAt_insert hrun (List.mem_singleton_self _) hle)⟩
      · exact absurd hwaiting (hnone row hrow hkey)

theorem tracked_markRejected {tx : Transaction} {hash : H256}
    {table : List TransactionRow} (hhand : s.inHand = .rejecting tx) (hhash : tx.hash = some hash)
    {error : String} (hkeeps : s.KeepsTrack (.markRejected error)) {row : TransactionRow}
    (hrow : row ∈ s.table) (hne : row.hash ≠ hash) (hwaiting : row.IsWaiting)
    (htracked : s.IsTracked row) :
    IsTracked { s with table := table, inHand := .idle } row ∨ s.OnItsWay row := by
  obtain ⟨key, hkey, hstores | ⟨l2Tx, hmem, rfl⟩⟩ := htracked
  · exact .inl ⟨key, hkey, .inl hstores⟩
  · rcases mem_heldOut.mp hmem with hexecuted | hin
    · exact .inl ⟨_, hkey, .inr ⟨l2Tx, mem_heldOut.mpr (.inl hexecuted), rfl⟩⟩
    · rw [hhand] at hin
      obtain rfl := Option.some.inj hin
      rcases hkeeps l2Tx hhand row hrow hkey hwaiting with hsame | hstores | hway
      · rw [← L2Tx.intoTransaction_hash, hhash] at hsame
        exact absurd (Option.some.inj hsame).symm hne
      · exact .inl ⟨_, hkey, .inl hstores⟩
      · exact .inr hway

theorem TrackInv.tracked_seal (h : TrackInv s) {number : ℕ}
    {executed : List TransactionExecutionResult}
    {sealing : List (ℕ × List TransactionExecutionResult)} {table : List TransactionRow}
    (hsealing : s.sealing = (number, executed) :: sealing) {row : TransactionRow}
    (hnot : ∀ e ∈ executedRows executed, hasKey e.initiatorAddress e.nonce row = false)
    (htracked : s.IsTracked row) : IsTracked { s with table := table, sealing := sealing } row := by
  obtain ⟨key, hkey, hstores | ⟨l2Tx, hmem, rfl⟩⟩ := htracked
  · exact ⟨key, hkey, .inl hstores⟩
  · refine ⟨_, hkey, .inr ⟨l2Tx, mem_heldOut.mpr ?_, rfl⟩⟩
    rcases mem_heldOut.mp hmem with ⟨e, he, heq⟩ | hin
    · left
      have hsplit : e ∈ executed ∨ e ∈ sealing.flatMap Prod.snd ++ s.pending := by
        rw [NodeState.executed, hsealing, List.flatMap_cons, List.append_assoc] at he
        exact List.mem_append.mp he
      rcases hsplit with hsealed | hrest
      · -- a sealed transaction of the row would have marked it
        obtain ⟨i, hi⟩ := List.mem_iff_getElem?.mp hsealed
        obtain ⟨executedRow, hexecutedRow⟩ :
            ∃ executedRow, TransactionsDal.executedRow i e = some executedRow := by
          unfold TransactionsDal.executedRow
          rw [heq]
          exact ⟨_, rfl⟩
        obtain ⟨haddress, hnonce, -⟩ := executedRow_l2 heq hexecutedRow
        have hfit := h.nonces e he l2Tx.nonce (by rw [heq, L2Tx.intoTransaction_nonce])
        have hfalse := hnot executedRow (mem_executedRows.mpr ⟨i, e, hi, hexecutedRow⟩)
        have htrue : hasKey l2Tx.initiatorAccount l2Tx.nonce.val row = true := hasKey_iff.mpr hkey
        rw [haddress, hnonce, asI32_of_lt hfit, htrue] at hfalse
        cases hfalse
      · exact ⟨e, hrest, heq⟩
    · exact .inr hin

theorem TrackInv.tracked_step (h : TrackInv s) (hstep : Stepped s a s') (hkeeps : s.KeepsTrack a) :
    ∀ row ∈ s'.table, row.IsWaiting → s'.IsTracked row ∨ s'.OnItsWay row := by
  intro row hrow hwaiting
  have hsubset := hstep.heldOut_subset
  cases hstep with
  | submitTx hrun =>
    exact h.tracked row (mem_of_isWaiting_insertTransactionL2 hrun hrow hwaiting) hwaiting
  | getMempoolInfo hfetcher =>
    rcases h.tracked row hrow hwaiting with ⟨key, hkey, hstores | hholds⟩ | ⟨tx, htx, -⟩ | hpurged
    · rcases hstores.getMempoolInfo with hpurged | hstores
      · obtain ⟨nonce, -, heq⟩ := Option.map_eq_some_iff.mp hkey
        have haddress : row.initiatorAddress = key.1 := congrArg Prod.fst heq
        exact .inr (.inr (haddress ▸ hpurged))
      · exact .inl ⟨key, hkey, .inl hstores⟩
    · exact .inl ⟨key, hkey, .inr hholds⟩
    · rw [hfetcher] at htx
      cases htx
    · rw [hfetcher] at hpurged
      cases hpurged
  | releaseStashed hfetcher =>
    have hold := mem_of_isWaiting_releaseStashed hrow hwaiting
    rcases h.tracked row hold hwaiting with htracked | ⟨tx, htx, -⟩ | hpurged
    · exact .inl htracked
    · rw [hfetcher] at htx
      cases htx
    · rw [hfetcher] at hpurged
      exact .inr (.inr hpurged)
  | deletePurged hfetcher =>
    obtain ⟨hold, hkept⟩ := List.mem_filter.mp hrow
    rcases h.tracked row hold hwaiting with htracked | ⟨tx, htx, -⟩ | hpurged
    · exact .inl htracked
    · rw [hfetcher] at htx
      cases htx
    · rw [hfetcher] at hpurged
      simp only [hwaiting.1, Bool.true_and, Bool.not_eq_true', List.contains_eq_mem,
        decide_eq_false_iff_not] at hkept
      exact absurd hpurged hkept
  | selectRows hfetcher hperm hrun =>
    obtain ⟨old, hold, heq⟩ := List.mem_map.mp hrow
    split_ifs at heq with hhash
    · subst heq
      obtain ⟨tx, htx, htoTx⟩ := (Seq.mem_mapM hrun).1 { old with inMempool := true }
        (List.mem_map.mpr ⟨old, List.mem_filter.mpr ⟨hold, hhash⟩, rfl⟩)
      exact .inr (.inl ⟨tx, htx, names_rowToTransaction h.fit hold htoTx⟩)
    · subst heq
      rcases h.tracked old hold hwaiting with htracked | ⟨tx, htx, -⟩ | hpurged
      · exact .inl htracked
      · rw [hfetcher] at htx
        cases htx
      · rw [hfetcher] at hpurged
        cases hpurged
  | readNonces hfetcher =>
    rcases h.tracked row hrow hwaiting with htracked | ⟨tx, htx, hnames⟩ | hpurged
    · exact .inl htracked
    · rw [hfetcher] at htx
      exact .inr (.inl ⟨tx, htx, hnames⟩)
    · rw [hfetcher] at hpurged
      cases hpurged
  | insertSynced hfetcher hrun =>
    exact .inl (h.tracked_insertSynced hfetcher hrun hkeeps hrow hwaiting)
  | @nextTransaction tx m hhand hrun =>
    have hheld := hsubset ⟨nofun, nofun, nofun⟩
    refine (h.tracked row hrow hwaiting).imp_left ?_
    rintro ⟨key, hkey, hstores | hholds⟩
    · rcases hstores.nextTransaction h.keyed hrun with hstores | ⟨l2Tx, htx, hl2⟩
      · exact ⟨key, hkey, .inl hstores⟩
      · obtain rfl := Option.some.inj htx
        exact ⟨key, hkey, .inr ⟨l2Tx, mem_heldOut.mpr (.inr rfl), hl2⟩⟩
    · exact ⟨key, hkey, .inr (hholds.mono hheld)⟩
  | noTransaction hhand hrun =>
    have hheld := hsubset ⟨nofun, nofun, nofun⟩
    obtain ⟨-, rfl⟩ | ⟨_, _, _, _, _, hnone, _⟩ := nextTransaction_accounts hrun
    · exact (h.tracked row hrow hwaiting).imp_left (IsTracked.mono (s := s) · (fun _ h => h) hheld)
    · cases hnone
  | includeTx hhand hhash =>
    have hheld := hsubset ⟨nofun, nofun, nofun⟩
    exact (h.tracked row hrow hwaiting).imp_left (IsTracked.mono (s := s) · (fun _ h => h) hheld)
  | rollback hhand hrun =>
    have hheld := hsubset ⟨nofun, nofun, nofun⟩
    exact (h.tracked row hrow hwaiting).imp_left
      (IsTracked.mono (s := s) · (fun _ h => h.rollback hrun) hheld)
  | rejectInMempool hhand hrun =>
    have hheld := hsubset ⟨nofun, nofun, nofun⟩
    exact (h.tracked row hrow hwaiting).imp_left
      (IsTracked.mono (s := s) · (fun _ h => h.rollback hrun) hheld)
  | reinsert hhand hrun =>
    exact (h.tracked row hrow hwaiting).imp_left
      (tracked_reinsert hhand hrun hkeeps hrow hwaiting)
  | markRejected hhand hhash =>
    obtain ⟨hold, hne⟩ := mem_of_isWaiting_markTxAsRejected hrow hwaiting
    rcases h.tracked row hold hwaiting with htracked | hway
    · exact tracked_markRejected hhand hhash hkeeps hold hne hwaiting htracked
    · exact .inr hway
  | submitMiniblock hhand =>
    have hheld := hsubset ⟨nofun, nofun, nofun⟩
    exact (h.tracked row hrow hwaiting).imp_left (IsTracked.mono (s := s) · (fun _ h => h) hheld)
  | sealMiniblock hsealing hrun =>
    obtain ⟨hold, hnot⟩ := mem_of_isWaiting_mark (h.allL2 hsealing) hrun hrow hwaiting
    exact (h.tracked row hold hwaiting).imp_left (h.tracked_seal hsealing hnot)

theorem TrackInv.step (h : TrackInv s) (hkeeps : s.KeepsTrack a) (hrun : s.step a = some s') :
    TrackInv s' := by
  have hstep := stepped_of_step hrun
  exact ⟨h.keyed_step hstep, h.fit_step hstep, h.held_step hstep, h.nonces_step hstep hkeeps,
    h.tracked_step hstep hkeeps⟩

theorem IsReset.trackInv (h : IsReset s) : TrackInv s := by
  obtain ⟨⟨table, hfit, htable⟩, ⟨nextPriorityId, capacity, hmempool⟩, hfetcher, hhand, hpending,
    hsealing⟩ := h
  have hexecuted : s.executed = [] := by
    simp [NodeState.executed, hpending, hsealing]
  refine ⟨?_, ?_, ?_, ?_, ?_⟩
  · intro account txs htxs
    rw [hmempool] at htxs
    cases htxs
  · unfold NoncesFit
    rw [htable, keys_resetMempool]
    exact hfit
  · intro tx htx
    simp [heldOut, hexecuted, hhand, InHand.tx?] at htx
  · rw [hexecuted]
    intro e he
    cases he
  · intro row hrow hwaiting
    rw [htable] at hrow
    obtain ⟨old, -, rfl⟩ := List.mem_map.mp hrow
    cases hwaiting.1

/-- In every run whose steps keep track, whenever the fetcher is between two iterations, a pending
row in the mempool is stored there or held by the sequencer. -/
theorem reaches_isTracked (s : NodeState)
    (h : Transition.Reaches NodeState.step KeepsTrack IsReset s) (hidle : s.fetcher = .idle)
    (row : TransactionRow) (hrow : row ∈ s.table) (hwaiting : row.IsWaiting) : s.IsTracked row := by
  have hinv : TrackInv s := h.invariant TrackInv (fun _ hs => hs.trackInv)
    fun _ _ _ hs hkeeps hrun => hs.step hkeeps hrun
  rcases hinv.tracked row hrow hwaiting with htracked | ⟨tx, htx, -⟩ | hpurged
  · exact htracked
  · rw [hidle] at htx
    cases htx
  · rw [hidle] at hpurged
    cases hpurged

theorem isReset_sampleNode (capacity : ℕ) : IsReset (sampleNode capacity) where
  table := ⟨[], fun _ h => absurd h List.not_mem_nil, rfl⟩
  mempool := ⟨0, capacity, rfl⟩
  fetcher := rfl
  inHand := rfl
  executed := ⟨rfl, rfl⟩

/-- A transaction is submitted, fetched and taken by the sequencer; its row waits, and is held. -/
theorem reaches_isTracked_sample : ∃ s row,
    Transition.Reaches NodeState.step KeepsTrack IsReset s ∧ s.fetcher = .idle ∧ row ∈ s.table ∧
    row.IsWaiting ∧ s.inHand = .holding (sampleSubmitted .zero .zero 5).intoTransaction ∧
    s.IsTracked row := by
  have hsubmitted : Transition.Reaches NodeState.step KeepsTrack IsReset
      { sampleNode 10 with table := [sampleRow (sampleSubmitted .zero .zero 5)] } :=
    Transition.Reaches.next (.submitTx (sampleSubmitted .zero .zero 5))
      (.start (isReset_sampleNode 10)) trivial rfl
  have hinformed := hsubmitted.next NodeAction.getMempoolInfo (by trivial) rfl
  have hreleased := hinformed.next NodeAction.releaseStashed (by trivial) rfl
  have hdeleted := hreleased.next NodeAction.deletePurged (by trivial) rfl
  have hselected := hdeleted.next
    (NodeAction.selectRows [sampleRow (sampleSubmitted .zero .zero 5)] 10) (by trivial) rfl
  have hsynced := hselected.next (NodeAction.readNonces ∅) (by trivial) rfl
  have hfetched := hsynced.next NodeAction.insertSynced (by
    rintro transactions nonces l2Tx ⟨⟩ -
    left
    exact Nat.zero_le _) rfl
  have hheld := hfetched.next NodeAction.nextTransaction (by trivial) rfl
  exact ⟨_, _, hheld, rfl, List.mem_singleton_self _, ⟨rfl, rfl, rfl⟩, rfl,
    reaches_isTracked _ hheld rfl _ (List.mem_singleton_self _) ⟨rfl, rfl, rfl⟩⟩

/-- The sequencer holds a transaction; a replacement arrives and is fetched, which the mempool
skips; then the transaction is rejected under its old hash. -/
def sampleReplaced : List NodeAction :=
  sampleFetch [sampleSubmitted .zero .zero 5] ++ [.nextTransaction] ++
    sampleFetch [sampleSubmitted .zero sampleAddress 9] ++
    [.rejectInMempool, .markRejected "out of gas"]

/-- The row of the replacement waits for ever. -/
theorem reaches_isTracked_counterexample : ∃ s row,
    Transition.Reaches NodeState.step (fun _ _ => True) IsReset s ∧ s.fetcher = .idle ∧
    row ∈ s.table ∧ row.IsWaiting ∧ ¬ s.IsTracked row := by
  obtain ⟨s, row, hreach, hidle, htable, hwaiting, hkey, haccount, hheld⟩ : ∃ s row,
      Transition.Reaches NodeState.step (fun _ _ => True) IsReset s ∧ s.fetcher = .idle ∧
      s.table = [row] ∧ row.IsWaiting ∧ row.key = some (columnKey (.zero, 0)) ∧
      s.mempool.l2TransactionsPerAccount.lookup .zero = some ⟨∅, 0⟩ ∧ s.heldOut = [] :=
    ⟨_, _, Transition.reaches_run sampleReplaced (.start (isReset_sampleNode 10))
      (fun _ _ => trivial) rfl, rfl, rfl, ⟨rfl, rfl, rfl⟩, rfl, rfl, rfl⟩
  refine ⟨s, row, hreach, hidle, htable ▸ List.mem_singleton_self row, hwaiting, ?_⟩
  rintro ⟨key, hkey', ⟨txs, tx, htxs, htx⟩ | ⟨l2Tx, hmem, -⟩⟩
  · obtain rfl : (.zero, 0) = key := columnKey_injective (Option.some.inj (hkey.symm.trans hkey'))
    rw [haccount] at htxs
    obtain rfl := Option.some.inj htxs
    cases htx
  · rw [hheld] at hmem
    cases hmem

end NodeState

end OlaOs
