import OlaOs.Dal.Storage
import OlaOs.Dal.TransactionTable
import OlaOs.Lib.Gaps
import OlaOs.Request.Admission

/-! The nonce that the API proposes for the next transaction of an account
(`dal/src/transaction_web3_dal.rs`), and the submission of transactions
(`api_server/tx_sender/mod.rs`). -/
namespace OlaOs

open TransactionsDal

namespace TransactionsWeb3Dal

/-- `miniblock_number IS NOT NULL OR error IS NULL`, and not a priority operation. -/
def nonRejected (row : TransactionRow) : Bool :=
  row.isPriority = false && (row.miniblockNumber.isSome || row.error.isNone)

/-- The nonces of the query of `next_nonce_by_initiator_account`. -/
def nonRejectedNonces (table : List TransactionRow) (initiatorAddress : Address)
    (latestNonce : Nonce) : List Nonce :=
  ((table.filter fun row => row.initiatorAddress = initiatorAddress && nonRejected row &&
    row.nonce.any fun nonce => asI32 latestNonce.val ≤ nonce).mergeSort fun a b =>
      a.nonce.getD 0 ≤ b.nonce.getD 0).map fun row => asNonce (row.nonce.getD 0)

/-- The loop that looks for the first gap. -/
def pendingNonce : Nonce → List Nonce → Nonce
  | pending, [] => pending
  | pending, nonce :: nonces => if pending = nonce then pendingNonce (pending + 1) nonces
    else pending

/-- `U256::as_u32` -/
def u256AsU32 (n : U256) : Except String Nonce :=
  if n.val < 2 ^ 32 then .ok (Fin.ofNat _ n.val)
  else .error "Integer overflow when casting to u32"

/-- `next_nonce_by_initiator_account` -/
def nextNonceByInitiatorAccount (hash : List UInt8 → H256) (t : StorageTables)
    (table : List TransactionRow) (initiatorAddress : Address) : Except String Nonce :=
  match (t.miniblocks.map MiniblockRow.number).max? with
  | none => .error "Failed to get latest nonce"
  | some latestBlockNumber => do
    let latestNonce ← u256AsU32
      (t.getAddressHistoricalNonce hash initiatorAddress (latestBlockNumber % 2 ^ 32))
    return pendingNonce latestNonce (nonRejectedNonces table initiatorAddress latestNonce)

end TransactionsWeb3Dal

/-- The errors of a submission: those of the checks, and what `submit_tx` adds to them. -/
inductive SubmissionError where
  | rateLimitExceeded
  | invalid (error : SubmitTxError)
  | serverShuttingDown
  | txDuplication (hash : H256)
  deriving DecidableEq

namespace TxSender

def factoryDepsLength (execute : Execute) : ℕ := (execute.factoryDeps.map List.length).getD 0

/-- `get_expected_nonce` -/
def getExpectedNonce (hash : List UInt8 → H256) (t : StorageTables) (tx : L2Tx) :
    Except String Nonce :=
  TransactionsWeb3Dal.u256AsU32
    (t.getAddressHistoricalNonce hash tx.initiatorAccount t.getSealedMiniblockNumber)

/-- `validate_tx`, with the read of the expected nonce. -/
def validateTxAgainst (hash : List UInt8 → H256) (maxNonceAhead : Nonce) (t : StorageTables)
    (tx : L2Tx) : Except String (Except SubmitTxError Unit) :=
  if maxNewFactoryDeps < factoryDepsLength tx.execute then
    .ok (.error (.tooManyFactoryDependencies (factoryDepsLength tx.execute) maxNewFactoryDeps))
  else do
    let expectedNonce ← getExpectedNonce hash t tx
    return validateAccountNonce expectedNonce maxNonceAhead tx

/-- The second part of `submit_tx`, once a permit is acquired. -/
def insertTx (hash : List UInt8 → H256) (maxNonceAhead : Nonce) (t : StorageTables)
    (table : List TransactionRow) (tx : L2Tx) (txHash : H256) :
    Except String (Except SubmissionError L2TxSubmissionResult × List TransactionRow) := do
  let expectedNonce ← getExpectedNonce hash t tx
  match insertTransactionL2 table tx with
    | .error _ => .error "Data is mandatory"
    | .ok (.alreadyExecuted, table') => return (.error (.invalid (.nonceIsTooLow expectedNonce
        (expectedNonce + maxNonceAhead) tx.nonce)), table')
    | .ok (.duplicate, table') => return (.error (.txDuplication txHash), table')
    | .ok (result, table') => return (.ok result, table')

/-- `submit_tx` on the main node. The rate limiter and the semaphore of the virtual machines are
`limited` and `permitted`; the tables may have changed while it waited for the permit. -/
def submitTx (hash : List UInt8 → H256) (maxNonceAhead : Nonce) (limited permitted : Bool)
    (before t : StorageTables) (table : List TransactionRow) (tx : L2Tx) :
    Except String (Except SubmissionError L2TxSubmissionResult × List TransactionRow) :=
  match tx.hash with
  | none => .error "Data is mandatory"
  | some txHash =>
    if limited then .ok (.error .rateLimitExceeded, table)
    else do
      match ← validateTxAgainst hash maxNonceAhead before tx with
        | .error error => return (.error (.invalid error), table)
        | .ok () =>
          if ¬ permitted then return (.error .serverShuttingDown, table)
          else insertTx hash maxNonceAhead t table tx txHash

end TxSender

namespace TransactionsWeb3Dal

variable {table : List TransactionRow}

/-- The nonces from `latestNonce` on that a transaction of the account holds which is not
rejected. -/
def Taken (table : List TransactionRow) (initiatorAddress : Address) (n : ℕ) : Prop :=
  ∃ row ∈ table, nonRejected row ∧ row.key = some (initiatorAddress, (n : ℤ))

/-- The nonces that `u32` columns hold. -/
def NonceColumns (table : List TransactionRow) : Prop :=
  ∀ row ∈ table, ∀ nonce, row.nonce = some nonce → nonce < 2 ^ 32

theorem pendingNonce_val (nonces : List Nonce) (pending : Nonce)
    (h : (nonces.map Fin.val).Pairwise (· < ·)) (hle : ∀ nonce ∈ nonces, pending.val ≤ nonce.val) :
    (pendingNonce pending nonces).val =
      Gaps.firstGap pending.val (nonces.map Fin.val) % 2 ^ 32 := by
  induction nonces generalizing pending with
  | nil => exact (Nat.mod_eq_of_lt pending.isLt).symm
  | cons nonce nonces ih =>
    rw [List.map_cons, List.pairwise_cons] at h
    rw [pendingNonce, List.map_cons, Gaps.firstGap]
    split_ifs with heq hval hval
    · subst heq
      have hgt : ∀ n ∈ nonces, pending.val < n.val := fun n hn => h.1 _ (List.mem_map_of_mem hn)
      by_cases hlast : pending.val + 1 < 2 ^ 32
      · have hsucc : (pending + 1).val = pending.val + 1 := by
          rw [Fin.val_add]
          exact Nat.mod_eq_of_lt hlast
        rw [ih (pending + 1) h.2 fun n hn => by rw [hsucc]; exact hgt n hn, hsucc]
      · -- after the last nonce there is no other one
        have hnil : nonces = [] := by
          rw [List.eq_nil_iff_forall_not_mem]
          intro n hn
          have := hgt n hn
          have := n.isLt
          omega
        have hval' : pending.val + 1 = 2 ^ 32 := by
          have := pending.isLt
          omega
        subst hnil
        rw [pendingNonce, List.map_nil, Gaps.firstGap, Fin.val_add]
        rfl
    · exact absurd (congrArg Fin.val heq) hval
    · exact absurd (Fin.ext hval) heq
    · exact (Nat.mod_eq_of_lt pending.isLt).symm

theorem asNonce_of_le (hcolumns : NonceColumns table) {latest : Nonce} {row : TransactionRow}
    (hrow : row ∈ table) {nonce : ℤ} (hnonce : row.nonce = some nonce)
    (hle : (latest.val : ℤ) ≤ nonce) : ((asNonce nonce).val : ℤ) = nonce := by
  have hlt := hcolumns row hrow nonce hnonce
  rw [asNonce, Fin.val_ofNat]
  omega

/-- The rows of the query of `next_nonce_by_initiator_account`, by their nonces. -/
theorem mem_nonRejectedNonces (hcolumns : NonceColumns table) (initiatorAddress : Address)
    {latest : Nonce} (hlatest : latest.val < 2 ^ 31) (n : ℕ) :
    n ∈ (nonRejectedNonces table initiatorAddress latest).map Fin.val ↔
      latest.val ≤ n ∧ Taken table initiatorAddress n := by
  rw [nonRejectedNonces, asI32_of_lt hlatest]
  simp only [List.map_map, List.mem_map, List.mem_mergeSort, List.mem_filter, Function.comp_apply,
    Bool.and_eq_true, decide_eq_true_eq, Option.any_eq_true]
  constructor
  · rintro ⟨row, ⟨hrow, ⟨haddress, hrejected⟩, nonce, hnonce, hle⟩, rfl⟩
    have hcast := asNonce_of_le hcolumns hrow hnonce hle
    rw [hnonce, Option.getD_some]
    refine ⟨by omega, row, hrow, hrejected, ?_⟩
    rw [TransactionRow.key, hnonce, Option.map_some, haddress, hcast]
  · rintro ⟨hle, row, hrow, hrejected, hkey⟩
    obtain ⟨nonce, hnonce, hpair⟩ := Option.map_eq_some_iff.mp hkey
    obtain ⟨haddress, rfl⟩ := Prod.mk.inj hpair
    have hle' : (latest.val : ℤ) ≤ (n : ℤ) := by exact_mod_cast hle
    refine ⟨row, ⟨hrow, ⟨haddress, hrejected⟩, _, hnonce, hle'⟩, ?_⟩
    have hcast := asNonce_of_le hcolumns hrow hnonce hle'
    rw [hnonce, Option.getD_some]
    omega

theorem pairwise_nonRejectedNonces (hdistinct : (keys table).Nodup) (hcolumns : NonceColumns table)
    (initiatorAddress : Address) {latest : Nonce} (hlatest : latest.val < 2 ^ 31) :
    ((nonRejectedNonces table initiatorAddress latest).map Fin.val).Pairwise (· < ·) := by
  rw [nonRejectedNonces, asI32_of_lt hlatest, List.map_map, List.pairwise_map]
  set rows := table.filter fun row => row.initiatorAddress = initiatorAddress && nonRejected row &&
    row.nonce.any fun nonce => (latest.val : ℤ) ≤ nonce with hrows
  have hmem {row : TransactionRow} (hrow : row ∈ rows) : row ∈ table ∧
      row.initiatorAddress = initiatorAddress ∧
        ∃ nonce, row.nonce = some nonce ∧ (latest.val : ℤ) ≤ nonce := by
    rw [hrows] at hrow
    simp only [List.mem_filter, Bool.and_eq_true, decide_eq_true_eq, Option.any_eq_true] at hrow
    exact ⟨hrow.1, hrow.2.1.1, hrow.2.2⟩
  -- the index is unique, so the nonces of one account differ
  have hnodup : (rows.map fun row => row.nonce.getD 0).Nodup := by
    have hkeys : keys rows = (rows.map fun row => row.nonce.getD 0).map (initiatorAddress, ·) := by
      rw [List.map_map]
      refine Seq.filterMap_eq_map fun row hrow => ?_
      obtain ⟨-, haddress, nonce, hnonce, -⟩ := hmem hrow
      rw [TransactionRow.key, hnonce, Option.map_some, haddress, Function.comp_apply, hnonce,
        Option.getD_some]
    have hsub : (keys rows).Nodup := hdistinct.sublist (List.filter_sublist.filterMap _)
    rw [hkeys] at hsub
    exact hsub.of_map _
  have hsorted : (rows.mergeSort fun a b => a.nonce.getD 0 ≤ b.nonce.getD 0).Pairwise
      fun a b => decide (a.nonce.getD 0 ≤ b.nonce.getD 0) = true := by
    refine List.pairwise_mergeSort (fun a b c hab hbc => ?_) (fun a b => ?_) rows
    · simp only [decide_eq_true_eq] at *
      exact hab.trans hbc
    · simp only [Bool.or_eq_true, decide_eq_true_eq]
      exact le_total _ _
  have hdiffer : (rows.mergeSort fun a b => a.nonce.getD 0 ≤ b.nonce.getD 0).Pairwise
      fun a b => a.nonce.getD 0 ≠ b.nonce.getD 0 := by
    have hsame : ((rows.mergeSort fun a b => a.nonce.getD 0 ≤ b.nonce.getD 0).map
        fun row => row.nonce.getD 0).Nodup :=
      ((List.mergeSort_perm rows _).map _).nodup_iff.mpr hnodup
    exact List.pairwise_map.mp hsame
  refine (hsorted.and hdiffer).imp_of_mem fun {a b} ha hb hab => ?_
  obtain ⟨ha', -, nonce, hnonce, hle⟩ := hmem (List.mem_mergeSort.mp ha)
  obtain ⟨hb', -, nonce', hnonce', hle'⟩ := hmem (List.mem_mergeSort.mp hb)
  have hcast := asNonce_of_le hcolumns ha' hnonce hle
  have hcast' := asNonce_of_le hcolumns hb' hnonce' hle'
  simp only [hnonce, hnonce', Option.getD_some, decide_eq_true_eq, Function.comp_apply] at hab ⊢
  omega

theorem length_nonRejectedNonces_le (table : List TransactionRow) (initiatorAddress : Address)
    (latest : Nonce) :
    (nonRejectedNonces table initiatorAddress latest).length ≤ table.length := by
  rw [nonRejectedNonces, List.length_map, List.length_mergeSort]
  exact List.length_filter_le _ table

/-- The pending nonce is the first nonce from the latest one on that is free, up to overflow. -/
theorem pendingNonce_isLeast (hdistinct : (keys table).Nodup) (hcolumns : NonceColumns table)
    (initiatorAddress : Address) {latest : Nonce} (hlatest : latest.val < 2 ^ 31) :
    ∃ n ≤ latest.val + table.length,
      IsLeast {n | latest.val ≤ n ∧ ¬ Taken table initiatorAddress n} n ∧
      (pendingNonce latest (nonRejectedNonces table initiatorAddress latest)).val = n % 2 ^ 32 := by
  have hmem := mem_nonRejectedNonces hcolumns initiatorAddress hlatest
  have hsorted := pairwise_nonRejectedNonces hdistinct hcolumns initiatorAddress hlatest
  have hle : ∀ n ∈ (nonRejectedNonces table initiatorAddress latest).map Fin.val,
      latest.val ≤ n := fun n hn => ((hmem n).mp hn).1
  have hbound := Gaps.firstGap_le
    ((nonRejectedNonces table initiatorAddress latest).map Fin.val) latest.val
  have hlength := length_nonRejectedNonces_le table initiatorAddress latest
  rw [List.length_map] at hbound
  refine ⟨_, by omega, ?_, pendingNonce_val _ latest hsorted fun nonce hn =>
    hle _ (List.mem_map_of_mem hn)⟩
  obtain ⟨⟨hstart, hfree⟩, hleast⟩ := Gaps.isLeast_firstGap hsorted hle
  refine ⟨⟨hstart, fun htaken => hfree ((hmem _).mpr ⟨hstart, htaken⟩)⟩, fun n hn => ?_⟩
  exact hleast ⟨hn.1, fun hin => hn.2 ((hmem n).mp hin).2⟩

/-- The table and the latest nonce of an account, as the two queries of the API need them. -/
structure Nonces (hash : List UInt8 → H256) (t : StorageTables) (table : List TransactionRow)
    (initiatorAddress : Address) (latest : Nonce) : Prop where
  miniblocks : t.miniblocks ≠ []
  numbers : ∀ row ∈ t.miniblocks, row.number < 2 ^ 32
  historical : (t.getAddressHistoricalNonce hash initiatorAddress
    t.getSealedMiniblockNumber).val = latest.val
  latest_lt : latest.val < 2 ^ 31
  columns : NonceColumns table
  distinct : (keys table).Nodup

variable {hash : List UInt8 → H256} {t : StorageTables} {initiatorAddress : Address}
  {latest : Nonce}

theorem u256AsU32_eq {n : U256} {nonce : Nonce} (h : n.val = nonce.val) :
    u256AsU32 n = .ok nonce := by
  have hlt := nonce.isLt
  rw [u256AsU32, if_pos (by omega)]
  congr 1
  apply Fin.ext
  rw [Fin.val_ofNat, h]
  exact Nat.mod_eq_of_lt hlt

theorem Nonces.nextNonce (h : Nonces hash t table initiatorAddress latest)
    (hlength : table.length < 2 ^ 31) : ∃ pending : Nonce,
    nextNonceByInitiatorAccount hash t table initiatorAddress = .ok pending ∧
      IsLeast {n | latest.val ≤ n ∧ ¬ Taken table initiatorAddress n} pending.val := by
  obtain ⟨n, hle, hleast, hval⟩ := pendingNonce_isLeast h.distinct h.columns initiatorAddress
    h.latest_lt
  have hlt := h.latest_lt
  rw [Nat.mod_eq_of_lt (by omega)] at hval
  refine ⟨_, ?_, hval ▸ hleast⟩
  cases hmax : (t.miniblocks.map MiniblockRow.number).max? with
  | none => exact absurd (List.map_eq_nil_iff.mp (List.max?_eq_none_iff.mp hmax)) h.miniblocks
  | some b =>
    have hb : b < 2 ^ 32 := by
      obtain ⟨row, hrow, rfl⟩ := List.mem_map.mp (List.max?_mem hmax)
      exact h.numbers row hrow
    have hlatest := h.historical
    rw [StorageTables.getSealedMiniblockNumber, hmax, Option.getD_some] at hlatest
    rw [nextNonceByInitiatorAccount, hmax]
    dsimp only
    rw [Nat.mod_eq_of_lt hb, u256AsU32_eq hlatest]
    rfl

end TransactionsWeb3Dal

namespace TxSender

open TransactionsWeb3Dal

variable {hash : List UInt8 → H256} {t : StorageTables} {table : List TransactionRow}
  {latest maxNonceAhead : Nonce} {tx : L2Tx}

/-- A nonce in the window is accepted. -/
theorem validateTxAgainst_ok (h : Nonces hash t table tx.initiatorAccount latest)
    (hdeps : factoryDepsLength tx.execute ≤ maxNewFactoryDeps) (hlatest : latest ≤ tx.nonce)
    (hahead : tx.nonce.val ≤ latest.val + maxNonceAhead.val)
    (hfit : latest.val + maxNonceAhead.val < 2 ^ 32) :
    validateTxAgainst hash maxNonceAhead t tx = .ok (.ok ()) := by
  have hmax : (latest + maxNonceAhead).val = latest.val + maxNonceAhead.val := by
    rw [Fin.val_add]
    exact Nat.mod_eq_of_lt hfit
  have hwindow : tx.nonce ≤ latest + maxNonceAhead := by
    rw [Fin.le_def, hmax]
    exact hahead
  have hnonce : validateAccountNonce latest maxNonceAhead tx = .ok () :=
    (if_neg (not_lt.mpr hlatest)).trans (if_neg (not_not.mpr ⟨hlatest, hwindow⟩))
  rw [validateTxAgainst, if_neg (not_lt.mpr hdeps), getExpectedNonce, u256AsU32_eq h.historical]
  exact congrArg Except.ok hnonce

/-- A transaction with a nonce that no other one holds is added, or replaces a rejected one. -/
theorem insertTransactionL2_free {keyOf : KeyOf} (hinv : TableInv keyOf table)
    (hpriority : ∀ row ∈ table, row.key ≠ none → row.isPriority = false)
    (hsigned : tx.Signed keyOf) {input : InputData} (hinput : tx.commonData.input = some input)
    (hfree : ¬ Taken table tx.initiatorAccount tx.nonce.val) :
    ∃ result table', insertTransactionL2 table tx = .ok (result, table') ∧
      (result = .added ∨ result = .replaced) ∧
      (∀ row ∈ table, nonRejected row → row ∈ table') ∧
      Taken table' tx.initiatorAccount tx.nonce.val ∧ table'.length ≤ table.length + 1 := by
  have hhash : keyOf input.hash = some tx.key :=
    hsigned _ (by simp [L2Tx.hash, L2TxCommonData.hash, hinput])
  have hown {row : TransactionRow} (hrow : row ∈ table) (heq : row.hash = input.hash) :
      hasKey tx.initiatorAccount tx.nonce.val row = true := by
    rw [hasKey_iff, ← hinv.hash row hrow, heq, hhash]
    rfl
  have hrejected {row : TransactionRow} (hrow : row ∈ table)
      (hkey : hasKey tx.initiatorAccount tx.nonce.val row = true) : nonRejected row = false := by
    by_contra htrue
    exact hfree ⟨row, hrow, by simpa using htrue, hasKey_iff.mp hkey⟩
  unfold insertTransactionL2
  rw [hinput]
  dsimp only
  cases hfind : table.find? (hasKey tx.initiatorAccount tx.nonce.val) with
  | some old =>
    have hold := List.mem_of_find?_eq_some hfind
    have hkey := List.find?_some hfind
    have hnone : old.isPriority = false ∧ old.miniblockNumber = none := by
      have hfalse := hrejected hold hkey
      have hnot := hpriority old hold (by rw [hasKey_iff.mp hkey]; exact Option.some_ne_none _)
      simp only [nonRejected, hnot, decide_true, Bool.true_and, Bool.or_eq_false_iff] at hfalse
      exact ⟨hnot, by simpa using hfalse.1⟩
    have htaken : hashTaken table input.hash tx.initiatorAccount tx.nonce.val = false := by
      rw [hashTaken, List.any_eq_false]
      intro row hrow hcond
      simp only [Bool.and_eq_true, decide_eq_true_eq, Bool.not_eq_true'] at hcond
      rw [hown hrow hcond.1] at hcond
      cases hcond.2
    dsimp only
    rw [if_pos hnone, htaken, if_neg Bool.false_ne_true]
    refine ⟨_, _, rfl, .inr rfl, fun row hrow hkept => ?_, ?_, by simp⟩
    · refine List.mem_map.mpr ⟨row, hrow, if_neg fun hkey' => ?_⟩
      rw [hrejected hrow hkey'] at hkept
      cases hkept
    · refine ⟨_, List.mem_map.mpr ⟨old, hold, if_pos hkey⟩, ?_, ?_⟩
      · simp [nonRejected, writeTx, hnone.1]
      · rw [key_writeTx]
        exact hasKey_iff.mp hkey
  | none =>
    have htaken : (table.any fun row => row.hash = input.hash) = false := by
      rw [List.any_eq_false]
      intro row hrow hcond
      exact List.find?_eq_none.mp hfind row hrow (hown hrow (of_decide_eq_true hcond))
    dsimp only
    rw [htaken, if_neg Bool.false_ne_true]
    refine ⟨_, _, rfl, .inl rfl, fun row hrow _ => List.mem_append_left _ hrow, ?_, by simp⟩
    exact ⟨_, List.mem_append_right _ (List.mem_singleton_self _), rfl, rfl⟩

/-- What a submission with the proposed nonce does to the table of an account. -/
structure SubmitsNext (hash : List UInt8 → H256) (t : StorageTables) (table : List TransactionRow)
    (initiatorAddress : Address) (nonce : Nonce) (result : L2TxSubmissionResult)
    (table' : List TransactionRow) : Prop where
  result : result = .added ∨ result = .replaced
  kept : ∀ row ∈ table, nonRejected row → row ∈ table'
  taken : Taken table' initiatorAddress nonce.val
  next : ∃ nonce', nextNonceByInitiatorAccount hash t table' initiatorAddress = .ok nonce' ∧
    nonce < nonce'

theorem nonceColumns_insert (hcolumns : NonceColumns table) {result : L2TxSubmissionResult}
    {table' : List TransactionRow} (hrun : insertTransactionL2 table tx = .ok (result, table')) :
    NonceColumns table' := by
  rcases insertTransactionL2_cases hrun with rfl | ⟨input, -, rfl | ⟨-, rfl⟩⟩
  · exact hcolumns
  · intro row hrow nonce hnonce
    obtain ⟨old, hold, rfl⟩ := List.mem_map.mp hrow
    refine hcolumns old hold nonce ?_
    split_ifs at hnonce <;> exact hnonce
  · intro row hrow nonce hnonce
    rcases List.mem_append.mp hrow with hrow | hrow
    · exact hcolumns row hrow nonce hnonce
    · rw [List.mem_singleton.mp hrow] at hnonce
      have hval : ((tx.nonce.val : ℕ) : ℤ) = nonce := Option.some.inj hnonce
      have hlt := tx.nonce.isLt
      omega

/-- The nonce that the API proposes to an account is the first one from its latest nonce on that no
transaction holds, apart from rejected ones. A transaction with it is accepted when it is not too
far ahead; it takes the place of a rejected transaction only, and the API proposes a later nonce
then. -/
theorem submitTx_next (hash : List UInt8 → H256) (keyOf : KeyOf) (t : StorageTables)
    (table : List TransactionRow) (tx : L2Tx) (latest maxNonceAhead : Nonce)
    (h : Nonces hash t table tx.initiatorAccount latest) (hinv : TableInv keyOf table)
    (hpriority : ∀ row ∈ table, row.key ≠ none → row.isPriority = false)
    (hlength : table.length + 1 < 2 ^ 31) (hsigned : tx.Signed keyOf) (hhash : tx.hash ≠ none)
    (hdeps : factoryDepsLength tx.execute ≤ maxNewFactoryDeps)
    (hnext : nextNonceByInitiatorAccount hash t table tx.initiatorAccount = .ok tx.nonce)
    (hahead : tx.nonce.val ≤ latest.val + maxNonceAhead.val)
    (hfit : latest.val + maxNonceAhead.val < 2 ^ 32) :
    IsLeast {n | latest.val ≤ n ∧ ¬ Taken table tx.initiatorAccount n} tx.nonce.val ∧
      ∃ result table', submitTx hash maxNonceAhead false true t t table tx =
        .ok (.ok result, table') ∧
          SubmitsNext hash t table tx.initiatorAccount tx.nonce result table' := by
  obtain ⟨pending, hpending, hleast⟩ := h.nextNonce (by omega)
  cases hnext.symm.trans hpending
  refine ⟨hleast, ?_⟩
  obtain ⟨⟨hlatest, hfree⟩, hfirst⟩ := hleast
  obtain ⟨txHash, htxHash⟩ := Option.ne_none_iff_exists'.mp hhash
  obtain ⟨input, hinput, -⟩ := Option.map_eq_some_iff.mp htxHash
  obtain ⟨result, table', hrun, hresult, hkept, htaken, hlength'⟩ :=
    insertTransactionL2_free hinv hpriority hsigned hinput hfree
  have hvalid := validateTxAgainst_ok h hdeps hlatest hahead hfit
  have hinsert : insertTx hash maxNonceAhead t table tx txHash = .ok (.ok result, table') := by
    rw [insertTx, getExpectedNonce, u256AsU32_eq h.historical]
    change (match insertTransactionL2 table tx with | _ => _) = _
    rw [hrun]
    rcases hresult with rfl | rfl <;> rfl
  have hsubmit : submitTx hash maxNonceAhead false true t t table tx =
      .ok (.ok result, table') := by
    rw [submitTx, htxHash]
    dsimp only
    rw [if_neg Bool.false_ne_true, hvalid]
    exact hinsert
  refine ⟨result, table', hsubmit, hresult, hkept, htaken, ?_⟩
  have hnonces : Nonces hash t table' tx.initiatorAccount latest :=
    ⟨h.miniblocks, h.numbers, h.historical, h.latest_lt, nonceColumns_insert h.columns hrun,
      (hinv.insertTransactionL2 hsigned hrun).1.distinct⟩
  obtain ⟨pending', hpending', ⟨hlatest', hfree'⟩, -⟩ := hnonces.nextNonce (by omega)
  refine ⟨pending', hpending', ?_⟩
  -- all nonces up to the one that was proposed are taken now
  by_contra hle
  rw [Fin.lt_def, not_lt] at hle
  rcases Nat.eq_or_lt_of_le hle with heq | hlt
  · exact hfree' (heq ▸ htaken)
  · have hbefore : Taken table tx.initiatorAccount pending'.val := by
      by_contra hnot
      have := hfirst ⟨hlatest', hnot⟩
      omega
    obtain ⟨row, hrow, hrejected, hkey⟩ := hbefore
    exact hfree' ⟨row, hkept row hrow hrejected, hrejected, hkey⟩

def sampleSubmission (nonce : Nonce) (hash : U256) : L2Tx :=
  ⟨⟨u256ToH256 12, [], none⟩, ⟨nonce, u256ToH256 11, [], .olaRawTransaction,
    some ⟨u256ToH256 hash, []⟩⟩, 0⟩

def sampleSubmitted (nonce : Nonce) (hash : U256) : TransactionRow :=
  writeTx (emptyRow (u256ToH256 hash) (sampleSubmission nonce hash)) (u256ToH256 hash) []
    (sampleSubmission nonce hash)

/-- An executed, a rejected and a pending transaction. -/
def sampleSubmissions : List TransactionRow :=
  [{ sampleSubmitted 0 100 with miniblockNumber := some 0, indexInBlock := some 0 },
    { sampleSubmitted 1 101 with error := some "rejected" }, sampleSubmitted 2 102]

def sampleKeyOf : KeyOf := fun hash =>
  if hash = u256ToH256 100 then some (u256ToH256 11, 0)
  else if hash = u256ToH256 101 ∨ hash = u256ToH256 201 then some (u256ToH256 11, 1)
  else if hash = u256ToH256 102 then some (u256ToH256 11, 2) else none

def sampleNonceTables : StorageTables := { miniblocks := [⟨0, none⟩] }

theorem sampleNonces : Nonces (fun _ => .zero) sampleNonceTables sampleSubmissions
    (u256ToH256 11) 0 where
  miniblocks := by decide
  numbers := by decide
  historical := by
    have hnone : sampleNonceTables.historicalValue .zero 0 = none := by
      simp [StorageTables.historicalValue, StorageTables.orderedLogs, sampleNonceTables]
    change (h256ToU256 ((sampleNonceTables.historicalValue .zero 0).getD .zero)).val = 0
    rw [hnone]
    decide
  latest_lt := by decide
  columns := by
    intro row hrow nonce hnonce
    simp only [sampleSubmissions, List.mem_cons, List.not_mem_nil, or_false] at hrow
    rcases hrow with rfl | rfl | rfl <;> cases hnonce <;> decide
  distinct := by decide

/-- Nonce 1 is proposed, since its transaction was rejected. -/
theorem sample_nextNonce : nextNonceByInitiatorAccount (fun _ => .zero) sampleNonceTables
    sampleSubmissions (u256ToH256 11) = .ok 1 := by
  obtain ⟨pending, hpending, ⟨-, hfree⟩, hfirst⟩ := sampleNonces.nextNonce (by decide)
  have hone : ¬ Taken sampleSubmissions (u256ToH256 11) 1 := by
    rintro ⟨row, hrow, hrejected, hkey⟩
    simp only [sampleSubmissions, List.mem_cons, List.not_mem_nil, or_false] at hrow
    rcases hrow with rfl | rfl | rfl
    · exact absurd hkey (by decide)
    · exact absurd hrejected (by decide)
    · exact absurd hkey (by decide)
  have hzero : Taken sampleSubmissions (u256ToH256 11) 0 :=
    ⟨_, List.mem_cons_self, by decide, by decide⟩
  have hle : pending.val ≤ 1 := hfirst ⟨Nat.zero_le 1, hone⟩
  have hne : pending.val ≠ 0 := fun heq => hfree (heq ▸ hzero)
  have heq : pending = 1 := by
    apply Fin.ext
    change pending.val = 1
    omega
  rw [hpending, heq]

theorem submitTx_next_sample : ∃ result table',
    submitTx (fun _ => .zero) 10 false true sampleNonceTables sampleNonceTables sampleSubmissions
      (sampleSubmission 1 201) = .ok (.ok result, table') ∧
    SubmitsNext (fun _ => .zero) sampleNonceTables sampleSubmissions (u256ToH256 11) 1 result
      table' := by
  have hinv : TableInv sampleKeyOf sampleSubmissions := ⟨by decide, by decide, by decide⟩
  have hsigned : (sampleSubmission 1 201).Signed sampleKeyOf := by
    intro hash hhash
    cases hhash
    decide
  exact (submitTx_next (fun _ => .zero) sampleKeyOf sampleNonceTables sampleSubmissions
    (sampleSubmission 1 201) 0 10 sampleNonces hinv (by decide) (by decide) hsigned (by decide)
    (by decide) sample_nextNonce (by decide) (by decide)).2

end TxSender

end OlaOs
