import OlaOs.Dal.Events
import OlaOs.Lib.Joins

/-! The receipts that the API returns (`dal/src/transaction_web3_dal.rs`,
`dal/src/models/storage_transaction.rs`), one at a time and many at once. The eth namespace uses the
second query for both, the ola namespace the first. -/
namespace OlaOs

/-- The columns of `transactions` that a receipt reads; those from its JSON come with the address
that they parse to. -/
structure ReceiptColumns where
  hash : H256
  indexInBlock : Option ℤ
  l1BatchTxIndex : Option ℤ
  miniblockNumber : Option ℤ
  error : Option String
  initiatorAddress : Address
  transferTo : Option (Except String Address)
  executeContractAddress : Option (Except String Address)
  txFormat : Option ℤ

structure MiniblockColumns where
  number : ℤ
  hash : H256
  l1BatchNumber : Option ℤ
  timestamp : ℤ

structure ReceiptTables where
  transactions : List ReceiptColumns
  miniblocks : List MiniblockColumns
  storageLogs : List StorageLogRow
  events : List EventRow

namespace Api

/-- `api::TransactionReceipt`, without the fields that are always the same. -/
structure TransactionReceipt where
  transactionHash : H256
  transactionIndex : ℕ
  blockHash : Option H256
  blockNumber : Option ℕ
  l1BatchTxIndex : Option ℕ
  l1BatchNumber : Option ℕ
  sender : Address
  recipient : Option Address
  contractAddress : Option Address
  logs : List Log
  status : Option ℕ
  root : Option H256
  transactionType : Option ℕ

end Api

/-- `U64::from` for a signed integer. -/
def u64From (n : ℤ) : Except String ℕ :=
  if n < 0 then .error "Unsigned integer can't be created from negative value" else .ok n.toNat

def mapU64 : Option ℤ → Except String (Option ℕ)
  | none => .ok none
  | some n => (u64From n).map some

/-- The address of an optional JSON value. -/
def parseAddress : Option (Except String Address) → Except String (Option Address)
  | none => .ok none
  | some value => value.map some

namespace TransactionsWeb3Dal

def accountCodeStorageAddress : Address := u256ToH256 0x8002

/-- `FAILED_CONTRACT_DEPLOYMENT_BYTECODE_HASH` -/
def failedContractDeploymentBytecodeHash : H256 := .zero

/-- The logs of `ACCOUNT_CODE_STORAGE_ADDRESS`, by miniblock and operation. -/
def deploymentLogs (t : ReceiptTables) (p : StorageLogRow → Bool) : List StorageLogRow :=
  (t.storageLogs.filter fun row => row.address = accountCodeStorageAddress && p row).mergeSort
    StorageLogRow.precedes

def onMiniblock (row : ReceiptColumns) (miniblock : MiniblockColumns) : Bool :=
  row.miniblockNumber = some miniblock.number

/-- The events of a transaction as the logs of its receipt. -/
def receiptLogs (receipt : Api.TransactionReceipt) (logs : List Api.Log) : List Api.Log :=
  logs.map fun log =>
    { log with blockHash := receipt.blockHash, l1BatchNumber := receipt.l1BatchNumber }

/-- The receipt for a row of the query of `get_transaction_receipt`, without its logs. -/
def receiptOfRow (row : ReceiptColumns) (miniblock : Option MiniblockColumns)
    (deployment : Option StorageLogRow) : Except String Api.TransactionReceipt := do
  let status := match row.miniblockNumber, row.error with
    | _, some _ => some 0
    | some _, none => some 1
    | none, none => none
  let txType := (← mapU64 row.txFormat).getD 0
  let transactionIndex := (← mapU64 row.indexInBlock).getD 0
  let blockHash := miniblock.map MiniblockColumns.hash
  let blockNumber ← mapU64 row.miniblockNumber
  let l1BatchTxIndex ← mapU64 row.l1BatchTxIndex
  let l1BatchNumber ← mapU64 (miniblock.bind MiniblockColumns.l1BatchNumber)
  let recipient ← parseAddress (row.transferTo.or row.executeContractAddress)
  return {
    transactionHash := row.hash
    transactionIndex := transactionIndex
    blockHash := blockHash
    blockNumber := blockNumber
    l1BatchTxIndex := l1BatchTxIndex
    l1BatchNumber := l1BatchNumber
    sender := row.initiatorAddress
    recipient := recipient.or (some .zero)
    contractAddress := deployment.map StorageLogRow.key
    logs := []
    status := status
    root := blockHash
    transactionType := some txType }

/-- `get_transaction_receipt` -/
def getTransactionReceipt (t : ReceiptTables) (hash : H256) :
    Except String (Option Api.TransactionReceipt) :=
  let sl := (deploymentLogs t fun row => row.txHash = hash).getLast?.toList
  let rows := Joins.leftJoin (fun _ sl => sl.value ≠ failedContractDeploymentBytecodeHash)
    (Joins.leftJoin onMiniblock (t.transactions.filter fun row => row.hash = hash) t.miniblocks) sl
  match rows.head? with
  | none => .ok none
  | some ((row, miniblock), deployment) => do
    let receipt ← receiptOfRow row miniblock deployment
    let logs := (EventsDal.orderedEvents t.events fun row => row.txHash = hash).map EventRow.intoLog
    return some { receipt with logs := receiptLogs receipt logs }

/-- `From<StorageTransactionReceipt> for TransactionReceipt` -/
def intoReceipt (row : ReceiptColumns) (blockNumber : ℤ) (miniblock : MiniblockColumns)
    (deployment : Option StorageLogRow) : Except String Api.TransactionReceipt := do
  let status := match row.error with
    | none => 1
    | some _ => 0
  let txType := (← mapU64 row.txFormat).getD 0
  let transactionIndex := (← mapU64 row.indexInBlock).getD 0
  let blockNumber ← u64From blockNumber
  let l1BatchTxIndex ← mapU64 row.l1BatchTxIndex
  let l1BatchNumber ← mapU64 miniblock.l1BatchNumber
  let recipient ← parseAddress (row.transferTo.or row.executeContractAddress)
  return {
    transactionHash := row.hash
    transactionIndex := transactionIndex
    blockHash := some miniblock.hash
    blockNumber := some blockNumber
    l1BatchTxIndex := l1BatchTxIndex
    l1BatchNumber := l1BatchNumber
    sender := row.initiatorAddress
    recipient := recipient.or (some .zero)
    contractAddress := deployment.map StorageLogRow.key
    logs := []
    status := some status
    root := some miniblock.hash
    transactionType := some txType }

/-- `DISTINCT ON (storage_logs.tx_hash)`: the last row of each hash. -/
def distinctLogs (rows : List StorageLogRow) : List StorageLogRow :=
  (rows.map StorageLogRow.txHash).dedup.filterMap fun txHash =>
    (rows.filter fun row => row.txHash = txHash).getLast?

/-- The loop over the receipts, which takes the logs of each out of the map. -/
def attachLogs (logs : KeyedMap H256 (List Api.Log)) :
    List Api.TransactionReceipt → List Api.TransactionReceipt
  | [] => []
  | receipt :: receipts =>
    { receipt with
      logs := ((logs.lookup receipt.transactionHash).map (receiptLogs receipt)).getD receipt.logs }
    :: attachLogs (logs.erase receipt.transactionHash) receipts

/-- `get_transaction_receipts` -/
def getTransactionReceipts (t : ReceiptTables) (hashes : List H256) :
    Except String (List Api.TransactionReceipt) := do
  let sl := distinctLogs (deploymentLogs t fun row => row.txHash ∈ hashes)
  let rows := Joins.leftJoin (fun (row : ReceiptColumns × MiniblockColumns) sl =>
      sl.value ≠ failedContractDeploymentBytecodeHash && sl.txHash = row.1.hash)
    (Joins.innerJoin onMiniblock (t.transactions.filter fun row => row.hash ∈ hashes) t.miniblocks)
    sl
  let receipts ← rows.mapM fun ((row, miniblock), deployment) =>
    intoReceipt row (row.miniblockNumber.getD 0) miniblock deployment
  return attachLogs (EventsDal.getLogsByTxHashes t.events hashes) receipts

/-- The constraints of the tables: primary keys, the foreign key of `miniblock_number`, and the
numbers that `insert_storage_logs` and `save_events` give to the rows of a miniblock. -/
structure WellFormed (t : ReceiptTables) : Prop where
  hashes : (t.transactions.map ReceiptColumns.hash).Nodup
  numbers : (t.miniblocks.map MiniblockColumns.number).Nodup
  included : ∀ row ∈ t.transactions, ∀ n, row.miniblockNumber = some n →
    n ∈ t.miniblocks.map MiniblockColumns.number
  operations : (t.storageLogs.map fun row => (row.miniblockNumber, row.operationNumber)).Nodup
  events : (t.events.map fun row => (row.miniblockNumber, row.eventIndexInBlock)).Nodup

/-- The executed transactions among some hashes, in the order of the rows. -/
def executedColumns (t : ReceiptTables) (hashes : List H256) : List ReceiptColumns :=
  t.transactions.filter fun row => row.hash ∈ hashes && row.miniblockNumber.isSome

/-! Parts of one receipt -/

variable {t : ReceiptTables}

/-- The last deployment of a transaction, if it was not a failed one. -/
def deploymentOf (t : ReceiptTables) (txHash : H256) : Option StorageLogRow :=
  (deploymentLogs t fun row => row.txHash = txHash).getLast?.filter fun row =>
    row.value ≠ failedContractDeploymentBytecodeHash

def eventsOf (t : ReceiptTables) (txHash : H256) : List Api.Log :=
  (EventsDal.orderedEvents t.events fun row => row.txHash = txHash).map EventRow.intoLog

/-- The two conversions of a row agree on an executed transaction. -/
theorem receiptOfRow_eq {row : ReceiptColumns} {number : ℤ} (h : row.miniblockNumber = some number)
    (miniblock : MiniblockColumns) (deployment : Option StorageLogRow) :
    receiptOfRow row (some miniblock) deployment = intoReceipt row number miniblock deployment := by
  unfold receiptOfRow intoReceipt
  rw [h]
  cases row.error <;> cases hnumber : u64From number <;> simp [mapU64, hnumber] <;> rfl

theorem intoReceipt_ok {row : ReceiptColumns} {number : ℤ} {miniblock : MiniblockColumns}
    {deployment : Option StorageLogRow} {receipt : Api.TransactionReceipt}
    (h : intoReceipt row number miniblock deployment = .ok receipt) :
    receipt.transactionHash = row.hash ∧ receipt.logs = [] := by
  unfold intoReceipt at h
  obtain ⟨_, -, h⟩ := Seq.bind_eq_ok.mp h
  obtain ⟨_, -, h⟩ := Seq.bind_eq_ok.mp h
  obtain ⟨_, -, h⟩ := Seq.bind_eq_ok.mp h
  obtain ⟨_, -, h⟩ := Seq.bind_eq_ok.mp h
  obtain ⟨_, -, h⟩ := Seq.bind_eq_ok.mp h
  obtain ⟨_, -, h⟩ := Seq.bind_eq_ok.mp h
  cases h
  exact ⟨rfl, rfl⟩

theorem precedes_place {a b : StorageLogRow} (hab : a.precedes b) (hba : b.precedes a) :
    (a.miniblockNumber, a.operationNumber) = (b.miniblockNumber, b.operationNumber) := by
  simp only [StorageLogRow.precedes, Bool.or_eq_true, Bool.and_eq_true, decide_eq_true_eq] at *
  rw [Prod.mk.injEq]
  omega

theorem filter_deploymentLogs (h : WellFormed t) (p q : StorageLogRow → Bool) :
    (deploymentLogs t p).filter q = deploymentLogs t fun row => p row && q row := by
  unfold deploymentLogs
  rw [Joins.filter_mergeSort, List.filter_filter]
  · congr 1
    apply List.filter_congr
    intro row _
    rw [Bool.and_comm, Bool.and_assoc]
  · intro a b c hab hbc
    simp only [StorageLogRow.precedes, Bool.or_eq_true, Bool.and_eq_true,
      decide_eq_true_eq] at *
    omega
  · intro a b
    simp only [StorageLogRow.precedes, Bool.or_eq_true, Bool.and_eq_true, decide_eq_true_eq]
    omega
  · intro a ha b hb hab hba
    exact List.inj_on_of_nodup_map h.operations (List.mem_of_mem_filter ha)
      (List.mem_of_mem_filter hb) (precedes_place hab hba)

theorem eventsOf_filter (h : WellFormed t) {hashes : List H256} {txHash : H256}
    (hmem : txHash ∈ hashes) :
    (EventsDal.orderedEvents t.events fun row => row.txHash ∈ hashes).filter
      (fun row => row.txHash = txHash) =
        EventsDal.orderedEvents t.events fun row => row.txHash = txHash := by
  unfold EventsDal.orderedEvents
  rw [Joins.filter_mergeSort, List.filter_filter]
  · congr 1
    exact List.filter_congr fun row _ => EventsDal.txHash_and_mem hmem row
  · intro a b c hab hbc
    simp only [EventsDal.precedes, Bool.or_eq_true, Bool.and_eq_true, decide_eq_true_eq] at *
    omega
  · intro a b
    simp only [EventsDal.precedes, Bool.or_eq_true, Bool.and_eq_true, decide_eq_true_eq]
    omega
  · intro a ha b hb hab hba
    refine List.inj_on_of_nodup_map h.events (List.mem_of_mem_filter ha)
      (List.mem_of_mem_filter hb) ?_
    simp only [EventsDal.precedes, Bool.or_eq_true, Bool.and_eq_true, decide_eq_true_eq] at *
    rw [Prod.mk.injEq]
    omega

theorem receiptLogs_lookup (h : WellFormed t) {hashes : List H256} {txHash : H256}
    (hmem : txHash ∈ hashes) {receipt : Api.TransactionReceipt} (hlogs : receipt.logs = []) :
    (((EventsDal.getLogsByTxHashes t.events hashes).lookup txHash).map
      (receiptLogs receipt)).getD receipt.logs = receiptLogs receipt (eventsOf t txHash) := by
  rw [EventsDal.getLogsByTxHashes, EventsDal.lookup_collectLogs, eventsOf_filter h hmem, eventsOf]
  split_ifs with hnil
  · rw [hnil, hlogs]
    rfl
  · rfl

/-- The rows of one key among rows that are kept once for each key. -/
theorem filter_filterMap_nodup {κ β : Type} [DecidableEq κ] {key : β → κ} {pick : κ → Option β}
    (hpick : ∀ k b, pick k = some b → key b = k) (k : κ) (p : β → Bool) {keys : List κ}
    (h : keys.Nodup) : (keys.filterMap pick).filter (fun b => p b && key b = k) =
      if k ∈ keys then ((pick k).filter p).toList else [] := by
  induction keys with
  | nil => rfl
  | cons k' keys ih =>
    rw [List.nodup_cons] at h
    rw [List.filterMap_cons]
    by_cases hk : k' = k
    · subst hk
      have hrest := ih h.2
      rw [if_neg h.1] at hrest
      rw [if_pos List.mem_cons_self]
      cases hb : pick k' with
      | none => exact hrest
      | some b =>
        have hkey := hpick k' b hb
        cases hp : p b <;> simp [Option.filter, hkey, hp, hrest]
    · have hmem : k ∈ k' :: keys ↔ k ∈ keys := by simp [Ne.symm hk]
      rw [if_congr hmem rfl rfl, ← ih h.2]
      cases hb : pick k' with
      | none => rfl
      | some b => simp [hpick k' b hb, hk]

/-- The rows that the join takes from `sl` for a transaction. -/
theorem filter_distinctLogs (h : WellFormed t) {hashes : List H256} {txHash : H256}
    (hmem : txHash ∈ hashes) :
    (distinctLogs (deploymentLogs t fun row => row.txHash ∈ hashes)).filter (fun sl =>
      sl.value ≠ failedContractDeploymentBytecodeHash && sl.txHash = txHash) =
        (deploymentOf t txHash).toList := by
  have hsame : (deploymentLogs t fun row => row.txHash ∈ hashes).filter
      (fun row => row.txHash = txHash) = deploymentLogs t fun row => row.txHash = txHash := by
    rw [filter_deploymentLogs h]
    congr 1
    funext row
    by_cases hrow : row.txHash = txHash
    · simp [hrow, hmem]
    · simp [hrow]
  rw [distinctLogs, filter_filterMap_nodup _ txHash _ (List.nodup_dedup _), hsame, deploymentOf]
  · split_ifs with hin
    · rfl
    · -- a transaction without such a log has no row in `sl`
      have hnil : deploymentLogs t (fun row => row.txHash = txHash) = [] := by
        rw [← hsame, List.filter_eq_nil_iff]
        intro row hrow hcond
        rw [List.mem_dedup] at hin
        exact hin (of_decide_eq_true hcond ▸ List.mem_map_of_mem hrow)
      rw [hnil]
      rfl
  · intro k b hb
    have hb' := List.mem_of_getLast? hb
    exact of_decide_eq_true (List.mem_filter.mp hb').2

/-! All receipts -/

/-- The miniblock of an executed transaction. -/
theorem exists_miniblock (h : WellFormed t) {row : ReceiptColumns} (hrow : row ∈ t.transactions)
    {number : ℤ} (hnumber : row.miniblockNumber = some number) :
    ∃ miniblock, t.miniblocks.filter (onMiniblock row) = [miniblock] := by
  have hkey : onMiniblock row = fun miniblock => miniblock.number = number && true := by
    funext miniblock
    simp [onMiniblock, hnumber, eq_comm]
  obtain ⟨miniblock, hmem, heq⟩ := List.mem_map.mp (h.included row hrow number hnumber)
  rw [hkey, Joins.filter_eq_find? h.numbers]
  cases hfind : t.miniblocks.find? fun b => b.number = number && true with
  | some found => exact ⟨found, rfl⟩
  | none =>
    have hnone := List.find?_eq_none.mp hfind miniblock hmem
    simp [heq] at hnone

/-- The receipt of an executed transaction. -/
def executedReceipt (t : ReceiptTables) (row : ReceiptColumns) (number : ℤ)
    (miniblock : MiniblockColumns) : Except String Api.TransactionReceipt := do
  let receipt ← intoReceipt row number miniblock (deploymentOf t row.hash)
  return { receipt with logs := receiptLogs receipt (eventsOf t row.hash) }

theorem getTransactionReceipt_executed (h : WellFormed t) {row : ReceiptColumns}
    (hrow : row ∈ t.transactions) {number : ℤ} (hnumber : row.miniblockNumber = some number)
    {miniblock : MiniblockColumns} (hminiblock : t.miniblocks.filter (onMiniblock row) =
      [miniblock]) :
    getTransactionReceipt t row.hash =
      (executedReceipt t row number miniblock).map some := by
  have hone : (t.transactions.filter fun r => r.hash = row.hash) = [row] := by
    have hfind := Joins.filter_eq_find? h.hashes row.hash fun _ => true
    simp only [Bool.and_true] at hfind
    cases hfound : t.transactions.find? fun r => r.hash = row.hash with
    | none => exact absurd (List.find?_eq_none.mp hfound row hrow) (by simp)
    | some r =>
      rw [hfind, hfound]
      have hr : r.hash = row.hash := by simpa using List.find?_some hfound
      rw [List.inj_on_of_nodup_map h.hashes (List.mem_of_find?_eq_some hfound) hrow hr]
      rfl
  have hsl : ((deploymentLogs t fun r => r.txHash = row.hash).getLast?.toList).filter
      (fun sl => sl.value ≠ failedContractDeploymentBytecodeHash) =
        (deploymentOf t row.hash).toList := by
    unfold deploymentOf
    cases (deploymentLogs t fun r => r.txHash = row.hash).getLast? with
    | none => rfl
    | some sl => by_cases hsl : sl.value = failedContractDeploymentBytecodeHash <;>
        simp [Option.filter, hsl]
  unfold getTransactionReceipt executedReceipt
  simp only [hone, Joins.leftJoin, List.flatMap_cons, List.flatMap_nil, hminiblock, List.map_cons,
    List.map_nil, List.append_nil, hsl]
  cases hdeployment : deploymentOf t row.hash <;>
  · simp only [Option.toList_none, Option.toList_some, List.map_cons, List.map_nil,
      List.head?_cons, receiptOfRow_eq hnumber]
    cases intoReceipt row number miniblock _ <;> rfl

theorem attachLogs_eq {logs : KeyedMap H256 (List Api.Log)} {receipts : List Api.TransactionReceipt}
    (h : (receipts.map Api.TransactionReceipt.transactionHash).Nodup) :
    attachLogs logs receipts = receipts.map fun receipt => { receipt with
      logs := ((logs.lookup receipt.transactionHash).map (receiptLogs receipt)).getD
        receipt.logs } := by
  induction receipts generalizing logs with
  | nil => rfl
  | cons receipt receipts ih =>
    rw [List.map_cons, List.nodup_cons] at h
    rw [attachLogs, List.map_cons, ih h.2]
    congr 1
    apply List.map_congr_left
    intro r hr
    have hne : r.transactionHash ≠ receipt.transactionHash := fun heq =>
      h.1 (heq ▸ List.mem_map_of_mem hr)
    rw [KeyedMap.lookup_erase_eq, if_neg hne]

/-- The rows of the query of `get_transaction_receipts` for some rows of `transactions`. -/
def joinedRows (t : ReceiptTables) (rows : List ReceiptColumns) (sl : List StorageLogRow) :
    List ((ReceiptColumns × MiniblockColumns) × Option StorageLogRow) :=
  Joins.leftJoin (fun (row : ReceiptColumns × MiniblockColumns) sl =>
      sl.value ≠ failedContractDeploymentBytecodeHash && sl.txHash = row.1.hash)
    (Joins.innerJoin onMiniblock rows t.miniblocks) sl

theorem joinedRows_cons_pending {row : ReceiptColumns} (hrow : row.miniblockNumber = none)
    (rows : List ReceiptColumns) (sl : List StorageLogRow) :
    joinedRows t (row :: rows) sl = joinedRows t rows sl := by
  have hnone : t.miniblocks.filter (onMiniblock row) = [] := by
    rw [List.filter_eq_nil_iff]
    intro miniblock _
    simp [onMiniblock, hrow]
  simp [joinedRows, Joins.innerJoin, hnone]

theorem joinedRows_cons_executed {row : ReceiptColumns} {miniblock : MiniblockColumns}
    (hminiblock : t.miniblocks.filter (onMiniblock row) = [miniblock]) {sl : List StorageLogRow}
    (hsl : sl.filter (fun sl => sl.value ≠ failedContractDeploymentBytecodeHash &&
      sl.txHash = row.hash) = (deploymentOf t row.hash).toList) (rows : List ReceiptColumns) :
    joinedRows t (row :: rows) sl =
      ((row, miniblock), deploymentOf t row.hash) :: joinedRows t rows sl := by
  simp only [joinedRows, Joins.innerJoin, Joins.leftJoin, List.flatMap_cons, hminiblock,
    List.map_cons, List.map_nil, List.cons_append, List.nil_append, hsl]
  cases deploymentOf t row.hash <;> rfl

def convert (entry : (ReceiptColumns × MiniblockColumns) × Option StorageLogRow) :
    Except String Api.TransactionReceipt :=
  intoReceipt entry.1.1 (entry.1.1.miniblockNumber.getD 0) entry.1.2 entry.2

def withLogs (t : ReceiptTables) (receipt : Api.TransactionReceipt) : Api.TransactionReceipt :=
  { receipt with logs := receiptLogs receipt (eventsOf t receipt.transactionHash) }

/-- The receipts of the joined rows are those that are queried one by one. -/
theorem mapM_joinedRows (h : WellFormed t) {hashes : List H256} {rows : List ReceiptColumns}
    (hrows : ∀ row ∈ rows, row ∈ t.transactions ∧ row.hash ∈ hashes) :
    ((joinedRows t rows
        (distinctLogs (deploymentLogs t fun row => row.txHash ∈ hashes))).mapM convert).map
          (List.map fun receipt => some (withLogs t receipt)) =
      (rows.filter fun row => row.miniblockNumber.isSome).mapM fun row =>
        getTransactionReceipt t row.hash := by
  induction rows with
  | nil => rfl
  | cons row rows ih =>
    have ih := ih fun r hr => hrows r (List.mem_cons_of_mem row hr)
    obtain ⟨hrow, hmem⟩ := hrows row List.mem_cons_self
    cases hnumber : row.miniblockNumber with
    | none => rw [joinedRows_cons_pending hnumber, ih, List.filter_cons_of_neg (by simp [hnumber])]
    | some number =>
      obtain ⟨miniblock, hminiblock⟩ := exists_miniblock h hrow hnumber
      rw [joinedRows_cons_executed hminiblock (filter_distinctLogs h hmem),
        List.filter_cons_of_pos (by simp [hnumber]), List.mapM_cons, List.mapM_cons,
        getTransactionReceipt_executed h hrow hnumber hminiblock, executedReceipt, ← ih, convert,
        hnumber, Option.getD_some]
      cases hreceipt : intoReceipt row number miniblock (deploymentOf t row.hash) with
      | error e => rfl
      | ok receipt =>
        have hhash := (intoReceipt_ok hreceipt).1
        cases (joinedRows t rows
          (distinctLogs (deploymentLogs t fun row => row.txHash ∈ hashes))).mapM convert with
        | error e => rfl
        | ok receipts =>
          change Except.ok (some (withLogs t receipt) :: _) = Except.ok (some _ :: _)
          rw [withLogs, hhash]

/-- The keys of the rows that the joins keep. -/
theorem hashes_joinedRows (h : WellFormed t) {hashes : List H256} {rows : List ReceiptColumns}
    (hrows : ∀ row ∈ rows, row ∈ t.transactions ∧ row.hash ∈ hashes) :
    (joinedRows t rows (distinctLogs (deploymentLogs t fun row => row.txHash ∈ hashes))).map
      (fun entry => entry.1.1.hash) =
        (rows.filter fun row => row.miniblockNumber.isSome).map ReceiptColumns.hash := by
  induction rows with
  | nil => rfl
  | cons row rows ih =>
    have ih := ih fun r hr => hrows r (List.mem_cons_of_mem row hr)
    obtain ⟨hrow, hmem⟩ := hrows row List.mem_cons_self
    cases hnumber : row.miniblockNumber with
    | none => rw [joinedRows_cons_pending hnumber, ih, List.filter_cons_of_neg (by simp [hnumber])]
    | some number =>
      obtain ⟨miniblock, hminiblock⟩ := exists_miniblock h hrow hnumber
      rw [joinedRows_cons_executed hminiblock (filter_distinctLogs h hmem), List.map_cons, ih,
        List.filter_cons_of_pos (by simp [hnumber]), List.map_cons]

/-- The receipts that are queried at once are those of the executed transactions among the hashes,
each as it is queried alone, in the order of the rows. -/
theorem getTransactionReceipts_eq (t : ReceiptTables) (h : WellFormed t) (hashes : List H256) :
    (getTransactionReceipts t hashes).map (List.map some) =
      (executedColumns t hashes).mapM fun row => getTransactionReceipt t row.hash := by
  have hrows : ∀ row ∈ t.transactions.filter (fun row => row.hash ∈ hashes),
      row ∈ t.transactions ∧ row.hash ∈ hashes := fun row hrow =>
    ⟨List.mem_of_mem_filter hrow, of_decide_eq_true (List.mem_filter.mp hrow).2⟩
  have hexecuted : executedColumns t hashes =
      (t.transactions.filter fun row => row.hash ∈ hashes).filter fun row =>
        row.miniblockNumber.isSome := by
    rw [executedColumns, List.filter_filter]
    exact List.filter_congr fun row _ => Bool.and_comm _ _
  rw [hexecuted, ← mapM_joinedRows h hrows]
  have hkeys := hashes_joinedRows h hrows
  change ((joinedRows t (t.transactions.filter fun row => row.hash ∈ hashes)
    (distinctLogs (deploymentLogs t fun row => row.txHash ∈ hashes))).mapM convert >>=
      fun receipts => Except.ok
        (attachLogs (EventsDal.getLogsByTxHashes t.events hashes) receipts)).map (List.map some) = _
  cases hreceipts : (joinedRows t (t.transactions.filter fun row => row.hash ∈ hashes)
    (distinctLogs (deploymentLogs t fun row => row.txHash ∈ hashes))).mapM convert with
  | error e => rfl
  | ok receipts =>
    have hhashes := Seq.map_of_mapM (p := Api.TransactionReceipt.transactionHash)
      (q := fun entry => entry.1.1.hash) (fun entry receipt hr => (intoReceipt_ok hr).1) hreceipts
    rw [hkeys] at hhashes
    have hnodup : (receipts.map Api.TransactionReceipt.transactionHash).Nodup := by
      rw [hhashes]
      exact h.hashes.sublist (((List.filter_sublist).trans List.filter_sublist).map _)
    change Except.ok (List.map some (attachLogs _ receipts)) = Except.ok (List.map _ receipts)
    rw [attachLogs_eq hnodup, List.map_map]
    congr 1
    apply List.map_congr_left
    intro receipt hreceipt
    obtain ⟨entry, -, hentry⟩ := (Seq.mem_mapM hreceipts).2 receipt hreceipt
    have hmem : receipt.transactionHash ∈ hashes := by
      have hin := List.mem_map_of_mem (f := Api.TransactionReceipt.transactionHash) hreceipt
      rw [hhashes] at hin
      obtain ⟨row, hrow, heq⟩ := List.mem_map.mp hin
      rw [← heq]
      exact (hrows row (List.mem_of_mem_filter hrow)).2
    simp only [Function.comp_apply, withLogs,
      receiptLogs_lookup h hmem (intoReceipt_ok hentry).2]

/-- Three transactions: the second failed to deploy a contract after it had deployed another one,
and the third waits. -/
def sampleReceiptTables : ReceiptTables where
  transactions :=
    [⟨u256ToH256 1, some 0, some 0, some 7, none, u256ToH256 11, some (.ok (u256ToH256 12)), none,
      some 16⟩,
     ⟨u256ToH256 2, some 1, some 1, some 7, some "failed", u256ToH256 11, none, none, none⟩,
     ⟨u256ToH256 3, none, none, none, none, u256ToH256 11, none, none, none⟩]
  miniblocks := [⟨6, u256ToH256 106, some 3, 60⟩, ⟨7, u256ToH256 107, none, 70⟩]
  storageLogs :=
    [⟨u256ToH256 21, accountCodeStorageAddress, u256ToH256 31, u256ToH256 5, 0, u256ToH256 1, 7⟩,
     ⟨u256ToH256 22, accountCodeStorageAddress, u256ToH256 32, u256ToH256 5, 1, u256ToH256 2, 7⟩,
     ⟨u256ToH256 22, accountCodeStorageAddress, u256ToH256 32, .zero, 2, u256ToH256 2, 7⟩]
  events :=
    [⟨7, u256ToH256 1, 0, u256ToH256 12, 0, 0, none, none, none, none, [1], u256ToH256 11⟩,
     ⟨7, u256ToH256 2, 1, u256ToH256 12, 1, 0, none, none, none, none, [2], u256ToH256 11⟩]

theorem sampleReceiptTables_wellFormed : WellFormed sampleReceiptTables where
  hashes := by decide
  numbers := by decide
  included := by decide
  operations := by decide
  events := by decide

end TransactionsWeb3Dal

namespace EthNamespace

open TransactionsWeb3Dal

/-- `get_transaction_receipt_impl` of the eth namespace. -/
def getTransactionReceiptImpl (t : ReceiptTables) (hash : H256) :
    Except String (Option Api.TransactionReceipt) := do
  let receipts ← getTransactionReceipts t [hash]
  return receipts.head?

/-- The eth namespace returns the receipt of the ola namespace for a transaction that is executed,
and none for one that is not, for which the ola namespace returns a receipt without a block. -/
theorem getTransactionReceiptImpl_eq (t : ReceiptTables) (h : WellFormed t) (hash : H256) :
    getTransactionReceiptImpl t hash =
      if ∃ row ∈ t.transactions, row.hash = hash ∧ row.miniblockNumber.isSome then
        getTransactionReceipt t hash
      else .ok none := by
  have heq := getTransactionReceipts_eq t h [hash]
  have hhead (x : Except String (List Api.TransactionReceipt)) :
      (x >>= fun receipts => Except.ok receipts.head?) =
        (x.map (List.map some)).map fun receipts => receipts.head?.join := by
    cases x with
    | error e => rfl
    | ok receipts => cases receipts <;> rfl
  change (getTransactionReceipts t [hash] >>= fun receipts => Except.ok receipts.head?) = _
  rw [hhead, heq]
  split_ifs with hexecuted
  · obtain ⟨row, hrow, rfl, hsome⟩ := hexecuted
    have hone : executedColumns t [row.hash] = [row] := by
      have hfind := Joins.filter_eq_find? h.hashes row.hash fun row => row.miniblockNumber.isSome
      simp only [executedColumns, List.mem_singleton]
      cases hfound : t.transactions.find? fun r =>
          r.hash = row.hash && r.miniblockNumber.isSome with
      | none => exact absurd (List.find?_eq_none.mp hfound row hrow) (by simp [hsome])
      | some r =>
        rw [hfind, hfound]
        have hr : r.hash = row.hash ∧ r.miniblockNumber.isSome := by
          simpa using List.find?_some hfound
        rw [List.inj_on_of_nodup_map h.hashes (List.mem_of_find?_eq_some hfound) hrow hr.1]
        rfl
    rw [hone]
    change ((getTransactionReceipt t row.hash >>= fun receipt => Except.ok [receipt]).map
      fun receipts => receipts.head?.join) = _
    cases getTransactionReceipt t row.hash <;> rfl
  · have hnone : executedColumns t [hash] = [] := by
      rw [executedColumns, List.filter_eq_nil_iff]
      intro row hrow hcond
      simp only [List.mem_singleton, Bool.and_eq_true, decide_eq_true_eq] at hcond
      exact hexecuted ⟨row, hrow, hcond⟩
    rw [hnone]
    rfl

/-- The failed deployment and the waiting transaction of the sample. -/
theorem getTransactionReceiptImpl_eq_sample :
    getTransactionReceiptImpl sampleReceiptTables (u256ToH256 2) =
        getTransactionReceipt sampleReceiptTables (u256ToH256 2) ∧
      getTransactionReceiptImpl sampleReceiptTables (u256ToH256 3) = .ok none := by
  constructor
  · have heq := getTransactionReceiptImpl_eq _ sampleReceiptTables_wellFormed (u256ToH256 2)
    rwa [if_pos (by decide)] at heq
  · have heq := getTransactionReceiptImpl_eq _ sampleReceiptTables_wellFormed (u256ToH256 3)
    rwa [if_neg (by decide)] at heq

end EthNamespace

end OlaOs
