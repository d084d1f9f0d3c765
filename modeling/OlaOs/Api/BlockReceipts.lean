import OlaOs.Api.Receipts

/-! The receipts of a block (`api_server/web3/namespaces/eth.rs`), by the queries of a block and
those of the receipts of its transactions (`dal/src/blocks_web3_dal.rs`,
`dal/src/models/storage_block.rs`). -/
namespace OlaOs

namespace Api

inductive BlockNumber where
  | committed
  | latest
  | earliest
  | pending
  | number (n : ℕ)
  deriving DecidableEq

inductive BlockId where
  | hash (h : H256)
  | number (n : BlockNumber)
  deriving DecidableEq

/-- `api::Block`, without the fields that keep their default; the transactions are hashes. -/
structure Block where
  hash : H256
  parentHash : H256
  number : ℕ
  l1BatchNumber : Option ℕ
  timestamp : ℕ
  l1BatchTimestamp : Option ℕ
  transactions : List H256

end Api

/-- `BlockStartInfo`; its first batch is not used here. -/
structure BlockStartInfo where
  firstMiniblock : ℕ

namespace BlockStartInfo

/-- `ensure_not_pruned_block`; the error is the first block that is there. -/
def ensureNotPrunedBlock (info : BlockStartInfo) : Api.BlockId → Except ℕ Unit
  | .number (.number number) =>
    if number < info.firstMiniblock then .error info.firstMiniblock else .ok ()
  | .number .earliest => if 0 < info.firstMiniblock then .error info.firstMiniblock else .ok ()
  | _ => .ok ()

end BlockStartInfo

/-- A row of `l1_batches`, as the query of a block reads it. -/
structure L1BatchColumns where
  number : ℤ
  timestamp : ℤ

structure BlockTables extends ReceiptTables where
  l1Batches : List L1BatchColumns

namespace BlocksWeb3Dal

open TransactionsWeb3Dal

/-- `web3_block_number_to_sql`; the number of an explicit block is its parameter. -/
def web3BlockNumberToSql (t : BlockTables) : Api.BlockNumber → Option ℤ
  | .number number => some (asI64 number)
  | .earliest => some 0
  | .pending => (t.miniblocks.map MiniblockColumns.number).max?.map (· + 1)
  | .latest => (t.miniblocks.map MiniblockColumns.number).max?
  | .committed => (t.miniblocks.map MiniblockColumns.number).max?

/-- `web3_block_where_sql` -/
def web3BlockWhereSql (t : BlockTables) : Api.BlockId → MiniblockColumns → Bool
  | .hash hash => fun miniblock => miniblock.hash = hash
  | .number number => fun miniblock => some miniblock.number = web3BlockNumberToSql t number

/-- A row of the query of `get_block_by_web3_block_id`. -/
structure BlockQueryRow where
  miniblock : MiniblockColumns
  prevMiniblock : Option MiniblockColumns
  l1Batch : Option L1BatchColumns
  transaction : Option ReceiptColumns

/-- `ORDER BY transactions.index_in_block ASC`; nulls come last. -/
def indexPrecedes (a b : BlockQueryRow) : Bool :=
  match a.transaction.bind ReceiptColumns.indexInBlock,
    b.transaction.bind ReceiptColumns.indexInBlock with
  | some i, some j => i ≤ j
  | _, none => true
  | none, some _ => false

def blockQuery (t : BlockTables) (blockId : Api.BlockId) : List BlockQueryRow :=
  let miniblocks := t.miniblocks.filter (web3BlockWhereSql t blockId)
  let withPrev := Joins.leftJoin (fun miniblock prev => prev.number = miniblock.number - 1)
    miniblocks t.miniblocks
  let withBatch := Joins.leftJoin (fun row batch => some batch.number = row.1.l1BatchNumber)
    withPrev t.l1Batches
  let withTx := Joins.leftJoin (fun row tx => tx.miniblockNumber = some row.1.1.number)
    withBatch t.transactions
  (withTx.map fun (((miniblock, prev), batch), tx) => ⟨miniblock, prev, batch, tx⟩).mergeSort
    indexPrecedes

/-- The block of the first row. -/
def blockOfRow (row : BlockQueryRow) : Except String Api.Block := do
  let number ← u64From row.miniblock.number
  let l1BatchNumber ← mapU64 row.miniblock.l1BatchNumber
  let l1BatchTimestamp ← mapU64 (row.l1Batch.map L1BatchColumns.timestamp)
  let timestamp ← u64From row.miniblock.timestamp
  return {
    hash := row.miniblock.hash
    parentHash := (row.prevMiniblock.map MiniblockColumns.hash).getD .zero
    number := number
    l1BatchNumber := l1BatchNumber
    timestamp := timestamp
    l1BatchTimestamp := l1BatchTimestamp
    transactions := [] }

/-- Only the first row makes the block; of the others only the transaction is used. -/
def addRow (prevBlock : Option Api.Block) (row : BlockQueryRow) :
    Except String (Option Api.Block) := do
  let block ← match prevBlock with
    | some block => .ok block
    | none => blockOfRow row
  match row.transaction with
    | some tx => return some { block with transactions := block.transactions ++ [tx.hash] }
    | none => return some block

/-- `get_block_by_web3_block_id`, with the hashes of the transactions. -/
def getBlockByWeb3BlockId (t : BlockTables) (blockId : Api.BlockId) :
    Except String (Option Api.Block) :=
  (blockQuery t blockId).foldlM addRow none

end BlocksWeb3Dal

namespace EthNamespace

open TransactionsWeb3Dal BlocksWeb3Dal

/-- `get_block_receipts_impl`. The sort by the index of the transaction is not stable. -/
def getBlockReceiptsImpl (info : BlockStartInfo) (t : BlockTables) (blockId : Api.BlockId) :
    Except String (List Api.TransactionReceipt) :=
  match info.ensureNotPrunedBlock blockId with
  | .error firstBlock =>
    .error ("Block with such an ID is pruned; the first retained block is " ++ toString firstBlock)
  | .ok () => do
    let block ← getBlockByWeb3BlockId t blockId
    let hashes := (block.map Api.Block.transactions).getD []
    let receipts ← getTransactionReceipts t.toReceiptTables hashes
    return receipts.mergeSort fun a b => a.transactionIndex ≤ b.transactionIndex

end EthNamespace

namespace BlocksWeb3Dal

open TransactionsWeb3Dal

/-- What the sequencer writes to the blocks and to its executed transactions. -/
structure WellFormed (t : BlockTables) : Prop extends
    TransactionsWeb3Dal.WellFormed t.toReceiptTables where
  batchNumbers : (t.l1Batches.map L1BatchColumns.number).Nodup
  blockHashes : (t.miniblocks.map MiniblockColumns.hash).Nodup
  miniblock_nonneg : ∀ miniblock ∈ t.miniblocks, 0 ≤ miniblock.number ∧ 0 ≤ miniblock.timestamp ∧
    ∀ n, miniblock.l1BatchNumber = some n → 0 ≤ n
  batch_nonneg : ∀ batch ∈ t.l1Batches, 0 ≤ batch.timestamp
  index : ∀ row ∈ t.transactions, row.miniblockNumber.isSome →
    ∃ i : ℕ, row.indexInBlock = some (i : ℤ)
  indices : ∀ row ∈ t.transactions, ∀ row' ∈ t.transactions, row.miniblockNumber.isSome →
    row.miniblockNumber = row'.miniblockNumber → row.indexInBlock = row'.indexInBlock → row = row'

/-- The transactions of the block that an id selects, in their order. -/
def blockTransactions (t : BlockTables) (blockId : Api.BlockId) : List ReceiptColumns :=
  match t.miniblocks.find? (web3BlockWhereSql t blockId) with
  | none => []
  | some miniblock => (t.transactions.filter fun row =>
      row.miniblockNumber = some miniblock.number).mergeSort fun a b =>
        a.indexInBlock.getD 0 ≤ b.indexInBlock.getD 0

variable {t : BlockTables} {blockId : Api.BlockId}

theorem filter_where (h : WellFormed t) : t.miniblocks.filter (web3BlockWhereSql t blockId) =
    (t.miniblocks.find? (web3BlockWhereSql t blockId)).toList := by
  cases blockId with
  | hash hash =>
    have hkey : web3BlockWhereSql t (.hash hash) = fun m => m.hash = hash && true := by
      funext m
      simp [web3BlockWhereSql]
    rw [hkey]
    exact Joins.filter_eq_find? h.blockHashes hash _
  | number number =>
    cases hnumber : web3BlockNumberToSql t number with
    | none =>
      have hfalse : web3BlockWhereSql t (.number number) = fun _ => false := by
        funext m
        simp [web3BlockWhereSql, hnumber]
      simp [hfalse]
    | some k =>
      have hkey : web3BlockWhereSql t (.number number) = fun m => m.number = k && true := by
        funext m
        simp [web3BlockWhereSql, hnumber]
      rw [hkey]
      exact Joins.filter_eq_find? h.numbers k _

/-- The executed transactions of a miniblock, in their order. -/
def orderedTransactions (t : BlockTables) (number : ℤ) : List ReceiptColumns :=
  (t.transactions.filter fun row => row.miniblockNumber = some number).mergeSort fun a b =>
    a.indexInBlock.getD 0 ≤ b.indexInBlock.getD 0

theorem blockTransactions_eq : blockTransactions t blockId =
    match t.miniblocks.find? (web3BlockWhereSql t blockId) with
    | none => []
    | some miniblock => orderedTransactions t miniblock.number := rfl

/-- The rows of the query of a block: one for each transaction, or one without any. -/
theorem blockQuery_some (h : WellFormed t) {miniblock : MiniblockColumns}
    (hfind : t.miniblocks.find? (web3BlockWhereSql t blockId) = some miniblock) :
    ∃ prev batch, (∀ b, batch = some b → b ∈ t.l1Batches) ∧ blockQuery t blockId =
      if orderedTransactions t miniblock.number = [] then [⟨miniblock, prev, batch, none⟩]
      else (orderedTransactions t miniblock.number).map fun tx =>
        ⟨miniblock, prev, batch, some tx⟩ := by
  have hprev : Joins.Unique (fun (m prev : MiniblockColumns) => prev.number = m.number - 1)
      [miniblock] t.miniblocks := by
    intro m _
    have hfilter := Joins.filter_eq_find? h.numbers (m.number - 1) fun _ => true
    simpa only [Bool.and_true] using hfilter
  obtain ⟨prev, hprev⟩ : ∃ prev, Joins.leftJoin
      (fun (m prev : MiniblockColumns) => prev.number = m.number - 1) [miniblock] t.miniblocks =
        [(miniblock, prev)] := ⟨_, Joins.leftJoin_of_unique hprev⟩
  have hbatch : Joins.Unique (fun (row : MiniblockColumns × Option MiniblockColumns)
      (batch : L1BatchColumns) => some batch.number = row.1.l1BatchNumber)
      [(miniblock, prev)] t.l1Batches := by
    intro row _
    dsimp only
    cases row.1.l1BatchNumber with
    | none => simp
    | some n =>
      have hfilter := Joins.filter_eq_find? h.batchNumbers n fun _ => true
      simpa only [Bool.and_true, Option.some_inj] using hfilter
  refine ⟨prev, t.l1Batches.find? fun batch => some batch.number = miniblock.l1BatchNumber,
    fun b hb => List.mem_of_find?_eq_some hb, ?_⟩
  have hbatch := Joins.leftJoin_of_unique hbatch
  unfold blockQuery
  dsimp only
  rw [filter_where h, hfind, Option.toList_some, hprev, hbatch, List.map_singleton, Joins.leftJoin,
    List.flatMap_singleton]
  cases hrows : t.transactions.filter fun row => row.miniblockNumber = some miniblock.number with
  | nil =>
    rw [if_pos (by simp [orderedTransactions, hrows])]
    simp
  | cons first rest =>
    have hne : orderedTransactions t miniblock.number ≠ [] := by
      intro hnil
      have hlength := congrArg List.length hnil
      simp [orderedTransactions, hrows] at hlength
    rw [if_neg hne, orderedTransactions, hrows]
    dsimp only
    rw [List.map_map]
    symm
    apply List.map_mergeSort
    intro a ha b hb
    rw [← hrows] at ha hb
    have hindex {row : ReceiptColumns} (hrow : row ∈ t.transactions.filter fun row =>
        row.miniblockNumber = some miniblock.number) :
        ∃ i : ℕ, row.indexInBlock = some (i : ℤ) := by
      obtain ⟨hmem, hnumber⟩ := List.mem_filter.mp hrow
      exact h.index row hmem (by simp [of_decide_eq_true hnumber])
    obtain ⟨i, hi⟩ := hindex ha
    obtain ⟨j, hj⟩ := hindex hb
    simp [indexPrecedes, hi, hj]

theorem u64From_nonneg {n : ℤ} (h : 0 ≤ n) : u64From n = .ok n.toNat := if_neg (by omega)

theorem mapU64_nonneg {n : Option ℤ} (h : ∀ k, n = some k → 0 ≤ k) :
    mapU64 n = .ok (n.map Int.toNat) := by
  cases n with
  | none => rfl
  | some k => rw [mapU64, u64From_nonneg (h k rfl)]; rfl

theorem blockOfRow_ok (h : WellFormed t) (row : BlockQueryRow) (hrow : row.miniblock ∈ t.miniblocks)
    (hbatch : ∀ b, row.l1Batch = some b → b ∈ t.l1Batches) :
    ∃ block, blockOfRow row = .ok block ∧ block.transactions = [] := by
  obtain ⟨hnumber, htimestamp, hl1⟩ := h.miniblock_nonneg row.miniblock hrow
  have htime : ∀ k, row.l1Batch.map L1BatchColumns.timestamp = some k → 0 ≤ k := by
    intro k hk
    obtain ⟨b, hb, rfl⟩ := Option.map_eq_some_iff.mp hk
    exact h.batch_nonneg b (hbatch b hb)
  unfold blockOfRow
  rw [u64From_nonneg hnumber, mapU64_nonneg hl1, mapU64_nonneg htime, u64From_nonneg htimestamp]
  exact ⟨_, rfl, rfl⟩

/-- The transactions of a block are collected in the order of the rows. -/
theorem foldlM_transactions (block : Api.Block) (miniblock : MiniblockColumns)
    (prev : Option MiniblockColumns) (batch : Option L1BatchColumns) (txs : List ReceiptColumns) :
    (txs.map fun tx => (⟨miniblock, prev, batch, some tx⟩ : BlockQueryRow)).foldlM addRow
      (some block) =
      Except.ok (some { block with
        transactions := block.transactions ++ txs.map ReceiptColumns.hash }) := by
  induction txs generalizing block with
  | nil => simp; rfl
  | cons tx txs ih =>
    rw [List.map_cons, List.foldlM_cons]
    refine (ih { block with transactions := block.transactions ++ [tx.hash] }).trans ?_
    simp

theorem getBlockByWeb3BlockId_ok (h : WellFormed t) (blockId : Api.BlockId) : ∃ block,
    getBlockByWeb3BlockId t blockId = .ok block ∧
      (block.map Api.Block.transactions).getD [] =
        (blockTransactions t blockId).map ReceiptColumns.hash := by
  rw [blockTransactions_eq]
  cases hfind : t.miniblocks.find? (web3BlockWhereSql t blockId) with
  | none =>
    have hnil : blockQuery t blockId = [] := by
      simp [blockQuery, filter_where h, hfind, Joins.leftJoin]
    refine ⟨none, ?_, rfl⟩
    rw [getBlockByWeb3BlockId, hnil]
    rfl
  | some miniblock =>
    obtain ⟨prev, batch, hbatch, hquery⟩ := blockQuery_some h hfind
    have hmem := List.mem_of_find?_eq_some hfind
    rw [getBlockByWeb3BlockId, hquery]
    cases hrows : orderedTransactions t miniblock.number with
    | nil =>
      obtain ⟨block, hblock, hnil⟩ :=
        blockOfRow_ok h ⟨miniblock, prev, batch, none⟩ hmem hbatch
      refine ⟨some block, ?_, ?_⟩
      · rw [if_pos rfl, List.foldlM_cons, addRow, hblock]
        rfl
      · simp [hnil, hrows]
    | cons tx txs =>
      obtain ⟨block, hblock, hnil⟩ :=
        blockOfRow_ok h ⟨miniblock, prev, batch, some tx⟩ hmem hbatch
      have hfirst : addRow none ⟨miniblock, prev, batch, some tx⟩ =
          .ok (some { block with transactions := block.transactions ++ [tx.hash] }) := by
        rw [addRow, hblock]
        rfl
      refine ⟨some { block with transactions :=
        (block.transactions ++ [tx.hash]) ++ txs.map ReceiptColumns.hash }, ?_, ?_⟩
      · rw [if_neg (List.cons_ne_nil tx txs), List.map_cons, List.foldlM_cons, hfirst]
        exact foldlM_transactions _ miniblock prev batch txs
      · simp [hnil, hrows]

theorem executedColumns_nil (t : ReceiptTables) : executedColumns t [] = [] := by
  rw [executedColumns, List.filter_eq_nil_iff]
  intro row _
  simp

/-- The rows of the receipts of a block. -/
theorem executedColumns_orderedTransactions (h : WellFormed t) (number : ℤ) :
    executedColumns t.toReceiptTables ((orderedTransactions t number).map ReceiptColumns.hash) =
      t.transactions.filter fun row => row.miniblockNumber = some number := by
  apply List.filter_congr
  intro row hrow
  have hin : row.hash ∈ (orderedTransactions t number).map ReceiptColumns.hash ↔
      row.miniblockNumber = some number := by
    constructor
    · intro hmem
      obtain ⟨row', hrow', heq⟩ := List.mem_map.mp hmem
      obtain ⟨hmem', hnumber⟩ := List.mem_filter.mp (List.mem_mergeSort.mp hrow')
      rw [← List.inj_on_of_nodup_map h.hashes hmem' hrow heq]
      exact of_decide_eq_true hnumber
    · intro hnumber
      exact List.mem_map_of_mem (List.mem_mergeSort.mpr
        (List.mem_filter.mpr ⟨hrow, decide_eq_true hnumber⟩))
  cases hnumber : row.miniblockNumber with
  | none => simp
  | some n =>
    rw [hnumber] at hin
    simp only [hin, Option.isSome_some, Bool.and_true]

theorem transactionIndex_eq (h : WellFormed t) {row : ReceiptColumns} (hrow : row ∈ t.transactions)
    {number : ℤ} (hnumber : row.miniblockNumber = some number)
    {receipt : Option Api.TransactionReceipt}
    (hreceipt : getTransactionReceipt t.toReceiptTables row.hash = .ok receipt) :
    ((receipt.map Api.TransactionReceipt.transactionIndex).getD 0 : ℤ) =
      row.indexInBlock.getD 0 := by
  obtain ⟨miniblock, hminiblock⟩ := exists_miniblock h.toWellFormed hrow hnumber
  obtain ⟨i, hi⟩ := h.index row hrow (by simp [hnumber])
  rw [getTransactionReceipt_executed h.toWellFormed hrow hnumber hminiblock] at hreceipt
  obtain ⟨receipt, hexecuted, rfl⟩ := Seq.map_eq_ok.mp hreceipt
  obtain ⟨made, hmade, hlogs⟩ := Seq.bind_eq_ok.mp hexecuted
  cases hlogs
  unfold intoReceipt at hmade
  obtain ⟨_, -, hmade⟩ := Seq.bind_eq_ok.mp hmade
  obtain ⟨index, hindex, hmade⟩ := Seq.bind_eq_ok.mp hmade
  obtain ⟨_, -, hmade⟩ := Seq.bind_eq_ok.mp hmade
  obtain ⟨_, -, hmade⟩ := Seq.bind_eq_ok.mp hmade
  obtain ⟨_, -, hmade⟩ := Seq.bind_eq_ok.mp hmade
  obtain ⟨_, -, hmade⟩ := Seq.bind_eq_ok.mp hmade
  cases hmade
  rw [hi, mapU64, u64From_nonneg (Int.natCast_nonneg i)] at hindex
  cases hindex
  simp [hi]

/-- The receipts of the transactions of a miniblock, sorted as the API sorts them. -/
theorem receipts_orderedTransactions (h : WellFormed t) (number : ℤ)
    (receipts : List Api.TransactionReceipt) :
    ((∃ rs, getTransactionReceipts t.toReceiptTables
        ((orderedTransactions t number).map ReceiptColumns.hash) = .ok rs ∧
      receipts = rs.mergeSort fun a b => a.transactionIndex ≤ b.transactionIndex) ↔
    (orderedTransactions t number).mapM
      (fun row => getTransactionReceipt t.toReceiptTables row.hash) =
        .ok (receipts.map some)) := by
  have heq := getTransactionReceipts_eq t.toReceiptTables h.toWellFormed
    ((orderedTransactions t number).map ReceiptColumns.hash)
  rw [executedColumns_orderedTransactions h] at heq
  have hsort (rs : List Api.TransactionReceipt) :
      (rs.map some).mergeSort (fun a b =>
        (a.map Api.TransactionReceipt.transactionIndex).getD 0 ≤
          (b.map Api.TransactionReceipt.transactionIndex).getD 0) =
      (rs.mergeSort fun a b => a.transactionIndex ≤ b.transactionIndex).map some := by
    symm
    exact List.map_mergeSort fun _ _ _ _ => rfl
  have hmapM := Joins.mapM_mergeSort_ok (f := fun row : ReceiptColumns =>
      getTransactionReceipt t.toReceiptTables row.hash)
    (l := t.transactions.filter fun row => row.miniblockNumber = some number)
    (r := fun a b => a.indexInBlock.getD 0 ≤ b.indexInBlock.getD 0)
    (s := fun a b => (a.map Api.TransactionReceipt.transactionIndex).getD 0 ≤
      (b.map Api.TransactionReceipt.transactionIndex).getD 0)
    (fun a ha a' ha' b b' hb hb' => by
      obtain ⟨hmem, hnumber⟩ := List.mem_filter.mp ha
      obtain ⟨hmem', hnumber'⟩ := List.mem_filter.mp ha'
      have hkey := transactionIndex_eq h hmem (of_decide_eq_true hnumber) hb
      have hkey' := transactionIndex_eq h hmem' (of_decide_eq_true hnumber') hb'
      rw [← hkey, ← hkey', decide_eq_decide, Nat.cast_le])
    (receipts.map some)
  rw [← heq] at hmapM
  refine Iff.trans ?_ hmapM.symm
  constructor
  · rintro ⟨rs, hrs, rfl⟩
    exact ⟨rs.map some, Seq.map_eq_ok.mpr ⟨rs, hrs, rfl⟩, (hsort rs).symm⟩
  · rintro ⟨options, hoptions, hout⟩
    obtain ⟨rs, hrs, rfl⟩ := Seq.map_eq_ok.mp hoptions
    refine ⟨rs, hrs, ?_⟩
    rw [hsort] at hout
    exact List.map_injective_iff.mpr (Option.some_injective _) hout

end BlocksWeb3Dal

namespace EthNamespace

open TransactionsWeb3Dal BlocksWeb3Dal

/-- The receipts of a block that is not pruned are those of its transactions, each as it is queried
alone, in the order of the block. -/
theorem getBlockReceiptsImpl_ok (info : BlockStartInfo) (t : BlockTables)
    (h : BlocksWeb3Dal.WellFormed t) (blockId : Api.BlockId)
    (receipts : List Api.TransactionReceipt) :
    getBlockReceiptsImpl info t blockId = .ok receipts ↔
      info.ensureNotPrunedBlock blockId = .ok () ∧
        (blockTransactions t blockId).mapM
          (fun row => getTransactionReceipt t.toReceiptTables row.hash) =
            .ok (receipts.map some) := by
  obtain ⟨block, hblock, hhashes⟩ := getBlockByWeb3BlockId_ok h blockId
  unfold getBlockReceiptsImpl
  cases info.ensureNotPrunedBlock blockId with
  | error number => simp
  | ok _ =>
    simp only [hblock, true_and]
    change (getTransactionReceipts t.toReceiptTables
      ((block.map Api.Block.transactions).getD []) >>= fun rs =>
        Except.ok (rs.mergeSort fun a b => a.transactionIndex ≤ b.transactionIndex)) = _ ↔ _
    rw [hhashes, Seq.bind_eq_ok, blockTransactions_eq]
    cases hfind : t.miniblocks.find? (web3BlockWhereSql t blockId) with
    | none =>
      -- no block: no hashes, so the query of the receipts selects no row
      have hnone : getTransactionReceipts t.toReceiptTables [] = .ok [] := by
        have heq := getTransactionReceipts_eq t.toReceiptTables h.toWellFormed []
        rw [executedColumns_nil] at heq
        obtain ⟨rs, hrs, hnil⟩ := Seq.map_eq_ok.mp heq
        rw [hrs, List.map_eq_nil_iff.mp hnil]
      simp only [List.map_nil, hnone, List.mapM_nil]
      cases receipts <;> simp [pure, Except.pure]
    | some miniblock =>
      rw [← receipts_orderedTransactions h miniblock.number receipts]
      refine exists_congr fun rs => and_congr_right fun _ => ?_
      rw [Except.ok.injEq, eq_comm]

def sampleBlockTables : BlockTables where
  toReceiptTables := sampleReceiptTables
  l1Batches := [⟨3, 60⟩]

theorem sampleBlockTables_wellFormed : BlocksWeb3Dal.WellFormed sampleBlockTables where
  toWellFormed := sampleReceiptTables_wellFormed
  batchNumbers := by decide
  blockHashes := by decide
  miniblock_nonneg := by
    intro miniblock hmem
    simp only [sampleBlockTables, sampleReceiptTables, List.mem_cons, List.not_mem_nil,
      or_false] at hmem
    rcases hmem with rfl | rfl <;> refine ⟨by decide, by decide, ?_⟩
    · rintro n ⟨⟩
      decide
    · nofun
  batch_nonneg := by decide
  index := by
    intro row hrow hexecuted
    simp only [sampleBlockTables, sampleReceiptTables, List.mem_cons, List.not_mem_nil,
      or_false] at hrow
    rcases hrow with rfl | rfl | rfl
    · exact ⟨0, rfl⟩
    · exact ⟨1, rfl⟩
    · cases hexecuted
  indices := by
    intro row hrow row' hrow' hexecuted hnumber hindex
    simp only [sampleBlockTables, sampleReceiptTables, List.mem_cons, List.not_mem_nil,
      or_false] at hrow hrow'
    rcases hrow with rfl | rfl | rfl <;> rcases hrow' with rfl | rfl | rfl <;>
      simp_all

theorem sample_receipt {row : ReceiptColumns} (hrow : row ∈ sampleReceiptTables.transactions)
    (hexecuted : row.miniblockNumber = some 7) :
    ∃ receipt, getTransactionReceipt sampleReceiptTables row.hash = .ok (some receipt) := by
  have hminiblock : sampleReceiptTables.miniblocks.filter (onMiniblock row) =
      [⟨7, u256ToH256 107, none, 70⟩] := by simp [sampleReceiptTables, onMiniblock, hexecuted]
  rw [getTransactionReceipt_executed sampleReceiptTables_wellFormed hrow hexecuted hminiblock]
  simp only [sampleReceiptTables, List.mem_cons, List.not_mem_nil, or_false] at hrow
  rcases hrow with rfl | rfl | rfl
  · exact ⟨_, rfl⟩
  · exact ⟨_, rfl⟩
  · cases hexecuted

/-- The latest block of the sample. -/
theorem getBlockReceiptsImpl_ok_sample : ∃ receipts : List Api.TransactionReceipt,
    receipts.length = 2 ∧
      getBlockReceiptsImpl ⟨0⟩ sampleBlockTables (.number .latest) = .ok receipts := by
  obtain ⟨first, hfirst⟩ := sample_receipt (List.mem_cons_self) rfl
  obtain ⟨second, hsecond⟩ := sample_receipt (List.mem_cons_of_mem _ List.mem_cons_self) rfl
  have hrows : blockTransactions sampleBlockTables (.number .latest) =
      sampleReceiptTables.transactions.take 2 :=
    List.mergeSort_of_pairwise (by decide)
  refine ⟨[first, second], rfl, (getBlockReceiptsImpl_ok ⟨0⟩ sampleBlockTables
    sampleBlockTables_wellFormed (.number .latest) [first, second]).mpr ⟨rfl, ?_⟩⟩
  rw [hrows, Joins.mapM_eq_ok_iff]
  change [Except.toOption (getTransactionReceipt sampleReceiptTables _),
    Except.toOption (getTransactionReceipt sampleReceiptTables _)] = _
  rw [hfirst, hsecond]
  rfl

end EthNamespace

end OlaOs
