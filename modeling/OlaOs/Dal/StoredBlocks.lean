import OlaOs.Dal.Pending

/-! The rows of the transactions of stored miniblocks: what a restarted sequencer reads from
them. -/
namespace OlaOs

open TransactionsDal

/-- Where a row stands in its batch, and what it is read as. -/
structure Position where
  miniblockNumber : Option ℤ
  indexInBlock : Option ℤ
  transaction : Except DalPanic Transaction

def TransactionRow.position (row : TransactionRow) : Position :=
  ⟨row.miniblockNumber, row.indexInBlock, rowToTransaction row⟩

/-- The order of the rows goes by their positions alone. -/
def Position.place (position : Position) : ℤ ×ₗ Bool ×ₗ ℤ :=
  toLex (position.miniblockNumber.getD 0,
    toLex (position.indexInBlock.isNone, position.indexInBlock.getD 0))

/-- The positions of the pending rows. -/
def pendingPositions (table : List TransactionRow) : List Position :=
  (table.filter isPending).map TransactionRow.position

/-- The positions of the transactions of a miniblock. -/
def blockPositions (number : ℕ) (txs : List Transaction) : List Position :=
  txs.mapIdx fun i transaction => ⟨some (number : ℤ), some (i : ℤ), .ok transaction⟩

/-- Consecutive miniblocks with their numbers. -/
def numberedPositions (number : ℕ) : List (List Transaction) → List (ℕ × List Position)
  | [] => []
  | txs :: blocks => (number, blockPositions number txs) :: numberedPositions (number + 1) blocks

/-- The positions of the transactions of consecutive miniblocks. -/
def positions (number : ℕ) (blocks : List (List Transaction)) : List Position :=
  (numberedPositions number blocks).flatMap Prod.snd

variable {table table' : List TransactionRow} {number : ℕ} {blocks : List (List Transaction)}

theorem numberedPositions_append (number : ℕ) (blocks : List (List Transaction))
    (txs : List Transaction) : numberedPositions number (blocks ++ [txs]) =
      numberedPositions number blocks ++
        [(number + blocks.length, blockPositions (number + blocks.length) txs)] := by
  induction blocks generalizing number with
  | nil => rfl
  | cons first blocks ih =>
    rw [List.cons_append, numberedPositions, ih, List.length_cons, Nat.add_right_comm,
      Nat.add_assoc]
    rfl

theorem positions_append (number : ℕ) (blocks : List (List Transaction)) (txs : List Transaction) :
    positions number (blocks ++ [txs]) =
      positions number blocks ++ blockPositions (number + blocks.length) txs := by
  unfold positions
  rw [numberedPositions_append, List.flatMap_append]
  simp

theorem mem_blockPositions {txs : List Transaction} {position : Position} :
    position ∈ blockPositions number txs ↔
      ∃ (i : ℕ) (tx : Transaction), txs[i]? = some tx ∧
        position = ⟨some (number : ℤ), some (i : ℤ), .ok tx⟩ := by
  unfold blockPositions
  simp only [List.mem_mapIdx]
  constructor
  · rintro ⟨i, hi, rfl⟩
    exact ⟨i, txs[i], List.getElem?_eq_getElem hi, rfl⟩
  · rintro ⟨i, tx, htx, rfl⟩
    obtain ⟨hi, rfl⟩ := List.getElem?_eq_some_iff.mp htx
    exact ⟨i, hi, rfl⟩

/-- The numbers of consecutive miniblocks. -/
theorem mem_numberedPositions {entry : ℕ × List Position}
    (h : entry ∈ numberedPositions number blocks) :
    ∃ k txs, blocks[k]? = some txs ∧ entry = (number + k, blockPositions (number + k) txs) := by
  induction blocks generalizing number with
  | nil => cases h
  | cons txs blocks ih =>
    rcases List.mem_cons.mp h with rfl | h
    · exact ⟨0, txs, rfl, rfl⟩
    · obtain ⟨k, txs', htxs, rfl⟩ := ih h
      refine ⟨k + 1, txs', htxs, ?_⟩
      rw [Nat.add_assoc, Nat.add_comm 1]

theorem numberedPositions_increasing :
    (numberedPositions number blocks).Pairwise fun a b => a.1 < b.1 := by
  induction blocks generalizing number with
  | nil => exact .nil
  | cons txs blocks ih =>
    refine List.pairwise_cons.mpr ⟨fun entry hentry => ?_, ih⟩
    obtain ⟨k, txs', -, rfl⟩ := mem_numberedPositions hentry
    dsimp only
    omega

theorem numberedPositions_number {entry : ℕ × List Position}
    (h : entry ∈ numberedPositions number blocks) :
    ∀ position ∈ entry.2, position.miniblockNumber = some (entry.1 : ℤ) := by
  obtain ⟨k, txs, -, rfl⟩ := mem_numberedPositions h
  intro position hposition
  obtain ⟨i, tx, -, rfl⟩ := mem_blockPositions.mp hposition
  rfl

/-- The positions are listed in the order of the query. -/
theorem positions_increasing : (positions number blocks).Pairwise fun a b => a.place < b.place := by
  unfold positions
  rw [List.flatMap_def, List.pairwise_flatten]
  constructor
  · intro group hgroup
    obtain ⟨entry, hentry, rfl⟩ := List.mem_map.mp hgroup
    obtain ⟨k, txs, -, rfl⟩ := mem_numberedPositions hentry
    refine List.pairwise_iff_getElem.mpr fun i j hi hj hlt => ?_
    simp only [blockPositions, List.getElem_mapIdx, Position.place]
    refine Prod.Lex.toLex_lt_toLex.mpr (.inr ⟨rfl, Prod.Lex.toLex_lt_toLex.mpr (.inr ⟨rfl, ?_⟩)⟩)
    simpa using hlt
  · refine List.pairwise_map.mpr (numberedPositions_increasing.imp_of_mem ?_)
    intro entry entry' hentry hentry' hlt a ha b hb
    refine Prod.Lex.toLex_lt_toLex.mpr (.inl ?_)
    rw [numberedPositions_number hentry a ha, numberedPositions_number hentry' b hb]
    exact Int.ofNat_lt.mpr hlt

/-- The positions of one of the miniblocks. -/
theorem filter_positions {k : ℕ} {txs : List Transaction} (h : blocks[k]? = some txs) :
    (positions number blocks).filter (fun position =>
      decide (position.miniblockNumber = some ((number + k : ℕ) : ℤ))) =
        blockPositions (number + k) txs := by
  induction blocks generalizing number k with
  | nil => cases h
  | cons first blocks ih =>
    have hfirst : ∀ position ∈ blockPositions number first,
        position.miniblockNumber = some (number : ℤ) := by
      intro position hposition
      obtain ⟨i, tx, -, rfl⟩ := mem_blockPositions.mp hposition
      rfl
    have hcons : positions number (first :: blocks) =
        blockPositions number first ++ positions (number + 1) blocks := rfl
    rw [hcons, List.filter_append]
    cases k with
    | zero =>
      obtain rfl : first = txs := Option.some.inj h
      have hnone : (positions (number + 1) blocks).filter (fun position =>
          decide (position.miniblockNumber = some ((number + 0 : ℕ) : ℤ))) = [] := by
        refine List.filter_eq_nil_iff.mpr fun position hposition heq => ?_
        obtain ⟨entry, hentry, hposition⟩ := List.mem_flatMap.mp hposition
        have hentryNumber := numberedPositions_number hentry position hposition
        obtain ⟨k, txs, -, rfl⟩ := mem_numberedPositions hentry
        rw [of_decide_eq_true heq] at hentryNumber
        have hcast := Option.some.inj hentryNumber
        dsimp only at hcast
        omega
      rw [hnone, List.append_nil]
      exact List.filter_eq_self.mpr fun position hposition =>
        decide_eq_true (hfirst position hposition)
    | succ k =>
      have hnone : (blockPositions number first).filter (fun position =>
          decide (position.miniblockNumber = some ((number + (k + 1) : ℕ) : ℤ))) = [] := by
        refine List.filter_eq_nil_iff.mpr fun position hposition heq => ?_
        have hcast := Option.some.inj
          ((hfirst position hposition).symm.trans (of_decide_eq_true heq))
        omega
      rw [hnone, List.nil_append, show number + (k + 1) = number + 1 + k by omega]
      exact ih h

/-- Rows at the given positions are read in this order. -/
theorem pendingRows_position {scan : List TransactionRow}
    (h : (pendingPositions scan).Perm (positions number blocks)) :
    (pendingRows scan).map TransactionRow.position = positions number blocks := by
  have hperm : ((pendingRows scan).map TransactionRow.position).Perm (positions number blocks) :=
    (pendingRows_perm.map _).trans h
  have hsorted : ((pendingRows scan).map TransactionRow.position).Pairwise
      fun a b => a.place ≤ b.place := List.pairwise_map.mpr pendingRows_sorted
  refine hperm.eq_of_pairwise ?_ hsorted (positions_increasing.imp fun hlt => hlt.le)
  · intro a b ha hb hab hba
    by_contra hne
    have ha := hperm.mem_iff.mp ha
    rcases SortedGroups.pairwise_or positions_increasing ha hb hne with hlt | hlt
    · exact absurd hba hlt.not_ge
    · exact absurd hab hlt.not_ge

/-- The rows of a miniblock make a group. -/
theorem pendingGroups_position {scan : List TransactionRow}
    (h : (pendingPositions scan).Perm (positions number blocks))
    (hnonempty : ∀ txs ∈ blocks, txs ≠ []) :
    (pendingGroups scan).map (List.map TransactionRow.position) =
      (numberedPositions number blocks).map Prod.snd := by
  have hrows := pendingRows_position h
  have hgroups := SortedGroups.splitBy_map TransactionRow.position
    (fun a b => decide (a.miniblockNumber = b.miniblockNumber)) (pendingRows scan)
  rw [hrows] at hgroups
  refine hgroups.symm.trans ?_
  unfold positions
  -- the splitting of the library is by keys of one type
  have hkeyed : (numberedPositions number blocks).flatMap Prod.snd =
      ((numberedPositions number blocks).map fun entry =>
        ((some (entry.1 : ℤ) : Option ℤ), entry.2)).flatMap Prod.snd := by
    rw [List.flatMap_map]
  rw [hkeyed, SortedGroups.splitBy_flatMap, List.filter_eq_self.mpr, List.map_map]
  · rfl
  · intro entry hentry
    obtain ⟨entry, hmem, rfl⟩ := List.mem_map.mp hentry
    obtain ⟨k, txs, htxs, rfl⟩ := mem_numberedPositions hmem
    simpa [blockPositions] using hnonempty txs (List.mem_of_getElem? htxs)
  · refine List.pairwise_map.mpr (numberedPositions_increasing.imp fun hlt heq => ?_)
    have heq : ((_ : ℕ) : ℤ) = _ := Option.some.inj heq
    omega
  · intro entry hentry
    obtain ⟨entry, hmem, rfl⟩ := List.mem_map.mp hentry
    exact numberedPositions_number hmem

/-- What the query reads from a group of rows. -/
def readGroup (group : List Position) : Except DalPanic (ℕ × List Transaction) := do
  let txs ← group.mapM Position.transaction
  .ok (asU32 ((group.head?.bind Position.miniblockNumber).getD 0), txs)

theorem mapM_mapIdx {f : ℕ → Transaction → Position} (hf : ∀ i tx, (f i tx).transaction = .ok tx)
    (txs : List Transaction) : (txs.mapIdx f).mapM Position.transaction = .ok txs := by
  induction txs generalizing f with
  | nil => rfl
  | cons tx txs ih =>
    rw [List.mapIdx_cons, List.mapM_cons, hf, ih fun i => hf (i + 1)]
    rfl

theorem readGroup_blockPositions {txs : List Transaction} (hne : txs ≠ []) (hlt : number < 2 ^ 32) :
    readGroup (blockPositions number txs) = .ok (number, txs) := by
  have hnumber : asU32 (((blockPositions number txs).head?.bind Position.miniblockNumber).getD 0) =
      number := by
    obtain ⟨tx, rest, rfl⟩ := List.exists_cons_of_ne_nil hne
    simp only [blockPositions, List.mapIdx_cons, List.head?_cons, Option.bind_some,
      Option.getD_some, asU32]
    omega
  have hread : (blockPositions number txs).mapM Position.transaction = .ok txs :=
    mapM_mapIdx (fun _ _ => rfl) txs
  unfold readGroup
  rw [hread, hnumber]
  rfl

theorem mapM_readGroup (hnonempty : ∀ txs ∈ blocks, txs ≠ [])
    (hle : number + blocks.length ≤ 2 ^ 32) :
    ((numberedPositions number blocks).map Prod.snd).mapM readGroup =
      .ok ((List.range' number blocks.length).zip blocks) := by
  induction blocks generalizing number with
  | nil => rfl
  | cons txs blocks ih =>
    obtain ⟨hne, hnonempty⟩ := List.forall_mem_cons.mp hnonempty
    rw [List.length_cons] at hle
    rw [numberedPositions, List.map_cons, List.mapM_cons,
      readGroup_blockPositions hne (by omega), ih hnonempty (by omega)]
    rfl

/-- Numbers and timestamps of the same rows. -/
theorem zipWith_rows (rows : List MiniblockHeaderRow) (blocks : List (List Transaction)) :
    ((rows.map MiniblockHeaderRow.number).zip blocks).zipWith
        (fun group timestamp => (⟨group.1, timestamp, group.2⟩ : MiniblockReexecuteData))
        (rows.map MiniblockHeaderRow.timestamp) =
      rows.zipWith (fun row txs => ⟨row.number, row.timestamp, txs⟩) blocks := by
  induction rows generalizing blocks with
  | nil => rfl
  | cons row rows ih =>
    cases blocks with
    | nil => rfl
    | cons txs blocks =>
      rw [List.map_cons, List.map_cons, List.zip_cons_cons, List.zipWith_cons_cons, ih]
      rfl

/-- A restarted sequencer reads the stored miniblocks, each with its own timestamp and its own
transactions. -/
theorem getMiniblocksToReexecute_eq {scan : List TransactionRow} {rows : List MiniblockHeaderRow}
    (h : (pendingPositions scan).Perm (positions number blocks))
    (hnonempty : ∀ txs ∈ blocks, txs ≠ []) (hne : blocks ≠ [])
    (hnumbers : Numbered MiniblockHeaderRow.number rows)
    (hlength : number + blocks.length = rows.length) (hle : rows.length ≤ 2 ^ 32) :
    getMiniblocksToReexecute scan rows = .ok ((rows.drop number).zipWith
      (fun row txs => ⟨row.number, row.timestamp, txs⟩) blocks) := by
  have hgroups : (pendingGroups scan).mapM (fun group => do
      let txs ← group.mapM rowToTransaction
      (.ok (groupNumber group, txs) : Except DalPanic _)) =
        .ok ((List.range' number blocks.length).zip blocks) := by
    rw [← mapM_readGroup hnonempty (by omega), ← pendingGroups_position h hnonempty, List.mapM_map]
    refine Seq.mapM_congr fun group _ => ?_
    have hread : (group.map TransactionRow.position).mapM Position.transaction =
        group.mapM rowToTransaction := List.mapM_map
    show _ = readGroup (group.map TransactionRow.position)
    unfold readGroup
    rw [hread, List.head?_map]
    cases group <;> rfl
  have hrange : (rows.drop number).map MiniblockHeaderRow.number =
      List.range' number blocks.length := by
    rw [List.map_drop, hnumbers, List.range_eq_range', List.drop_range']
    congr 1
    · omega
    · omega
  have hlast : timestampsBetween rows number (number + blocks.length - 1) =
      (rows.drop number).map MiniblockHeaderRow.timestamp := by
    rw [timestampsBetween_eq hnumbers, List.take_of_length_le (by omega)]
  unfold getMiniblocksToReexecute
  rw [hgroups]
  dsimp only [bind, Except.bind]
  obtain ⟨txs, rest, rfl⟩ := List.exists_cons_of_ne_nil hne
  obtain ⟨last, hgetLast, hnumber⟩ : ∃ last,
      ((List.range' number (txs :: rest).length).zip (txs :: rest)).getLast? = some last ∧
        last.1 = number + (txs :: rest).length - 1 := by
    have hzip : ((List.range' number (txs :: rest).length).zip (txs :: rest)).map Prod.fst =
        List.range' number (txs :: rest).length := List.map_fst_zip (by simp)
    have hfst := congrArg List.getLast? hzip
    rw [List.getLast?_map, List.getLast?_range', if_neg (by simp)] at hfst
    exact Option.map_eq_some_iff.mp hfst
  have hhead : ((List.range' number (txs :: rest).length).zip (txs :: rest)).head? =
      some (number, txs) := rfl
  rw [hgetLast, hhead]
  dsimp only
  rw [hnumber, hlast, ← hrange, zipWith_rows]

/-- Pending rows have left the mempool. -/
def Idle (table : List TransactionRow) : Prop :=
  ∀ row ∈ table, isPending row = true → row.inMempool = false

theorem pendingPositions_append (table table' : List TransactionRow) :
    pendingPositions (table ++ table') = pendingPositions table ++ pendingPositions table' := by
  unfold pendingPositions
  rw [List.filter_append, List.map_append]

/-- The statements of the other components keep the pending rows. -/
theorem Edited.pending (h : Edited table table') (hidle : Idle table) :
    pendingPositions table' = pendingPositions table ∧ Idle table' := by
  -- a row that can change has no miniblock, or is in the mempool
  have hnot {row : TransactionRow} (hrow : row ∈ table)
      (hfree : row.inMempool = true ∨ row.miniblockNumber = none) : isPending row = false := by
    rcases hfree with hmempool | hnone
    · refine Bool.eq_false_iff.mpr fun hpending => ?_
      rw [hidle row hrow hpending] at hmempool
      cases hmempool
    · exact isPending_eq_false hnone
  cases h with
  | flagged inMempool error hflag =>
    constructor
    · unfold pendingPositions
      rw [List.filter_map, List.map_map]
      rfl
    · intro row' hrow' hpending
      obtain ⟨row, hrow, rfl⟩ := List.mem_map.mp hrow'
      have hpending : isPending row = true := hpending
      refine Bool.eq_false_iff.mpr fun hmempool => ?_
      rw [hnot hrow (hflag row hrow hmempool)] at hpending
      cases hpending
  | deleted stays hstays =>
    refine ⟨?_, fun row hrow => hidle row (List.mem_of_mem_filter hrow)⟩
    unfold pendingPositions
    rw [List.filter_filter]
    refine congrArg _ (List.filter_congr fun row hrow => ?_)
    cases hstay : stays row with
    | true => exact Bool.and_true _
    | false => rw [hnot hrow (hstays row hrow hstay), Bool.false_and]
  | replaced hash input tx hfree _ =>
    have hwritten {row : TransactionRow} (hrow : row ∈ table)
        (hkey : hasKey tx.initiatorAccount tx.nonce.val row = true) :
        isPending row = false ∧ isPending (writeTx row hash input tx) = false :=
      ⟨isPending_eq_false (hfree row hrow hkey), isPending_eq_false (hfree row hrow hkey)⟩
    constructor
    · unfold pendingPositions
      rw [List.filter_map, List.map_map]
      have hfilter : table.filter (isPending ∘ fun row =>
          if hasKey tx.initiatorAccount tx.nonce.val row then writeTx row hash input tx else row) =
            table.filter isPending := by
        refine List.filter_congr fun row hrow => ?_
        dsimp only [Function.comp_apply]
        split_ifs with hkey
        · rw [(hwritten hrow hkey).1, (hwritten hrow hkey).2]
        · rfl
      rw [hfilter]
      refine List.map_congr_left fun row hrow => ?_
      obtain ⟨hrow, hpending⟩ := List.mem_filter.mp hrow
      dsimp only [Function.comp_apply]
      split_ifs with hkey
      · rw [(hwritten hrow hkey).1] at hpending
        cases hpending
      · rfl
    · intro row' hrow' hpending
      obtain ⟨row, hrow, rfl⟩ := List.mem_map.mp hrow'
      split_ifs at hpending ⊢ with hkey
      · rfl
      · exact hidle row hrow hpending
  | added hash input tx _ _ =>
    constructor
    · rw [pendingPositions_append]
      exact List.append_nil _
    · intro row hrow hpending
      rcases List.mem_append.mp hrow with hrow | hnew
      · exact hidle row hrow hpending
      · cases List.mem_singleton.mp hnew
        rfl

/-- No two rows stand for one initiator and nonce. -/
def DistinctKeys (table : List TransactionRow) : Prop :=
  table.Pairwise fun a b => ∀ key, a.key = some key → b.key ≠ some key

theorem distinctKeys_of_apart (h : table.Pairwise Apart) : DistinctKeys table :=
  h.imp fun hab => hab.2

theorem DistinctKeys.mark (h : DistinctKeys table) (miniblockNumber : ℤ)
    (executed : ExecutedRow) :
    DistinctKeys (table.map fun row => markIfKey miniblockNumber row executed) := by
  refine List.pairwise_map.mpr (h.imp fun {a b} hab => ?_)
  rw [key_markIfKey, key_markIfKey]
  exact hab

/-- A row without a miniblock is marked: it is pending, and the other rows stay. -/
theorem pendingPositions_markIfKey (h : DistinctKeys table) {row : TransactionRow}
    (hrow : row ∈ table)
    {executed : ExecutedRow} (hkey : row.key = some (executed.initiatorAddress, executed.nonce))
    (hfree : row.miniblockNumber = none) (hbatch : row.l1BatchNumber = none) (miniblockNumber : ℤ) :
    (pendingPositions (table.map fun row =>
      markIfKey miniblockNumber row executed)).Perm
        (pendingPositions table ++ [(markRow miniblockNumber executed row).position]) := by
  obtain ⟨front, back, rfl⟩ := List.append_of_mem hrow
  obtain ⟨-, hback, hcross⟩ := List.pairwise_append.mp h
  have hfront : front.map (fun row => markIfKey miniblockNumber row executed) =
      front := by
    refine (List.map_congr_left fun other hmem => markIfKey_of_ne (fun heq => ?_) _).trans
      (List.map_id _)
    exact hcross other hmem row List.mem_cons_self _ heq hkey
  have hback' : back.map (fun row => markIfKey miniblockNumber row executed) =
      back := by
    refine (List.map_congr_left fun other hmem => markIfKey_of_ne ?_ _).trans (List.map_id _)
    exact (List.pairwise_cons.mp hback).1 other hmem _ hkey
  have hnew : pendingPositions (markRow miniblockNumber executed row :: back) =
      (markRow miniblockNumber executed row).position :: pendingPositions back := by
    unfold pendingPositions
    rw [List.filter_cons_of_pos (by simp [isPending, markRow, hbatch]), List.map_cons]
  have hold : pendingPositions (row :: back) = pendingPositions back := by
    unfold pendingPositions
    rw [List.filter_cons_of_neg (by rw [isPending_eq_false hfree]; exact Bool.false_ne_true)]
  rw [List.map_append, List.map_cons, hfront, hback', markIfKey_of_key hkey,
    pendingPositions_append, pendingPositions_append, hnew, hold]
  exact List.perm_middle.trans (List.perm_append_singleton _ _).symm

/-- A row that was marked is read as the executed transaction, if the times agree and the type is
one that is read. -/
theorem rowToTransaction_markRow_eq {i : ℕ} {result : TransactionExecutionResult} {tx : L2Tx}
    (htx : result.transaction = tx.intoTransaction)
    (hhash : result.transaction.hash = some result.hash) {executed : ExecutedRow}
    (hexecuted : executedRow i result = some executed) {row : TransactionRow}
    (hkey : row.key = some (executed.initiatorAddress, executed.nonce))
    (htype : (rowType (some tx.commonData.transactionType.txFormat)).isSome = true)
    (hreceived : row.receivedAt = tx.receivedTimestampMs) (miniblockNumber : ℤ) :
    rowToTransaction (markRow miniblockNumber executed row) = .ok result.transaction := by
  unfold executedRow at hexecuted
  rw [htx] at hexecuted hhash ⊢
  cases hexecuted
  obtain ⟨execute, ⟨nonce, initiatorAddress, signature, transactionType, input⟩, received⟩ := tx
  obtain ⟨⟨hash, data⟩, rfl, rfl⟩ := Option.map_eq_some_iff.mp hhash
  obtain ⟨rowNonce, hrowNonce, hpair⟩ := Option.map_eq_some_iff.mp hkey
  obtain ⟨haddress, hvalue⟩ := Prod.mk.inj hpair
  dsimp only at hvalue htype hreceived
  have haddress : row.initiatorAddress = initiatorAddress := haddress
  obtain ⟨type, htype⟩ := Option.isSome_iff_exists.mp htype
  obtain rfl := rowType_txFormat htype
  have hformat : type.txFormat ≠ TransactionType.protocolUpgradeTransaction.txFormat := by
    cases type <;> first | decide | cases htype
  unfold rowToTransaction markRow
  dsimp only
  rw [if_neg (fun heq => hformat (Option.some.inj heq)), hrowNonce, htype, hvalue]
  dsimp only
  rw [asNonce_asI32, haddress, hreceived]
  rfl

/-- The row of an executed transaction whose miniblock is not stored yet: the update of
`mark_txs_as_executed_in_miniblock` finds it, and it is read as the transaction afterwards. -/
def awaits (row : TransactionRow) (transaction : Transaction) : Bool :=
  match transaction.commonData with
  | .l2 data =>
    hasKey data.initiatorAddress (asI32 data.nonce.val) row && row.miniblockNumber.isNone &&
      row.l1BatchNumber.isNone && row.receivedAt = transaction.receivedTimestampMs &&
      (rowType (some data.transactionType.txFormat)).isSome
  | .protocolUpgrade _ => false

/-- Every executed transaction of a miniblock has a row of its own. -/
def Awaited (table : List TransactionRow) (transactions : List TransactionExecutionResult) : Prop :=
  (∀ result ∈ transactions, ∃ row ∈ table, awaits row result.transaction = true) ∧
    (transactions.Pairwise fun result result' =>
      (result.transaction.initiatorAccount, result.transaction.nonce) ≠
        (result'.transaction.initiatorAccount, result'.transaction.nonce)) ∧
    transactions.length ≤ 2 ^ 31

instance instDecidableAwaited (table : List TransactionRow)
    (transactions : List TransactionExecutionResult) : Decidable (Awaited table transactions) :=
  inferInstanceAs (Decidable (_ ∧ _ ∧ _))

theorem awaits_l2 {row : TransactionRow} {tx : L2Tx} (h : awaits row tx.intoTransaction = true) :
    row.key = some (tx.initiatorAccount, asI32 tx.nonce.val) ∧ row.miniblockNumber = none ∧
      row.l1BatchNumber = none ∧ row.receivedAt = tx.receivedTimestampMs ∧
      (rowType (some tx.commonData.transactionType.txFormat)).isSome = true := by
  unfold awaits at h
  rw [L2Tx.intoTransaction_commonData] at h
  simp only [Bool.and_eq_true, decide_eq_true_eq, Option.isNone_iff_eq_none] at h
  obtain ⟨⟨⟨⟨hkey, hfree⟩, hbatch⟩, hreceived⟩, htype⟩ := h
  exact ⟨hasKey_iff.mp hkey, hfree, hbatch, hreceived, htype⟩

/-- The row of another transaction is not marked. -/
theorem markIfKey_of_awaits {i : ℕ} {result result' : TransactionExecutionResult} {tx tx' : L2Tx}
    (htx : result.transaction = tx.intoTransaction)
    (htx' : result'.transaction = tx'.intoTransaction) {executed : ExecutedRow}
    (hexecuted : executedRow i result = some executed)
    (hne : (result.transaction.initiatorAccount, result.transaction.nonce) ≠
      (result'.transaction.initiatorAccount, result'.transaction.nonce)) {row : TransactionRow}
    (hawaits : awaits row result'.transaction = true) (miniblockNumber : ℤ) :
    markIfKey miniblockNumber row executed = row := by
  obtain ⟨haddress, hnonce, -, -⟩ := executedRow_l2 htx hexecuted
  rw [htx'] at hawaits
  obtain ⟨hkey, -⟩ := awaits_l2 hawaits
  refine markIfKey_of_ne (fun heq => hne ?_) miniblockNumber
  obtain ⟨haddress', hnonce'⟩ := Prod.mk.inj (Option.some.inj (heq.symm.trans hkey))
  rw [haddress] at haddress'
  rw [hnonce] at hnonce'
  have hsame := congrArg asNonce hnonce'
  rw [asNonce_asI32, asNonce_asI32] at hsame
  rw [htx, htx', L2Tx.intoTransaction_initiatorAccount, L2Tx.intoTransaction_initiatorAccount,
    L2Tx.intoTransaction_nonce, L2Tx.intoTransaction_nonce, haddress', hsame]

/-- The mark of one transaction. -/
theorem pendingPositions_markL2 {k : ℕ} (hk : k < 2 ^ 31) {result : TransactionExecutionResult}
    {tx : L2Tx} (htx : result.transaction = tx.intoTransaction)
    (hhash : result.transaction.hash = some result.hash) {executed : ExecutedRow}
    (hexecuted : executedRow k result = some executed) (hkeys : DistinctKeys table)
    {row : TransactionRow} (hrow : row ∈ table) (hawaits : awaits row result.transaction = true)
    (hone : markL2 number table executed = .ok table') :
    table' = table.map (fun row => markIfKey (asI32 number) row executed) ∧
      (pendingPositions table').Perm (pendingPositions table ++
        [⟨some (number : ℤ), some (k : ℤ), .ok result.transaction⟩]) := by
  obtain ⟨haddress, hnonce, -, hindex⟩ := executedRow_l2 htx hexecuted
  rw [htx] at hawaits
  obtain ⟨hkey, hfree, hbatch, hreceived, htype⟩ := awaits_l2 hawaits
  rw [← haddress, ← hnonce] at hkey
  have hnumber : asI32 number = number := by
    unfold markL2 at hone
    dsimp only at hone
    split_ifs at hone with hany htaken hcast
    · exact not_not.mp hcast
    · exact absurd (List.any_eq_true.mpr ⟨row, hrow, hasKey_iff.mpr hkey⟩) hany
  have hposition : (markRow (asI32 number) executed row).position =
      ⟨some (number : ℤ), some (k : ℤ), .ok result.transaction⟩ := by
    unfold TransactionRow.position
    rw [rowToTransaction_markRow_eq htx hhash hexecuted hkey htype hreceived]
    show Position.mk (some (asI32 number)) (some executed.indexInBlock) _ = _
    rw [hnumber, hindex, asI32_of_lt hk]
  have hperm := pendingPositions_markIfKey hkeys hrow hkey hfree hbatch (asI32 number)
  rw [hposition] at hperm
  obtain rfl := markL2_eq hone
  exact ⟨rfl, hperm⟩

/-- The marks of a miniblock, from some index on. -/
theorem pendingPositions_foldlM {transactions : List TransactionExecutionResult} {k : ℕ}
    (hl2 : AllL2 transactions)
    (hhash : ∀ result ∈ transactions, result.transaction.hash = some result.hash)
    (hkeys : DistinctKeys table)
    (hrows : ∀ result ∈ transactions, ∃ row ∈ table, awaits row result.transaction = true)
    (hdistinct : transactions.Pairwise fun result result' =>
      (result.transaction.initiatorAccount, result.transaction.nonce) ≠
        (result'.transaction.initiatorAccount, result'.transaction.nonce))
    (hlength : k + transactions.length ≤ 2 ^ 31)
    (h : ((transactions.zipIdx k).filterMap fun e => executedRow e.2 e.1).foldlM
      (markL2 number) table = .ok table') :
    (pendingPositions table').Perm (pendingPositions table ++
      (transactions.map TransactionExecutionResult.transaction).mapIdx fun i transaction =>
        ⟨some (number : ℤ), some ((i + k : ℕ) : ℤ), .ok transaction⟩) := by
  induction transactions generalizing table k with
  | nil =>
    cases h
    rw [List.map_nil, List.mapIdx_nil, List.append_nil]
  | cons result transactions ih =>
    obtain ⟨⟨tx, htx⟩, hl2⟩ := List.forall_mem_cons.mp hl2
    obtain ⟨hresult, hhash⟩ := List.forall_mem_cons.mp hhash
    obtain ⟨⟨row, hrow, hawaits⟩, hrows⟩ := List.forall_mem_cons.mp hrows
    obtain ⟨hne, hdistinct⟩ := List.pairwise_cons.mp hdistinct
    rw [List.length_cons] at hlength
    obtain ⟨executed, hexecuted⟩ : ∃ executed, executedRow k result = some executed := by
      unfold executedRow
      rw [htx]
      exact ⟨_, rfl⟩
    have hrows₁ : ((result :: transactions).zipIdx k).filterMap (fun e => executedRow e.2 e.1) =
        executed :: (transactions.zipIdx (k + 1)).filterMap fun e => executedRow e.2 e.1 := by
      rw [List.zipIdx_cons, List.filterMap_cons_some]
      exact hexecuted
    rw [hrows₁, List.foldlM_cons] at h
    obtain ⟨table₁, hone, hrest⟩ := Seq.bind_eq_ok.mp h
    obtain ⟨rfl, hperm⟩ :=
      pendingPositions_markL2 (by omega) htx hresult hexecuted hkeys hrow hawaits hone
    -- the rows of the other transactions stay
    have hothers : ∀ result' ∈ transactions, ∃ row' ∈ table.map fun row =>
        markIfKey (asI32 number) row executed, awaits row' result'.transaction = true := by
      intro result' hmem
      obtain ⟨row', hrow', hawaits'⟩ := hrows result' hmem
      obtain ⟨tx', htx'⟩ := hl2 result' hmem
      refine ⟨row', List.mem_map.mpr ⟨row', hrow', ?_⟩, hawaits'⟩
      exact markIfKey_of_awaits htx htx' hexecuted (hne result' hmem) hawaits' _
    have hrec := ih hl2 hhash (hkeys.mark _ _) hothers hdistinct (by omega) hrest
    refine hrec.trans ((hperm.append_right _).trans (.of_eq ?_))
    rw [List.append_assoc, List.singleton_append, List.map_cons, List.mapIdx_cons, Nat.zero_add]
    simp only [Nat.add_assoc, Nat.add_comm 1]

/-- A stored miniblock adds the positions of its transactions. -/
theorem pendingPositions_mark {transactions : List TransactionExecutionResult}
    (hl2 : AllL2 transactions)
    (hhash : ∀ result ∈ transactions, result.transaction.hash = some result.hash)
    (hapart : table.Pairwise Apart) (hawaited : Awaited table transactions)
    (h : markTxsAsExecutedInMiniblock table number transactions = .ok table') :
    (pendingPositions table').Perm (pendingPositions table ++
      blockPositions number (transactions.map TransactionExecutionResult.transaction)) := by
  obtain ⟨hrows, hdistinct, hlength⟩ := hawaited
  rw [hl2.mark_eq] at h
  unfold executedRows indexed at h
  rw [List.filterMap_map] at h
  exact pendingPositions_foldlM hl2 hhash (distinctKeys_of_apart hapart) hrows hdistinct
    (by omega) h

theorem Idle.mark (h : Idle table) {transactions : List TransactionExecutionResult}
    (hl2 : AllL2 transactions)
    (hmark : markTxsAsExecutedInMiniblock table number transactions = .ok table') :
    Idle table' := by
  rw [hl2.mark_eq] at hmark
  rw [foldlM_markL2_eq hmark]
  intro row' hrow' hpending
  obtain ⟨row, hrow, rfl⟩ := List.mem_map.mp hrow'
  rcases foldl_markIfKey_cases (asI32 number) row (executedRows transactions) with
    hsame | ⟨executed, -, -, heq⟩
  · rw [hsame] at hpending ⊢
    exact h row hrow hpending
  · rw [heq]
    rfl

end OlaOs
