import OlaOs.Lib.Enumerate
import OlaOs.Tree.OneBlock

/-! `process_leaf_indices` on one block: leaves are numbered in the order of their first write. -/
namespace OlaOs

open Enumerate

variable {Row : Type}

/-- The writes among the operations of a block. -/
def writesOf (ops : List (TreeKey × TreeOperation)) : List (TreeKey × TreeValue) :=
  ops.filterMap fun op =>
    match op.2 with
    | .write value _ => some (op.1, value)
    | _ => none

/-- The keys written by a block, in order and with repetitions. -/
abbrev writtenBy (ops : List (TreeKey × TreeOperation)) : List TreeKey :=
  (writesOf ops).map Prod.fst

theorem writesOf_concat_write (ops : List (TreeKey × TreeOperation)) (key : TreeKey)
    (value previousValue : TreeValue) :
    writesOf (ops ++ [(key, .write value previousValue)]) = writesOf ops ++ [(key, value)] := by
  simp [writesOf]

theorem writesOf_concat_read (ops : List (TreeKey × TreeOperation)) (key : TreeKey)
    (value : TreeValue) : writesOf (ops ++ [(key, .read value)]) = writesOf ops := by
  simp [writesOf]

theorem serializeTreeLeaf_injective : Function.Injective serializeTreeLeaf := by
  intro a b hab
  have h : treeKeyToH256 a = treeKeyToH256 b := by
    simp only [treeKeyToH256, H256.mk.injEq]
    exact hab
  rw [← h256ToTreeKey_treeKeyToH256 a, h, h256ToTreeKey_treeKeyToH256]

namespace Storage

theorem scanBlock_concat (db : Db) (scan : LeafScan) (logs : List BlockLog) (block : ℕ)
    (leaf : TreeKey) (operation : TreeOperation) :
    scanBlock db scan (logs ++ [(block, (leaf, operation))]) =
      ((scanLog (db.leafIndices (serializeTreeLeaf leaf)) (scanBlock db scan logs).1 leaf
          operation).1,
        (scanBlock db scan logs).2 ++ [(leaf, (scanLog (db.leafIndices (serializeTreeLeaf leaf))
          (scanBlock db scan logs).1 leaf operation).2)]) := by
  induction logs generalizing scan with
  | nil => rfl
  | cons log logs ih =>
    obtain ⟨block', leaf', operation'⟩ := log
    rw [List.cons_append, scanBlock, ih, scanBlock]
    rfl

/-- The index records of a database number the keys of `order` from one on; the other keys of a
set have none. -/
def Numbers (db : Db) (keys : TreeKey → Prop) (order : List TreeKey) : Prop :=
  ∀ key, keys key → db.leafIndices (serializeTreeLeaf key) =
    if key ∈ order then some (.index (order.idxOf key + 1)) else none

/-- The scan after the operations `ops`, from a database that numbers `order`. -/
structure ScanInv (order : List TreeKey) (start : LeafScan) (ops : List (TreeKey × TreeOperation))
    (result : LeafScan × List (TreeKey × ℕ)) : Prop where
  current : result.1.currentIndex = (enumerate order (writtenBy ops)).length + 1
  news : ∀ key : TreeKey, key.Canonical → result.1.newWrites.lookup key =
    if key ∈ enumerate order (writtenBy ops) ∧ key ∉ order then
      some ((enumerate order (writtenBy ops)).idxOf key + 1) else none
  put_new : ∀ key ∈ enumerate order (writtenBy ops), key ∉ order →
    result.1.putBatch.lookup (serializeTreeLeaf key) =
      some (.index ((enumerate order (writtenBy ops)).idxOf key + 1))
  put_old : ∀ bytes, (∀ key ∈ enumerate order (writtenBy ops), key ∉ order →
    bytes ≠ serializeTreeLeaf key) → result.1.putBatch.lookup bytes = start.putBatch.lookup bytes
  deletes : result.1.deleteBatch = start.deleteBatch
  initial : result.1.initialWrites = ((firstWrites order (writesOf ops)).zipIdx
    (order.length + 1)).map fun e => ⟨e.2, treeKeyToU256 e.1.1, treeValueToH256 e.1.2⟩
  repeated : result.1.repeatedWrites = (laterWrites order (writesOf ops)).map fun w =>
    ⟨(enumerate order (writtenBy ops)).idxOf w.1 + 1, treeValueToH256 w.2⟩
  known : ∀ e ∈ result.2, e.1 ∈ order → e.2 = order.idxOf e.1 + 1

theorem scanInv_start {order : List TreeKey} {start : LeafScan}
    (hcurrent : start.currentIndex = order.length + 1) (hnews : start.newWrites = ∅)
    (hinitial : start.initialWrites = []) (hrepeated : start.repeatedWrites = []) :
    ScanInv order start [] (start, []) where
  current := hcurrent
  news key _ := by
    have hnot : ¬(key ∈ enumerate order (writtenBy []) ∧ key ∉ order) := fun h => h.2 h.1
    rw [hnews, if_neg hnot]
    rfl
  put_new key hmem hnot := absurd hmem hnot
  put_old _ _ := rfl
  deletes := rfl
  initial := hinitial
  repeated := hrepeated
  known := by simp

/-- A repeated write leaves the numbering as it is. -/
theorem ScanInv.pushRepeated {order : List TreeKey} {start scan : LeafScan}
    {ops : List (TreeKey × TreeOperation)} {outs : List (TreeKey × ℕ)}
    (h : ScanInv order start ops (scan, outs)) {key : TreeKey} {value previousValue : TreeValue}
    {index : ℕ} (hmem : key ∈ enumerate order (writtenBy ops))
    (hindex : index = (enumerate order (writtenBy ops)).idxOf key + 1) :
    ScanInv order start (ops ++ [(key, .write value previousValue)])
      (scan.pushRepeated index value, outs ++ [(key, index)]) := by
  have henum : enumerate order (writtenBy (ops ++ [(key, .write value previousValue)])) =
      enumerate order (writtenBy ops) := by
    rw [writtenBy, writesOf_concat_write, List.map_append, List.map_cons, List.map_nil,
      enumerate_concat, if_pos hmem]
  constructor
  · rw [henum]
    exact h.current
  · rw [henum]
    exact h.news
  · rw [henum]
    exact h.put_new
  · rw [henum]
    exact h.put_old
  · exact h.deletes
  · rw [writesOf_concat_write, firstWrites_concat, if_pos hmem, List.append_nil]
    exact h.initial
  · rw [henum, writesOf_concat_write, laterWrites_concat, if_pos hmem, List.map_append,
      ← h.repeated, hindex]
    rfl
  · intro e he hknown
    rcases List.mem_append.mp he with he | he
    · exact h.known e he hknown
    · obtain rfl : e = (key, index) := by simpa using he
      rw [hindex, idxOf_enumerate hknown]

/-- A first write takes the next number. -/
theorem ScanInv.pushInitial {order : List TreeKey} {start scan : LeafScan}
    {ops : List (TreeKey × TreeOperation)} {outs : List (TreeKey × ℕ)}
    (h : ScanInv order start ops (scan, outs)) {key : TreeKey} (hcanon : key.Canonical)
    {value previousValue : TreeValue} (hnot : key ∉ enumerate order (writtenBy ops)) :
    ScanInv order start (ops ++ [(key, .write value previousValue)])
      (scan.pushInitial key value, outs ++ [(key, scan.currentIndex)]) := by
  have hcurrent : scan.currentIndex = (enumerate order (writtenBy ops)).length + 1 := h.current
  have henum : enumerate order (writtenBy (ops ++ [(key, .write value previousValue)])) =
      enumerate order (writtenBy ops) ++ [key] := by
    rw [writtenBy, writesOf_concat_write, List.map_append, List.map_cons, List.map_nil,
      enumerate_concat, if_neg hnot]
  have horder : key ∉ order := fun hmem => hnot (mem_enumerate.mpr (.inl hmem))
  have hself : (enumerate order (writtenBy ops) ++ [key]).idxOf key =
      (enumerate order (writtenBy ops)).length := by
    rw [List.idxOf_append_of_notMem hnot, List.idxOf_cons_self, Nat.add_zero]
  have hold {k : TreeKey} (hk : k ∈ enumerate order (writtenBy ops)) :
      (enumerate order (writtenBy ops) ++ [key]).idxOf k =
        (enumerate order (writtenBy ops)).idxOf k := List.idxOf_append_of_mem hk
  have hlen : (enumerate order (writtenBy ops)).length =
      order.length + (firstWrites order (writesOf ops)).length := by
    rw [enumerate_eq_append, List.length_append, List.length_map]
  constructor
  · rw [henum, List.length_append, List.length_singleton, ← hcurrent]
    rfl
  · intro k hk
    rw [henum, LeafScan.pushInitial, KeyedMap.lookup_insert_eq, TreeKey.canonical_eq hcanon]
    by_cases hkey : k = key
    · subst hkey
      rw [if_pos rfl, if_pos ⟨by simp, horder⟩, hself, hcurrent]
    · have hnews : scan.newWrites.lookup k = _ := h.news k hk
      rw [if_neg hkey, hnews]
      by_cases hmem : k ∈ enumerate order (writtenBy ops)
      · simp only [hmem, List.mem_append, true_or, true_and, hold hmem]
      · simp [hmem, hkey]
  · intro k hk hknew
    rw [henum] at hk ⊢
    rw [LeafScan.pushInitial, KeyedMap.lookup_insert_eq]
    by_cases hkey : k = key
    · subst hkey
      rw [if_pos rfl, hself, hcurrent]
    · have hmem : k ∈ enumerate order (writtenBy ops) := by simpa [hkey] using hk
      rw [if_neg fun heq => hkey (serializeTreeLeaf_injective heq), hold hmem]
      exact h.put_new k hmem hknew
  · intro bytes hbytes
    rw [henum] at hbytes
    rw [LeafScan.pushInitial, KeyedMap.lookup_insert_eq, if_neg (hbytes key (by simp) horder)]
    exact h.put_old bytes fun k hk => hbytes k (by simp [hk])
  · exact h.deletes
  · have hinitial : scan.initialWrites = _ := h.initial
    rw [writesOf_concat_write, firstWrites_concat, if_neg hnot, List.zipIdx_append, List.map_append,
      LeafScan.pushInitial, hinitial, hcurrent, hlen]
    simp only [List.zipIdx_singleton, List.map_cons, List.map_nil]
    congr 3
    omega
  · have hrepeated : scan.repeatedWrites = _ := h.repeated
    rw [henum, writesOf_concat_write, laterWrites_concat, if_neg hnot, List.append_nil,
      LeafScan.pushInitial, hrepeated]
    apply List.map_congr_left
    intro w hw
    have hmem : w.1 ∈ enumerate order (writtenBy ops) :=
      mem_enumerate.mpr (.inr (List.mem_map.mpr ⟨w, mem_of_mem_laterWrites hw, rfl⟩))
    rw [hold hmem]
  · intro e he hknown
    rcases List.mem_append.mp he with he | he
    · exact h.known e he hknown
    · obtain rfl : e = (key, scan.currentIndex) := by simpa using he
      exact absurd hknown horder

/-- A read changes nothing. -/
theorem ScanInv.read {order : List TreeKey} {start scan : LeafScan}
    {ops : List (TreeKey × TreeOperation)} {outs : List (TreeKey × ℕ)}
    (h : ScanInv order start ops (scan, outs)) {key : TreeKey} {value : TreeValue} {index : ℕ}
    (hindex : key ∈ order → index = order.idxOf key + 1) :
    ScanInv order start (ops ++ [(key, .read value)]) (scan, outs ++ [(key, index)]) := by
  have hwrites := writesOf_concat_read ops key value
  constructor
  · rw [writtenBy, hwrites]
    exact h.current
  · rw [writtenBy, hwrites]
    exact h.news
  · rw [writtenBy, hwrites]
    exact h.put_new
  · rw [writtenBy, hwrites]
    exact h.put_old
  · exact h.deletes
  · rw [hwrites]
    exact h.initial
  · rw [writtenBy, hwrites]
    exact h.repeated
  · intro e he hknown
    rcases List.mem_append.mp he with he | he
    · exact h.known e he hknown
    · obtain rfl : e = (key, index) := by simpa using he
      exact hindex hknown

/-- The scan of a block numbers the leaves it writes, for every list of writes and reads. -/
theorem scanBlock_inv {db : Db} {keys : TreeKey → Prop} {order : List TreeKey} {start : LeafScan}
    (hdb : Numbers db keys order) (hcurrent : start.currentIndex = order.length + 1)
    (hnews : start.newWrites = ∅) (hinitial : start.initialWrites = [])
    (hrepeated : start.repeatedWrites = []) {ops : List (TreeKey × TreeOperation)}
    (hkeys : ∀ op ∈ ops, keys op.1) (hcanon : ∀ op ∈ ops, op.1.Canonical)
    (hops : ∀ op ∈ ops, op.2 ≠ .delete) :
    ScanInv order start ops (scanBlock db start (oneBlock ops)) := by
  induction ops using List.reverseRecOn with
  | nil => exact scanInv_start hcurrent hnews hinitial hrepeated
  | append_singleton ops op ih =>
    have hinv := ih (fun o ho => hkeys o (by simp [ho])) (fun o ho => hcanon o (by simp [ho]))
      (fun o ho => hops o (by simp [ho]))
    obtain ⟨key, operation⟩ := op
    have hkey := hdb key (hkeys (key, operation) (by simp))
    have hc : key.Canonical := hcanon (key, operation) (by simp)
    rw [oneBlock, List.map_append, List.map_cons, List.map_nil, scanBlock_concat, hkey]
    generalize hres : scanBlock db start (List.map (Prod.mk 0) ops) = result at hinv
    obtain ⟨scan, outs⟩ := result
    cases operation with
    | delete => exact absurd rfl (hops (key, .delete) (by simp))
    | read value =>
      by_cases hmem : key ∈ order
      · rw [if_pos hmem]
        exact hinv.read fun _ => rfl
      · rw [if_neg hmem]
        exact hinv.read fun h => absurd h hmem
    | write value previousValue =>
      by_cases hmem : key ∈ order
      · rw [if_pos hmem]
        exact hinv.pushRepeated (mem_enumerate.mpr (.inl hmem)) (by rw [idxOf_enumerate hmem]; rfl)
      · have hlook : scan.newWrites.lookup key.canonical =
            if key ∈ enumerate order (writtenBy ops) ∧ key ∉ order then
              some ((enumerate order (writtenBy ops)).idxOf key + 1) else none := by
          rw [TreeKey.canonical_eq hc]
          exact hinv.news key hc
        rw [if_neg hmem]
        by_cases hcur : key ∈ enumerate order (writtenBy ops)
        · rw [if_pos ⟨hcur, hmem⟩] at hlook
          simp only [scanLog, hlook]
          exact hinv.pushRepeated hcur rfl
        · rw [if_neg fun h => hcur h.1] at hlook
          simp only [scanLog, hlook]
          exact hinv.pushInitial hc hcur

end Storage

end OlaOs
