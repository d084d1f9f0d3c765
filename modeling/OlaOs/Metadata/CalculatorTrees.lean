import OlaOs.Metadata.Calculators
import OlaOs.Tree.FailedSave
import OlaOs.Tree.Reopen

/-! The tree in the memory of a calculator, over more batches than its database has. -/
namespace OlaOs

open Enumerate AccountTree BatchOps TreeUpdater

variable {Row : Type}

/-- What is assumed of the batches: the hash of storage keys tells the keys apart that they use,
their numbers are `u32`, and no batch leads back to the root of the empty tree. -/
structure RegularHistory (env : TreeEnv Row) (history : List SealedBatch) : Prop where
  hashed : Set.InjOn (StorageKey.hashedKey env.poseidonHashBytes) (usedKeys history)
  length_lt : history.length < 2 ^ 32
  root_ne : ∀ n, 0 < n → n ≤ history.length →
    referenceRoot env.hasher (leavesAt env history n) ≠
      referenceRoot env.hasher fun _ => treeKeyDefault

theorem RegularHistory.of_longer {env : TreeEnv Row} {history history' : List SealedBatch}
    (h : RegularHistory env history') (hlonger : history <+: history') :
    RegularHistory env history := by
  refine ⟨h.hashed.mono (usedKeys_mono hlonger), hlonger.length_le.trans_lt h.length_lt, ?_⟩
  intro n hpos hn
  rw [← leavesAt_of_longer hlonger hn]
  exact h.root_ne n hpos (hn.trans hlonger.length_le)

/-- What the tree reports for batch `n`. -/
def batchReport (env : TreeEnv Row) (history : List SealedBatch) (n : ℕ) : TreeMetadata Row :=
  blockReport env (leavesAt env history n) (orderAt env history n)
    (((history[n]?).map (SealedBatch.treeOps env)).getD [])

theorem batchReport_eq {env : TreeEnv Row} {history : List SealedBatch} {n : ℕ}
    (hn : n < history.length) : batchReport env history n =
      blockReport env (leavesAt env history n) (orderAt env history n)
        (history[n].treeOps env) := by
  rw [batchReport, List.getElem?_eq_getElem hn]
  rfl

theorem batchReport_of_longer {env : TreeEnv Row} {history history' : List SealedBatch} {n : ℕ}
    (h : history <+: history') (hn : n < history.length) :
    batchReport env history' n = batchReport env history n := by
  have hget : history'[n]? = history[n]? := by
    obtain ⟨later, rfl⟩ := h
    exact List.getElem?_append_left hn
  rw [batchReport, batchReport, leavesAt_of_longer h hn.le, orderAt_of_longer h hn.le, hget]

theorem rootHash_batchReport {env : TreeEnv Row} {history : List SealedBatch} {n : ℕ}
    (hn : n < history.length) :
    treeKeyToH256 (batchReport env history n).rootHash = stateRoot env history (n + 1) := by
  rw [stateRoot, leavesAt_succ hn, batchReport_eq hn]
  rfl

/-- The tree in memory is over the first `n` batches, and its database over the first `saved`. -/
structure HeldTree (env : TreeEnv Row) (history : List SealedBatch) (saved n : ℕ)
    (tree : AccountTree) : Prop where
  saved_eq : tree.storage.db.blockNumber.getD 0 = saved
  saved_le : saved ≤ n
  unsaved : ∃ reference, Unsaved env (leavesAt env history saved) (orderAt env history saved)
    (leavesAt env history n) (orderAt env history n) tree reference
  pending : saved < n → tree.storage.HasPending ∧ ∃ reference : AccountTree,
    Unsaved env (leavesAt env history saved) (orderAt env history saved)
      (leavesAt env history n) (orderAt env history n) tree reference.saved
  root : tree.rootHash = referenceRoot env.hasher (leavesAt env history n)
  number : tree.blockNumber = n

namespace HeldTree

variable {env : TreeEnv Row} {history history' : List SealedBatch} {saved n : ℕ}
  {tree : AccountTree}

theorem of_longer (h : HeldTree env history saved n tree) (hlonger : history <+: history')
    (hn : n ≤ history.length) : HeldTree env history' saved n tree := by
  have hsaved := h.saved_le.trans hn
  refine ⟨h.saved_eq, h.saved_le, ?_, ?_, ?_, h.number⟩
  · rw [leavesAt_of_longer hlonger hsaved, orderAt_of_longer hlonger hsaved,
      leavesAt_of_longer hlonger hn, orderAt_of_longer hlonger hn]
    exact h.unsaved
  · rw [leavesAt_of_longer hlonger hsaved, orderAt_of_longer hlonger hsaved,
      leavesAt_of_longer hlonger hn, orderAt_of_longer hlonger hn]
    exact h.pending
  · rw [leavesAt_of_longer hlonger hn]
    exact h.root

theorem db (h : HeldTree env history saved n tree) :
    DbInv env (leavesAt env history saved) (orderAt env history saved) tree.storage := by
  obtain ⟨reference, hunsaved⟩ := h.unsaved
  exact hunsaved.db

/-- A tree that has just been opened. -/
theorem opened {db : Db} (hdb : DbInv env (leavesAt env history saved)
      (orderAt env history saved) (.new db)) (hsaved : db.blockNumber.getD 0 = saved) :
    ∃ tree, newWithDb env db = .ok tree ∧ HeldTree env history saved saved tree := by
  have hnew := newWithDb_eq hdb.nodes
  refine ⟨_, hnew, hsaved, le_rfl, ⟨_, SavedInv.unsaved ⟨hdb, rfl, ?_, rfl⟩⟩,
    fun hlt => absurd hlt (lt_irrefl _), rfl, hsaved⟩
  intro bytes value hpending
  cases hpending

/-- Processing the next batch, which the unsaved ones do not affect. -/
theorem process (hout : env.hasher.TraceOutput) (hkeys : env.CanonicalKeys)
    (hsep : env.SeparateKeys) (hregular : RegularHistory env history)
    (h : HeldTree env history saved n tree) (hn : n < history.length)
    (horder : orderAt env history n = orderAt env history saved)
    (hleaves : ∀ k, k ∉ (history[n].treeOps env).map (fun op => treeKeyToU256 op.1) →
      leavesAt env history n k = leavesAt env history saved k)
    (hne : filterBlockLogs history[n].witnessLogs ≠ []) (sched : Schedule Row) :
    ∃ witness tree', AsyncTree.processL1Batch env sched tree history[n].witnessLogs =
        .ok ({ batchReport env history n with witness := some witness }, tree') ∧
      HeldTree env history saved (n + 1) tree' := by
  obtain ⟨reference, hunsaved⟩ := h.unsaved
  obtain ⟨witness, tree', hblock, hdb, hdel, hpending, hroot, hnumber⟩ :=
    processBlock_step hout hkeys hsep sched h.db hne
  obtain ⟨-, reference', -, hdb', hdel', hpending', hroot', hnumber'⟩ :=
    processBlock_step hout hkeys hsep sched hunsaved.saved.db hne
  have hnext := hunsaved.step hsep horder hleaves ⟨hdb, hdel, hpending, hroot, hnumber⟩
    ⟨hdb', hdel', hpending', hroot', hnumber'⟩
  have hsame := (leavesAfter_eq_iff env.hasher).mpr hleaves
  have hreport : batchReport env history n = blockReport env (leavesAt env history saved)
      (orderAt env history saved) (history[n].treeOps env) := by
    rw [batchReport_eq hn, blockReport, blockReport, hsame, horder]
  have hcounter : tree'.storage.HasPending := by
    have hlookup := hpending leafIndexKey
    rw [(blockDelta_spec hsep _ _ _).counter] at hlookup
    exact ⟨_, hlookup⟩
  have hlt := hregular.length_lt
  refine ⟨witness, tree', ?_, ?_, ?_, ?_, ?_, ?_, ?_⟩
  · rw [hreport]
    exact hblock
  · rw [hdb]
    exact h.saved_eq
  · exact h.saved_le.trans (Nat.le_succ n)
  · rw [leavesAt_succ hn, orderAt_succ hn]
    exact ⟨_, hnext⟩
  · rw [leavesAt_succ hn, orderAt_succ hn]
    exact fun _ => ⟨hcounter, _, hnext⟩
  · rw [hroot, leavesAt_succ hn, hsame]
    rfl
  · rw [hnumber, h.number]
    omega

theorem process_nil (h : HeldTree env history saved n tree) {storageLogs : List WitnessStorageLog}
    (hnil : filterBlockLogs storageLogs = []) (sched : Schedule Row) :
    AsyncTree.processL1Batch env sched tree storageLogs = .error noWrites := by
  rw [AsyncTree.processL1Batch, hnil]
  exact processBlock_nil sched h.db.nodes

/-- A save whose write succeeds. -/
theorem save (h : HeldTree env history saved n tree) (hlt : saved < n) :
    HeldTree env history n n (AsyncTree.save tree true) := by
  obtain ⟨⟨value, hvalue⟩, reference, hunsaved⟩ := h.pending hlt
  obtain ⟨hsave, hnext⟩ := hunsaved.save hvalue
  rw [hsave]
  exact ⟨h.number, le_rfl, ⟨_, hnext⟩, fun hlt => absurd hlt (lt_irrefl _), h.root, h.number⟩

theorem save_cases (h : HeldTree env history saved n tree) (hlt : saved < n) (written : Bool) :
    ∃ saved', saved' ≤ n ∧ (written = true → saved' = n) ∧
      HeldTree env history saved' n (AsyncTree.save tree written) := by
  cases written with
  | false =>
    rw [asyncSave_false]
    exact ⟨saved, hlt.le, fun hwritten => absurd hwritten Bool.false_ne_true, h⟩
  | true => exact ⟨n, le_rfl, fun _ => rfl, h.save hlt⟩

end HeldTree

end OlaOs
