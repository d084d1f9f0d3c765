import OlaOs.Tree.IndexCalls
import OlaOs.Tree.ProofChain

/-! Node indices as tree keys: which of them `from_canonical_u64` takes without failing its debug
assertion. A shifted key has words that its limbs do not have. -/
namespace OlaOs

/-- The four words of a node index, the least significant one first. -/
def indexWords (value : ℕ) : List ℕ :=
  (List.range 4).map fun index => value / 2 ^ (64 * index) % 2 ^ 64

/-- `u256_to_tree_key` hands the words to `from_canonical_u64`. -/
theorem u256ToTreeKey_words (value : ℕ) :
    (u256ToTreeKey value).toList.reverse.map (fun limb => limb.inner.toNat) = indexWords value := by
  simp [u256ToTreeKey, TreeKey.toList, indexWords, GoldilocksField.fromCanonicalU64,
    List.range_succ]

/-- Each word of an index meets the assertion of `from_canonical_u64`, and the index is read back
from its tree key. -/
structure Converts (value : ℕ) : Prop where
  canonical : ∀ item ∈ indexWords value, item < GoldilocksField.order
  back : treeKeyToU256 (u256ToTreeKey value) = value

/-- Thirty-two ones in a row, above the lowest thirty-two bits. -/
def LongRun (key : ℕ) : Prop := ∃ p, 32 ≤ p ∧ key / 2 ^ p % 2 ^ 32 = 2 ^ 32 - 1

variable {key : ℕ}

theorem neighborIdx_half (idx : ℕ) (neiFlag : Bool) : neighborIdx idx neiFlag / 2 = idx / 2 := by
  cases neiFlag with
  | false => rfl
  | true => exact SparseMerkle.sibling_half idx

/-- The upper half of a word of an index stands in the key. -/
theorem word_upper {value k : ℕ} (hvalue : value / 2 = key / 2 ^ k / 2) (i : ℕ) :
    value / 2 ^ (64 * i) % 2 ^ 64 / 2 ^ 32 = key / 2 ^ (k + 64 * i + 32) % 2 ^ 32 := by
  have hhalf (n j : ℕ) : n / 2 ^ (j + 1) = n / 2 / 2 ^ j := by
    rw [Nat.div_div_eq_div_mul, pow_succ']
  calc value / 2 ^ (64 * i) % 2 ^ 64 / 2 ^ 32
      = value / 2 ^ (64 * i) / 2 ^ 32 % 2 ^ 32 := by
        rw [show (2 : ℕ) ^ 64 = 2 ^ 32 * 2 ^ 32 by norm_num, Nat.mod_mul_right_div_self]
    _ = value / 2 ^ (64 * i + 31 + 1) % 2 ^ 32 := by
        rw [Nat.div_div_eq_div_mul, ← pow_add]
    _ = key / 2 ^ k / 2 ^ (64 * i + 31 + 1) % 2 ^ 32 := by
        rw [hhalf value, hvalue, ← hhalf]
    _ = key / 2 ^ (k + 64 * i + 32) % 2 ^ 32 := by
        rw [Nat.div_div_eq_div_mul, ← pow_add, Nat.add_assoc, Nat.add_assoc]

/-- A word that is not below the order is all ones in its upper half. -/
theorem upper_of_order_le {item : ℕ} (hlt : item < 2 ^ 64) (hle : GoldilocksField.order ≤ item) :
    item / 2 ^ 32 = 2 ^ 32 - 1 := by
  unfold GoldilocksField.order at hle
  omega

/-- The nodes on the path of a key without a long run, and their neighbours. -/
theorem converts_of_half (hkey : key < 2 ^ 256) (hrun : ¬ LongRun key) {value k : ℕ}
    (hvalue : value / 2 = key / 2 ^ k / 2) : Converts value := by
  have hle : key / 2 ^ k ≤ key := Nat.div_le_self _ _
  refine ⟨fun item hitem => ?_, treeKeyToU256_u256ToTreeKey (by omega)⟩
  obtain ⟨i, -, rfl⟩ := List.mem_map.mp hitem
  by_contra hle
  have hupper := upper_of_order_le (Nat.mod_lt _ (Nat.two_pow_pos 64)) (Nat.not_lt.mp hle)
  rw [word_upper hvalue] at hupper
  exact hrun ⟨k + 64 * i + 32, Nat.le_add_left _ _, hupper⟩

/-- A long run lies below bit 256. -/
theorem longRun_le (hkey : key < 2 ^ 256) {p : ℕ} (hones : key / 2 ^ p % 2 ^ 32 = 2 ^ 32 - 1) :
    p ≤ 224 := by
  by_contra hlt
  have hsmall : key / 2 ^ p < 2 ^ 31 := by
    rw [Nat.div_lt_iff_lt_mul (Nat.two_pow_pos p), ← pow_add]
    exact hkey.trans_le (Nat.pow_le_pow_right (by omega) (by omega))
  rw [Nat.mod_eq_of_lt (hsmall.trans (by decide))] at hones
  rw [hones] at hsmall
  exact absurd hsmall (by decide)

/-- Where the run starts thirty-two bits above a node, the node or its neighbour does not convert:
below the ones, the node has another one or the neighbour has its last bit. -/
theorem exists_not_converts (hkey : key < 2 ^ 256) (hrun : LongRun key) :
    ∃ h < rootTreeDepth, ∃ neiFlag, ¬ Converts (neighborIdx (key / 2 ^ h) neiFlag) := by
  obtain ⟨p, hp, hones⟩ := hrun
  have hle := longRun_le hkey hones
  have hupper : key / 2 ^ (p - 32) / 2 ^ 32 % 2 ^ 32 = 2 ^ 32 - 1 := by
    rw [Nat.div_div_eq_div_mul, ← pow_add, Nat.sub_add_cancel hp]
    exact hones
  have hword {value : ℕ} (hvalue : Converts value) : value % 2 ^ 64 < GoldilocksField.order := by
    refine hvalue.canonical _ (List.mem_map.mpr ⟨0, by simp, ?_⟩)
    simp
  unfold GoldilocksField.order at hword
  refine ⟨p - 32, by rw [rootTreeDepth_eq]; omega, ?_⟩
  by_cases hlower : key / 2 ^ (p - 32) % 2 ^ 32 = 0
  · refine ⟨true, fun hconverts => ?_⟩
    have hnext : neighborIdx (key / 2 ^ (p - 32)) true = key / 2 ^ (p - 32) + 1 := by
      rw [BatchOps.neighborIdx_true, SparseMerkle.sibling_eq, if_neg (by omega)]
    have hlt := hword hconverts
    rw [hnext] at hlt
    omega
  · refine ⟨false, fun hconverts => ?_⟩
    have hlt : key / 2 ^ (p - 32) % 2 ^ 64 < 2 ^ 64 - 2 ^ 32 + 1 := hword hconverts
    omega

namespace AccountTree

variable {Row : Type}

/-- In every run of a batch, each index converts if no key of the batch has a long run; in a run
that returns, only then. -/
theorem runBatch_converts_iff (env : TreeEnv Row) (sched : Schedule Row) (tree : AccountTree)
    (logs : List BlockLog) :
    ((∀ log ∈ logs, ¬ LongRun (treeKeyToU256 log.2.1)) →
      ∀ value ∈ (IndexCalls.runBatch env sched tree logs).calls, Converts value) ∧
    ∀ run, runBatch env sched tree logs = .ok run →
      ((∀ value ∈ (IndexCalls.runBatch env sched tree logs).calls, Converts value) ↔
        ∀ log ∈ logs, ¬ LongRun (treeKeyToU256 log.2.1)) := by
  have henough : (∀ log ∈ logs, ¬ LongRun (treeKeyToU256 log.2.1)) →
      ∀ value ∈ (IndexCalls.runBatch env sched tree logs).calls, Converts value := by
    intro hlogs value hvalue
    obtain ⟨key, hkey, h, neiFlag, rfl⟩ := IndexCalls.all_runBatch value hvalue
    obtain ⟨log, hlog, rfl⟩ := List.mem_map.mp hkey
    exact converts_of_half (treeKeyToU256_lt log.2.1) (hlogs log hlog) (neighborIdx_half _ neiFlag)
  refine ⟨henough, fun run hrun => ⟨fun hall log hlog hlong => ?_, henough⟩⟩
  obtain ⟨h, hh, neiFlag, hnot⟩ := exists_not_converts (treeKeyToU256_lt log.2.1) hlong
  exact hnot (hall _ (IndexCalls.mem_runBatch hrun hlog hh neiFlag))

/-- The largest canonical limb is the last word of this key; its neighbour is the order. -/
def sampleLongKey : TreeKey := ⟨.zero, .zero, .zero, .fromCanonicalU64 (2 ^ 64 - 2 ^ 32)⟩

def sampleLongLogs : List (TreeKey × TreeOperation) := [(sampleLongKey, .read treeKeyDefault)]

theorem sampleLongKey_longRun : LongRun (treeKeyToU256 sampleLongKey) :=
  ⟨32, le_refl _, by decide +kernel⟩

theorem sampleLongLogs_runBatch : ∃ run,
    runBatch sampleEnv sampleSchedule sampleTree (Storage.oneBlock sampleLongLogs) = .ok run := by
  obtain ⟨branches, hrun, -⟩ := runBatch_eq sampleSchedule sampleTree_consistent.nodes
    (by decide : sampleLongLogs ≠ []) (by decide +kernel)
  exact ⟨_, hrun⟩

theorem runBatch_converts_iff_sample :
    (∀ value ∈ (IndexCalls.runBatch sampleEnv sampleSchedule sampleTree
      (Storage.oneBlock [(treeKeyDefault, .delete)])).calls, Converts value) ∧
    ¬ ∀ value ∈ (IndexCalls.runBatch sampleEnv sampleSchedule sampleTree
      (Storage.oneBlock sampleLongLogs)).calls, Converts value := by
  constructor
  · refine (runBatch_converts_iff sampleEnv sampleSchedule sampleTree _).1 fun log hlog => ?_
    cases List.mem_singleton.mp hlog
    rintro ⟨p, -, hones⟩
    have hzero : treeKeyToU256 treeKeyDefault = 0 := by decide
    rw [hzero] at hones
    simp at hones
  · obtain ⟨run, hrun⟩ := sampleLongLogs_runBatch
    rw [(runBatch_converts_iff sampleEnv sampleSchedule sampleTree _).2 run hrun]
    exact fun hlogs => hlogs _ List.mem_cons_self sampleLongKey_longRun

/-- A batch that reads one leaf with a canonical key. -/
theorem runBatch_converts_counterexample :
    ¬ ∀ logs : List BlockLog, (∀ log ∈ logs, log.2.1.Canonical) →
      ∀ value ∈ (IndexCalls.runBatch sampleEnv sampleSchedule sampleTree logs).calls,
        Converts value := by
  intro h
  obtain ⟨run, hrun⟩ := sampleLongLogs_runBatch
  obtain ⟨height, hheight, neiFlag, hnot⟩ :=
    exists_not_converts (treeKeyToU256_lt sampleLongKey) sampleLongKey_longRun
  exact hnot (h _ (by decide +kernel) _
    (IndexCalls.mem_runBatch hrun List.mem_cons_self hheight neiFlag))

end AccountTree

end OlaOs
