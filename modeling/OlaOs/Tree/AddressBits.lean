import OlaOs.Tree.ProofChain

/-! The address columns of the witness against the path in the tree. The path is the hashed key
read from its first byte on; `layer_bit` and `addr_acc` are taken from the hashed key read from
its last byte on. -/
namespace OlaOs

open BatchOps

variable {Row : Type}

/-- Limb `i` of a tree key, from the most significant one. -/
def TreeKey.limb (k : TreeKey) (i : ℕ) : GoldilocksField := k.toList.getD i .zero

/-- The address columns of access `k` agree with the path of its log. -/
structure AddressAgrees (env : TreeEnv Row) (trace : StorageUpdateTrace Row)
    (log : WitnessStorageLog) (k : ℕ) : Prop where
  bits : ∀ l row, 1 ≤ l → l ≤ rootTreeDepth → trace.row k l = some row →
    (row.layerBit = 1 ↔
      treeKeyToU256 (log.treeKey env) / 2 ^ (rootTreeDepth - l) % 2 = 1)
  limbs : ∀ i < 4, ∀ row, trace.row k (64 * (i + 1)) = some row → row.addrAcc = row.addr.limb i

/-- The thirty-two bytes of the hashed key of a log. -/
def WitnessStorageLog.hashedKeyBytes (env : TreeEnv Row) (log : WitnessStorageLog) : List UInt8 :=
  (log.storageLog.key.hashedKey env.poseidonHashBytes).bytes

theorem eq_of_bits_eq {a b w : ℕ} (ha : a < 2 ^ w) (hb : b < 2 ^ w)
    (h : ∀ i < w, (a / 2 ^ i % 2 = 1 ↔ b / 2 ^ i % 2 = 1)) : a = b := by
  apply Nat.eq_of_testBit_eq
  intro i
  by_cases hi : i < w
  · rw [Nat.testBit_eq_decide_div_mod_eq, Nat.testBit_eq_decide_div_mod_eq]
    exact decide_eq_decide.mpr (h i hi)
  · have hw : 2 ^ w ≤ 2 ^ i := Nat.pow_le_pow_right (by omega) (by omega)
    rw [Nat.testBit_eq_false_of_lt (by omega), Nat.testBit_eq_false_of_lt (by omega)]

namespace AccountTree

variable {env : TreeEnv Row} {m : ℕ → TreeValue}

/-- Both readings of the hashed key are the same number exactly when its bytes read the same in
both directions. -/
theorem hashedKeyU256_eq_iff (log : WitnessStorageLog) :
    log.storageLog.key.hashedKeyU256 env.poseidonHashBytes = treeKeyToU256 (log.treeKey env) ↔
      (log.hashedKeyBytes env).reverse = log.hashedKeyBytes env := by
  rw [WitnessStorageLog.treeKey, TreeEnv.treeKeyOf, treeKeyToU256_h256ToTreeKey]
  constructor
  · exact fun h => Bytes.ofBE_inj (List.length_reverse) h
  · exact fun h => congrArg Bytes.ofBE h

theorem hashedKeyU256_lt (log : WitnessStorageLog) :
    log.storageLog.key.hashedKeyU256 env.poseidonHashBytes < 2 ^ 256 := by
  have hlt := Bytes.ofBE_lt (log.hashedKeyBytes env).reverse
  rw [List.length_reverse, WitnessStorageLog.hashedKeyBytes, H256.len] at hlt
  exact hlt.trans_eq (by norm_num)

/-- Limb `i` of a canonical key, as the accumulator computes it. -/
theorem addrAccAt_limb {k : TreeKey} (hk : k.Canonical) {i : ℕ} (hi : i < 4) :
    addrAccAt (treeKeyToU256 k) (64 * (i + 1) - 1) = k.limb i := by
  have word (x : GoldilocksField) (hx : x.Canonical) {n : ℕ} (hn : n = x.inner.toNat) :
      GoldilocksField.fromCanonicalU64 (n % GoldilocksField.order) = x := by
    rw [hn, Nat.mod_eq_of_lt hx, GoldilocksField.fromCanonicalU64_toNat]
  have h1 := k.w1.inner.toNat_lt
  have h2 := k.w2.inner.toNat_lt
  have h3 := k.w3.inner.toNat_lt
  have h0 := k.w0.inner.toNat_lt
  obtain ⟨hc0, hc1, hc2, hc3⟩ := hk
  rw [addrAccAt, treeKeyToU256_eq]
  obtain rfl | rfl | rfl | rfl : i = 0 ∨ i = 1 ∨ i = 2 ∨ i = 3 := by omega
  · exact word k.w0 hc0 (by norm_num; omega)
  · exact word k.w1 hc1 (by norm_num; omega)
  · exact word k.w2 hc2 (by norm_num; omega)
  · exact word k.w3 hc3 (by norm_num)

/-- The address columns of an access agree with its path exactly when both readings of the hashed
key are the same number. -/
theorem addressAgrees_iff (hkeys : env.CanonicalKeys) (tree : AccountTree)
    {logs : List WitnessStorageLog} (poseidon : List Row) {k : ℕ} (hk : k < logs.length) :
    AddressAgrees env (blockWitness env m tree logs poseidon) logs[k] k ↔
      (logs[k].hashedKeyBytes env).reverse = logs[k].hashedKeyBytes env := by
  have hlayer (l : ℕ) (hl : 1 ≤ l) : 255 - (l - 1) = rootTreeDepth - l := by
    rw [rootTreeDepth_eq]
    omega
  rw [← hashedKeyU256_eq_iff]
  constructor
  · intro h
    apply eq_of_bits_eq (hashedKeyU256_lt logs[k]) (treeKeyToU256_lt _)
    intro i hi
    have hl : 256 - i ≤ rootTreeDepth := by rw [rootTreeDepth_eq]; omega
    obtain ⟨row, hrow, hof⟩ := blockWitness_row env m tree poseidon hk
      (by omega : 1 ≤ 256 - i) hl
    have hbit := h.bits (256 - i) row (by omega) hl hrow
    rw [hof.layerBit, hlayer _ (by omega), show rootTreeDepth - (256 - i) = i by
      rw [rootTreeDepth_eq]; omega] at hbit
    exact hbit
  · intro h
    constructor
    · intro l row hl hl' hrow
      have hof := rowOf_row hk hl hl' hrow
      rw [hof.layerBit, hlayer l hl, accessContext, h]
    · intro i hi row hrow
      have hof := rowOf_row hk (by omega : 1 ≤ 64 * (i + 1))
        (by rw [rootTreeDepth_eq]; omega) hrow
      have hcanon : (logs[k].treeKey env).Canonical := hkeys _
      have hacc := addrAccAt_limb hcanon hi
      rw [← h] at hacc
      rw [hof.addrAcc, hof.addr]
      exact hacc

/-- For every log of a block, the address columns agree with the path in the tree if and only if
the bytes of its hashed key read the same in both directions. -/
theorem processBlock_addressAgrees_iff (env : TreeEnv Row) (sched : Schedule Row)
    (hout : env.hasher.TraceOutput) (hkeys : env.CanonicalKeys) (m : ℕ → TreeValue)
    (tree : AccountTree) (htree : ConsistentTree env m tree) (logs : List WitnessStorageLog)
    (hne : logs ≠ []) :
    ∃ metadata tree' trace, processBlock env sched tree logs = .ok (metadata, tree') ∧
      metadata.witness = some trace ∧ ∀ k (hk : k < logs.length),
        (AddressAgrees env trace logs[k] k ↔
          (logs[k].hashedKeyBytes env).reverse = logs[k].hashedKeyBytes env) := by
  obtain ⟨branches, poseidon, -, hblock⟩ := processBlock_eq hout hkeys sched htree.nodes hne
  exact ⟨_, _, blockWitness env m tree logs poseidon, hblock, rfl,
    fun k hk => addressAgrees_iff hkeys tree poseidon hk⟩

/-- The hash of the sample key ends in its only non-zero byte, so the two readings differ. -/
theorem sampleWitnessLogs_not_palindrome :
    (sampleWitnessLogs[0].hashedKeyBytes sampleEnv).reverse ≠
      sampleWitnessLogs[0].hashedKeyBytes sampleEnv := by
  decide +kernel

theorem processBlock_addressAgrees_counterexample :
    ¬ ∀ metadata tree' trace,
      processBlock sampleEnv sampleSchedule sampleTree sampleWitnessLogs = .ok (metadata, tree') →
      metadata.witness = some trace → ∀ k (hk : k < sampleWitnessLogs.length),
        AddressAgrees sampleEnv trace sampleWitnessLogs[k] k := by
  intro h
  obtain ⟨branches, poseidon, -, hblock⟩ := processBlock_eq sampleEnv_traceOutput
    sampleEnv_canonicalKeys sampleSchedule sampleTree_consistent.nodes
    (by decide : sampleWitnessLogs ≠ [])
  have hagree := h _ _ _ hblock rfl 0 (by decide)
  exact sampleWitnessLogs_not_palindrome ((addressAgrees_iff sampleEnv_canonicalKeys sampleTree
    poseidon (by decide)).mp hagree)

/-- A log whose hashed key is all zeros, where the two readings agree. -/
def sampleZeroLog : WitnessStorageLog :=
  ⟨⟨.write, ⟨.zero, .zero⟩, .zero⟩, .zero⟩

theorem processBlock_addressAgrees_iff_sample : ∃ metadata tree' trace,
    processBlock sampleEnv sampleSchedule sampleTree [sampleZeroLog] = .ok (metadata, tree') ∧
      metadata.witness = some trace ∧ AddressAgrees sampleEnv trace sampleZeroLog 0 := by
  obtain ⟨metadata, tree', trace, hblock, hwitness, hiff⟩ :=
    processBlock_addressAgrees_iff sampleEnv sampleSchedule sampleEnv_traceOutput
      sampleEnv_canonicalKeys _ sampleTree sampleTree_consistent [sampleZeroLog] (by simp)
  exact ⟨metadata, tree', trace, hblock, hwitness, (hiff 0 (by simp)).mpr (by decide +kernel)⟩

end AccountTree

end OlaOs
