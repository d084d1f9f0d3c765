import OlaOs.Lib.Numbered
import OlaOs.Sequencer.HistoricalReads

/-! The batch that the API expects a miniblock to be in (`resolve_l1_batch_number_of_miniblock`). -/
namespace OlaOs

open StorageTables

variable {hash : List UInt8 → H256} {t : StorageTables} {history : List SealedBatch}
  {bound : ℕ → ℕ} {pending : List LogQuery}

/-- There are too few miniblocks for a batch number that does not fit into an `i32`. -/
theorem TablesInv.length_history_le (h : TablesInv hash t history bound pending) :
    history.length ≤ 2 ^ 31 := by
  have htwo := h.miniblocks.two_each
  have hle := h.miniblocks.bound_le
  have hlength := h.miniblocks.length_le
  omega

theorem asU32_asI32 {n : ℕ} (h : n < 2 ^ 31) : (asI32 n % 2 ^ 32).toNat = n := by
  rw [asI32_of_lt h]
  omega

theorem TablesInv.pendingL1Batch_eq (h : TablesInv hash t history bound pending) (n : ℕ) :
    (t.resolveL1BatchNumberOfMiniblock n).pendingL1Batch = history.length := by
  have hle := h.length_history_le
  have hmax : ((t.l1Batches.map L1BatchHeader.number).max?.map (· + 1)).getD 0 =
      history.length := by
    have hnumbers : t.l1Batches.map L1BatchHeader.number = List.range history.length := by
      rw [h.headers, List.map_map]
      exact List.map_id _
    rw [hnumbers]
    cases hlength : history.length with
    | zero => rfl
    | succ n =>
      have hmax : (List.range (n + 1)).max? = some n := by
        rw [List.max?_eq_some_iff]
        exact ⟨by simp, fun m hm => by have := List.mem_range.mp hm; omega⟩
      rw [hmax]
      rfl
  rw [resolveL1BatchNumberOfMiniblock, hmax]
  exact Nat.mod_eq_of_lt (by omega)

/-- What the row of a miniblock says about its batch, if it is there. -/
theorem TablesInv.expectedL1Batch_eq (h : TablesInv hash t history bound pending) (n : ℕ) :
    (t.resolveL1BatchNumberOfMiniblock n).expectedL1Batch =
      ((t.miniblocks[n]?.bind MiniblockRow.l1BatchNumber).map fun number =>
        (number % 2 ^ 32).toNat).getD history.length := by
  have hnumbered : Numbered MiniblockRow.number t.miniblocks := h.miniblocks.numbers
  rw [ResolvedL1BatchForMiniblock.expectedL1Batch, h.pendingL1Batch_eq,
    resolveL1BatchNumberOfMiniblock, hnumbered.find?_eq]

namespace ChainState

variable {s s' : ChainState}

/-- A step does not change the batch expected for a sealed miniblock or for the next one. -/
theorem Step.expectedL1Batch_eq (hs : Reachable hash s) (h : Step hash s s') {n : ℕ}
    (hn : n ≤ s.io.storage.getSealedMiniblockNumber + 1) :
    (s'.io.storage.resolveL1BatchNumberOfMiniblock n).expectedL1Batch =
      (s.io.storage.resolveL1BatchNumberOfMiniblock n).expectedL1Batch := by
  obtain ⟨bound, hinv, hlength⟩ := hs.tables
  obtain ⟨bound', hinv', -⟩ := (hs.step h).tables
  rw [← hlength] at hn
  rcases h.cases hs with ⟨hstorage, -⟩ | ⟨command, isFictive, hseals⟩
  · rw [hstorage]
  · rw [hinv.tables.expectedL1Batch_eq, hinv'.tables.expectedL1Batch_eq]
    have hblocks := hseals.blocks
    unfold SealsBlocks at hblocks
    split_ifs at hblocks
    · obtain ⟨⟨batch, hhistory⟩, -, hminiblocks⟩ := hblocks
      have hcount := hinv'.tables.length_history_le
      rw [hhistory, List.length_append, List.length_singleton] at hcount
      have hbatch := asU32_asI32 (show s.history.length < 2 ^ 31 by omega)
      rw [hminiblocks, hinv.currentL1BatchNumber, List.getElem?_map]
      rcases Nat.lt_or_eq_of_le hn with hlt | rfl
      · rw [List.getElem?_append_left hlt, List.getElem?_eq_getElem hlt]
        cases hrow : s.io.storage.miniblocks[n].l1BatchNumber with
        | none => simp only [Option.map_some, Option.bind_some, hrow, Option.none_or, hbatch,
            Option.map_none, Option.getD_some, Option.getD_none]
        | some number => simp only [Option.map_some, Option.bind_some, hrow, Option.some_or,
            Option.getD_some]
      · -- the next miniblock is the fictive one
        simp only [List.getElem?_concat_length, Option.map_some, Option.bind_some, Option.none_or,
          hbatch, Option.getD_some, List.getElem?_eq_none le_rfl, Option.bind_none,
          Option.map_none, Option.getD_none]
    · obtain ⟨hhistory, -, hminiblocks⟩ := hblocks
      rw [hminiblocks, hhistory]
      rcases Nat.lt_or_eq_of_le hn with hlt | rfl
      · rw [List.getElem?_append_left hlt]
      · simp only [List.getElem?_concat_length, Option.bind_some, Option.map_none,
          Option.getD_none, List.getElem?_eq_none le_rfl, Option.bind_none]

theorem Reachable.expectedL1Batch_eq (hs : Reachable hash s)
    (hsteps : Relation.ReflTransGen (Step hash) s s') {n : ℕ}
    (hn : n ≤ s.io.storage.getSealedMiniblockNumber + 1) :
    (s'.io.storage.resolveL1BatchNumberOfMiniblock n).expectedL1Batch =
      (s.io.storage.resolveL1BatchNumberOfMiniblock n).expectedL1Batch := by
  induction hsteps with
  | refl => rfl
  | tail hsteps hstep ih =>
    have hle := (hs.rows hsteps).1
    rw [hstep.expectedL1Batch_eq (hs.trans hsteps) (by omega), ih]

end ChainState

theorem MiniblocksInv.exists_batch {miniblocks : List MiniblockRow} {batches : ℕ}
    (h : MiniblocksInv miniblocks batches bound) {n : ℕ} (hn : n < bound batches) :
    ∃ b < batches, bound b ≤ n ∧ n < bound (b + 1) := by
  have hall (k : ℕ) (hk : n < bound k) : ∃ b < k, bound b ≤ n ∧ n < bound (b + 1) := by
    induction k with
    | zero =>
      rw [h.bound_zero] at hk
      omega
    | succ k ih =>
      by_cases hlt : n < bound k
      · obtain ⟨b, hb, hrange⟩ := ih hlt
        exact ⟨b, by omega, hrange⟩
      · exact ⟨k, by omega, by omega, hk⟩
  exact hall batches hn

/-- In a state that has sealed a batch, exactly its miniblocks are expected in it. -/
theorem TablesInv.expectedL1Batch_iff (h : TablesInv hash t history bound pending) {b : ℕ}
    (hb : b < history.length) (n : ℕ) :
    (t.resolveL1BatchNumberOfMiniblock n).expectedL1Batch = b ↔ n ∈ t.miniblocksOf b := by
  rw [h.expectedL1Batch_eq, h.mem_miniblocksOf hb]
  have hlength := h.length_history_le
  have hle := h.miniblocks.bound_le_length (show b + 1 ≤ history.length from hb)
  by_cases hn : n < t.miniblocks.length
  · have hnumber : t.miniblocks[n].number = n := by
      have hnumbered : Numbered MiniblockRow.number t.miniblocks := h.miniblocks.numbers
      exact hnumbered.number_eq (List.getElem?_eq_getElem hn)
    have hsealed := h.miniblocks.sealed_iff _ (List.getElem_mem hn)
    have hpending := h.miniblocks.pending_iff _ (List.getElem_mem hn)
    rw [hnumber] at hsealed hpending
    rw [List.getElem?_eq_getElem hn, Option.bind_some]
    by_cases hbound : n < bound history.length
    · obtain ⟨b', hb', hrange⟩ := h.miniblocks.exists_batch hbound
      rw [(hsealed b').mpr ⟨hb', hrange⟩]
      have hsame : ((b' : ℤ) % 2 ^ 32).toNat = b' := by omega
      simp only [Option.map_some, Option.getD_some, hsame]
      refine ⟨fun heq => heq ▸ hrange, fun hrange' => ?_⟩
      have hrow := (hsealed b').mpr ⟨hb', hrange⟩
      rw [(hsealed b).mpr ⟨hb, hrange'⟩] at hrow
      simpa using hrow.symm
    · rw [hpending.mpr (by omega)]
      have hmono := h.miniblocks.bound_mono (show b + 1 ≤ history.length from hb) le_rfl
      simp only [Option.map_none, Option.getD_none]
      omega
  · rw [List.getElem?_eq_none (by omega)]
    simp only [Option.bind_none, Option.map_none, Option.getD_none]
    omega

/-- The batch expected for a sealed miniblock, or for the next one, at any time is the one that
holds it as soon as it is sealed, at any later time. -/
theorem ChainState.Reachable.expectedL1Batch_final (hash : List UInt8 → H256) (s s' : ChainState)
    (hs : Reachable hash s) (hsteps : Relation.ReflTransGen (Step hash) s s') (n : ℕ)
    (hn : n ≤ s.io.storage.getSealedMiniblockNumber + 1) (b : ℕ) (hb : b < s'.history.length) :
    (s.io.storage.resolveL1BatchNumberOfMiniblock n).expectedL1Batch = b ↔
      n ∈ s'.io.storage.miniblocksOf b := by
  obtain ⟨bound, hinv, -⟩ := (hs.trans hsteps).tables
  rw [← hs.expectedL1Batch_eq hsteps hn]
  exact hinv.tables.expectedL1Batch_iff hb n

/-- In the genesis state of the sample the next miniblock is expected in batch 1. -/
theorem ChainState.Reachable.expectedL1Batch_final_sample :
    ∃ s s' : ChainState, Reachable sampleHash s ∧
    s.io.storage.getSealedMiniblockNumber = 0 ∧ s'.history.length = 2 ∧
    ((s.io.storage.resolveL1BatchNumberOfMiniblock 1).expectedL1Batch = 1 ↔
      1 ∈ s'.io.storage.miniblocksOf 1) := by
  obtain ⟨s, s', hs, hsteps, hzero, hhistory, -⟩ := reachable_sample
  refine ⟨s, s', hs, hzero, congrArg List.length hhistory, ?_⟩
  refine expectedL1Batch_final sampleHash s s' hs hsteps 1 (by rw [hzero]) 1 ?_
  rw [hhistory]
  decide

end OlaOs
