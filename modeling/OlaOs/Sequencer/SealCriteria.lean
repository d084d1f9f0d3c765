import OlaOs.Dedup.WritesDeduplicator

/-! When a batch is sealed (`ola_core/src/sequencer/seal_criteria`). -/
namespace OlaOs

inductive SealResolution where
  | noSeal
  | includeAndSeal
  | excludeAndSeal
  | unexecutable (reason : String)
  deriving DecidableEq

namespace SealResolution

def stricter : SealResolution → SealResolution → SealResolution
  | .unexecutable reason, _ => .unexecutable reason
  | _, .unexecutable reason => .unexecutable reason
  | .excludeAndSeal, _ => .excludeAndSeal
  | _, .excludeAndSeal => .excludeAndSeal
  | .includeAndSeal, _ => .includeAndSeal
  | _, .includeAndSeal => .includeAndSeal
  | .noSeal, .noSeal => .noSeal

def shouldSeal : SealResolution → Bool
  | .includeAndSeal | .excludeAndSeal => true
  | .noSeal | .unexecutable _ => false

/-- The resolutions with which the transaction stays in the batch. -/
def includes : SealResolution → Bool
  | .noSeal | .includeAndSeal => true
  | .excludeAndSeal | .unexecutable _ => false

theorem includes_stricter (a b : SealResolution) :
    (a.stricter b).includes = (a.includes && b.includes) := by
  cases a <;> cases b <;> rfl

end SealResolution

def txEncodingSpace : ℕ := 2 ^ 25

/-- The limits of the configuration. The two bounds are the shares
`reject_tx_at_geometry_percentage` and `close_block_at_geometry_percentage` of the encoding space,
after rounding. -/
structure SequencerConfig where
  transactionSlots : ℕ
  rejectBound : ℕ
  includeAndSealBound : ℕ

structure SealData where
  cumulativeSize : ℕ
  writesMetrics : DeduplicatedWritesMetrics

/-- `SealCriterion::should_seal`, from the configuration, the number of transactions, the data of
the block and the data of the transaction. -/
abbrev SealCriterion := SequencerConfig → ℕ → SealData → SealData → SealResolution

def slotsCriterion : SealCriterion := fun config txCount _ _ =>
  if txCount ≥ config.transactionSlots then .includeAndSeal else .noSeal

def txEncodingSizeCriterion : SealCriterion := fun config _ blockData txData =>
  if txData.cumulativeSize > config.rejectBound then
    .unexecutable "Transaction cannot be included due to large encoding size"
  else if blockData.cumulativeSize > txEncodingSpace then .excludeAndSeal
  else if blockData.cumulativeSize > config.includeAndSealBound then .includeAndSeal
  else .noSeal

namespace ConditionalSealer

def defaultSealers : List SealCriterion := [slotsCriterion, txEncodingSizeCriterion]

def shouldSealL1Batch (config : SequencerConfig) (txCount : ℕ) (blockData txData : SealData) :
    SealResolution :=
  defaultSealers.foldl (fun resolution sealer =>
    resolution.stricter (sealer config txCount blockData txData)) .noSeal

/-- A transaction stays in the batch exactly if its encoding fits. -/
theorem includes_shouldSealL1Batch (config : SequencerConfig) (txCount : ℕ)
    (blockData txData : SealData) :
    (shouldSealL1Batch config txCount blockData txData).includes = true ↔
      txData.cumulativeSize ≤ config.rejectBound ∧ blockData.cumulativeSize ≤ txEncodingSpace := by
  have hslots : (slotsCriterion config txCount blockData txData).includes = true := by
    unfold slotsCriterion
    split_ifs <;> rfl
  have hsize : (txEncodingSizeCriterion config txCount blockData txData).includes = true ↔
      txData.cumulativeSize ≤ config.rejectBound ∧ blockData.cumulativeSize ≤ txEncodingSpace := by
    unfold txEncodingSizeCriterion
    split_ifs with hreject hspace hbound
    · exact iff_of_false nofun (by omega)
    · exact iff_of_false nofun (by omega)
    · exact iff_of_true rfl ⟨by omega, by omega⟩
    · exact iff_of_true rfl ⟨by omega, by omega⟩
  simp only [shouldSealL1Batch, defaultSealers, List.foldl_cons, List.foldl_nil,
    SealResolution.includes_stricter, hslots, Bool.and_true]
  simpa [SealResolution.includes] using hsize

/-- A batch stays open only with a free slot. -/
theorem slots_of_noSeal {config : SequencerConfig} {txCount : ℕ} {blockData txData : SealData}
    (h : shouldSealL1Batch config txCount blockData txData = .noSeal) :
    txCount < config.transactionSlots := by
  by_contra hfull
  have hslots : slotsCriterion config txCount blockData txData = .includeAndSeal :=
    if_pos (Nat.le_of_not_lt hfull)
  simp only [shouldSealL1Batch, defaultSealers, List.foldl_cons, List.foldl_nil, hslots] at h
  cases hsize : txEncodingSizeCriterion config txCount blockData txData <;> rw [hsize] at h <;>
    cases h

/-- A transaction is left for the next batch only if it is too much for this one. -/
theorem space_of_excludeAndSeal {config : SequencerConfig} {txCount : ℕ}
    {blockData txData : SealData}
    (h : shouldSealL1Batch config txCount blockData txData = .excludeAndSeal) :
    txData.cumulativeSize ≤ config.rejectBound ∧ txEncodingSpace < blockData.cumulativeSize := by
  have hincludes : (shouldSealL1Batch config txCount blockData txData).includes = false := by
    rw [h]
    rfl
  have hfits := mt (includes_shouldSealL1Batch config txCount blockData txData).mpr
    (Bool.eq_false_iff.mp hincludes)
  have hreject : txData.cumulativeSize ≤ config.rejectBound := by
    by_contra hlarge
    have hsize : txEncodingSizeCriterion config txCount blockData txData =
        .unexecutable "Transaction cannot be included due to large encoding size" :=
      if_pos (Nat.lt_of_not_le hlarge)
    simp only [shouldSealL1Batch, defaultSealers, List.foldl_cons, List.foldl_nil, hsize] at h
    cases hslots : slotsCriterion config txCount blockData txData <;> rw [hslots] at h <;> cases h
  exact ⟨hreject, Nat.lt_of_not_le fun hspace => hfits ⟨hreject, hspace⟩⟩

end ConditionalSealer

/-- The seal manager of a node; external nodes have no conditional sealer. -/
structure SealManager where
  conditionalSealer : Option SequencerConfig

def SealManager.shouldSealL1Batch (sealer : SealManager) (txCount : ℕ)
    (blockData txData : SealData) : SealResolution :=
  match sealer.conditionalSealer with
  | some config => ConditionalSealer.shouldSealL1Batch config txCount blockData txData
  | none => .noSeal

end OlaOs
