import OlaOs.Types.Commitment

/-! The commitment to a batch (`types/src/commitment.rs`), and what it binds. -/
namespace OlaOs

structure RootState where
  lastLeafIndex : ℕ
  rootHash : H256
  deriving DecidableEq

structure L1BatchPassThroughData where
  sharedStates : List RootState
  deriving DecidableEq

/-- The write sets themselves are not read again, only their bytes and hashes. -/
structure L1BatchAuxiliaryOutput where
  initialWritesCompressed : List UInt8
  initialWritesHash : H256
  repeatedWritesCompressed : List UInt8
  repeatedWritesHash : H256
  deriving DecidableEq

structure L1BatchMetaParameters where
  bootloaderCodeHash : H256
  defaultAaCodeHash : H256
  deriving DecidableEq

structure L1BatchCommitment where
  passThroughData : L1BatchPassThroughData
  auxiliaryOutput : L1BatchAuxiliaryOutput
  metaParameters : L1BatchMetaParameters
  deriving DecidableEq

structure L1BatchCommitmentHash where
  passThroughData : H256
  auxOutput : H256
  metaParameters : H256
  commitment : H256
  deriving DecidableEq

structure L1BatchMetadata where
  rootHash : H256
  rollupLastLeafIndex : ℕ
  merkleRootHash : H256
  initialWritesCompressed : List UInt8
  repeatedWritesCompressed : List UInt8
  commitment : H256
  l2L1MessagesCompressed : List UInt8
  l2L1MerkleRoot : H256
  blockMetaParams : L1BatchMetaParameters
  auxDataHash : H256
  metaParametersHash : H256
  passThroughDataHash : H256
  stateDiffsCompressed : List UInt8
  eventsQueueCommitment : Option H256
  deriving DecidableEq

/-- `to_bytes`; its assertions panic. -/
def L1BatchPassThroughData.toBytes (data : L1BatchPassThroughData) : Except String (List UInt8) :=
  if data.sharedStates.length ≠ 1 then
    .error ("Shared states' length is " ++ toString data.sharedStates.length ++ " instead of 1")
  else
    let result := data.sharedStates.flatMap fun state =>
      Bytes.toBE 8 state.lastLeafIndex ++ state.rootHash.bytes
    if result.length = 8 + 32 then .ok result
    else .error "Serialized size for BlockPassThroughData is bigger than expected"

namespace L1BatchAuxiliaryOutput

def new (hashBytes : List UInt8 → H256) (initialWrites : List InitialStorageWrite)
    (repeatedWrites : List RepeatedStorageWrite) : L1BatchAuxiliaryOutput :=
  let initialWritesCompressed :=
    serializeCommitments InitialStorageWrite.serializeCommitment initialWrites
  let repeatedWritesCompressed :=
    serializeCommitments RepeatedStorageWrite.serializeCommitment repeatedWrites
  { initialWritesCompressed := initialWritesCompressed
    initialWritesHash := hashBytes initialWritesCompressed
    repeatedWritesCompressed := repeatedWritesCompressed
    repeatedWritesHash := hashBytes repeatedWritesCompressed }

def toBytes (output : L1BatchAuxiliaryOutput) : List UInt8 :=
  output.initialWritesHash.bytes ++ output.repeatedWritesHash.bytes

end L1BatchAuxiliaryOutput

def L1BatchMetaParameters.toBytes (parameters : L1BatchMetaParameters) : List UInt8 :=
  parameters.bootloaderCodeHash.bytes ++ parameters.defaultAaCodeHash.bytes

namespace L1BatchCommitment

def new (hashBytes : List UInt8 → H256) (rollupLastLeafIndex : ℕ) (rollupRootHash : H256)
    (initialWrites : List InitialStorageWrite) (repeatedWrites : List RepeatedStorageWrite)
    (metaParameters : L1BatchMetaParameters) : L1BatchCommitment where
  passThroughData := ⟨[⟨rollupLastLeafIndex, rollupRootHash⟩]⟩
  auxiliaryOutput := .new hashBytes initialWrites repeatedWrites
  metaParameters := metaParameters

/-- The three hashes in the order of the source: pass-through data, meta parameters, output. -/
def hash (hashBytes : List UInt8 → H256) (commitment : L1BatchCommitment) :
    Except String L1BatchCommitmentHash := do
  let passThroughData ← commitment.passThroughData.toBytes
  let passThroughDataHash := hashBytes passThroughData
  let metadataHash := hashBytes commitment.metaParameters.toBytes
  let auxiliaryOutputHash := hashBytes commitment.auxiliaryOutput.toBytes
  return {
    passThroughData := passThroughDataHash
    auxOutput := auxiliaryOutputHash
    metaParameters := metadataHash
    commitment := hashBytes
      (passThroughDataHash.bytes ++ metadataHash.bytes ++ auxiliaryOutputHash.bytes) }

end L1BatchCommitment

theorem H256.bytes_injective : Function.Injective H256.bytes := by
  rintro ⟨bytes, hlen⟩ ⟨bytes', hlen'⟩ h
  cases h
  rfl

/-- Hashes that are written one behind the other are read back. -/
theorem H256.append_inj {a b : H256} {as bs : List UInt8} (h : a.bytes ++ as = b.bytes ++ bs) :
    a = b ∧ as = bs := by
  obtain ⟨hhead, htail⟩ := List.append_inj h (a.len.trans b.len.symm)
  exact ⟨H256.bytes_injective hhead, htail⟩

namespace L1BatchMetaParameters

theorem toBytes_injective : Function.Injective toBytes := by
  rintro ⟨bootloader, defaultAa⟩ ⟨bootloader', defaultAa'⟩ h
  obtain ⟨rfl, hrest⟩ := H256.append_inj h
  obtain rfl := H256.bytes_injective hrest
  rfl

end L1BatchMetaParameters

/-- What the commitment of a batch is made of. -/
structure CommittedBatch where
  rollupLastLeafIndex : ℕ
  rollupRootHash : H256
  initialWrites : List InitialStorageWrite
  repeatedWrites : List RepeatedStorageWrite
  metaParameters : L1BatchMetaParameters

namespace CommittedBatch

variable (hashBytes : List UInt8 → H256) (batch : CommittedBatch)

def initialWritesCompressed : List UInt8 :=
  serializeCommitments InitialStorageWrite.serializeCommitment batch.initialWrites

def repeatedWritesCompressed : List UInt8 :=
  serializeCommitments RepeatedStorageWrite.serializeCommitment batch.repeatedWrites

def commitment : L1BatchCommitment :=
  .new hashBytes batch.rollupLastLeafIndex batch.rollupRootHash batch.initialWrites
    batch.repeatedWrites batch.metaParameters

def passThroughBytes : List UInt8 :=
  Bytes.toBE 8 batch.rollupLastLeafIndex ++ batch.rollupRootHash.bytes

def auxiliaryBytes : List UInt8 :=
  (hashBytes batch.initialWritesCompressed).bytes ++
    (hashBytes batch.repeatedWritesCompressed).bytes

def commitmentBytes : List UInt8 :=
  (hashBytes batch.passThroughBytes).bytes ++ (hashBytes batch.metaParameters.toBytes).bytes ++
    (hashBytes (batch.auxiliaryBytes hashBytes)).bytes

/-- The hashes of a batch; no assertion fires. -/
def hashes : L1BatchCommitmentHash where
  passThroughData := hashBytes batch.passThroughBytes
  auxOutput := hashBytes (batch.auxiliaryBytes hashBytes)
  metaParameters := hashBytes batch.metaParameters.toBytes
  commitment := hashBytes (batch.commitmentBytes hashBytes)

theorem hash_commitment :
    (batch.commitment hashBytes).hash hashBytes = .ok (batch.hashes hashBytes) := by
  have hstates : (batch.commitment hashBytes).passThroughData.toBytes =
      .ok batch.passThroughBytes := by
    have hlength : batch.passThroughBytes.length = 8 + 32 := by
      rw [passThroughBytes, List.length_append, Bytes.length_toBE, batch.rollupRootHash.len]
    have hbytes : (batch.commitment hashBytes).passThroughData.sharedStates.flatMap
        (fun state => Bytes.toBE 8 state.lastLeafIndex ++ state.rootHash.bytes) =
          batch.passThroughBytes := List.flatMap_singleton _ _
    have hone : (batch.commitment hashBytes).passThroughData.sharedStates.length = 1 := rfl
    rw [L1BatchPassThroughData.toBytes, if_neg (not_not.mpr hone)]
    dsimp only
    rw [hbytes, if_pos hlength]
  unfold L1BatchCommitment.hash
  rw [hstates]
  rfl

/-- The metadata of a batch. The fields that the code has no values for yet are empty. -/
def metadata : L1BatchMetadata where
  rootHash := batch.rollupRootHash
  rollupLastLeafIndex := batch.rollupLastLeafIndex
  merkleRootHash := batch.rollupRootHash
  initialWritesCompressed := batch.initialWritesCompressed
  repeatedWritesCompressed := batch.repeatedWritesCompressed
  commitment := (batch.hashes hashBytes).commitment
  l2L1MessagesCompressed := []
  l2L1MerkleRoot := .zero
  blockMetaParams := batch.metaParameters
  auxDataHash := (batch.hashes hashBytes).auxOutput
  metaParametersHash := (batch.hashes hashBytes).metaParameters
  passThroughDataHash := (batch.hashes hashBytes).passThroughData
  stateDiffsCompressed := []
  eventsQueueCommitment := none

/-- The strings that are hashed for the commitment. -/
def hashed : List (List UInt8) :=
  [batch.initialWritesCompressed, batch.repeatedWritesCompressed, batch.auxiliaryBytes hashBytes,
    batch.metaParameters.toBytes, batch.passThroughBytes, batch.commitmentBytes hashBytes]

/-- The strings that are hashed at one place of the two commitments do not collide. -/
def Apart (hashBytes : List UInt8 → H256) (batch batch' : CommittedBatch) : Prop :=
  ∀ bytes bytes', (bytes, bytes') ∈ (batch.hashed hashBytes).zip (batch'.hashed hashBytes) →
    hashBytes bytes = hashBytes bytes' → bytes = bytes'

/-- What two batches with one commitment have in common. -/
structure SameContent (batch batch' : CommittedBatch) : Prop where
  lastLeafIndex : batch.rollupLastLeafIndex % 2 ^ 64 = batch'.rollupLastLeafIndex % 2 ^ 64
  rootHash : batch.rollupRootHash = batch'.rollupRootHash
  initialWrites : batch.initialWritesCompressed = batch'.initialWritesCompressed
  repeatedWrites : batch.repeatedWritesCompressed = batch'.repeatedWritesCompressed
  metaParameters : batch.metaParameters = batch'.metaParameters

variable {hashBytes batch} {batch' : CommittedBatch}

theorem Apart.refl (hashBytes : List UInt8 → H256) (batch : CommittedBatch) :
    Apart hashBytes batch batch := by
  intro bytes bytes' hmem _
  simp only [hashed, List.zip_cons_cons, List.zip_nil_right, List.mem_cons, List.not_mem_nil,
    Prod.mk.injEq, or_false] at hmem
  rcases hmem with ⟨rfl, rfl⟩ | ⟨rfl, rfl⟩ | ⟨rfl, rfl⟩ | ⟨rfl, rfl⟩ | ⟨rfl, rfl⟩ | ⟨rfl, rfl⟩ <;>
    rfl

/-- When the strings hashed for two batches do not collide, their commitment binds the root, the
last index, the published writes and the code hashes. -/
theorem sameContent_of_commitment (hapart : Apart hashBytes batch batch')
    (h : (batch.hashes hashBytes).commitment = (batch'.hashes hashBytes).commitment) :
    SameContent batch batch' := by
  have hall : batch.commitmentBytes hashBytes = batch'.commitmentBytes hashBytes :=
    hapart _ _ (by simp [hashed]) h
  rw [commitmentBytes, commitmentBytes, List.append_assoc, List.append_assoc] at hall
  obtain ⟨hpass, hall⟩ := H256.append_inj hall
  obtain ⟨hmeta, haux⟩ := H256.append_inj hall
  have hpassBytes := hapart _ _ (by simp [hashed]) hpass
  have hmetaBytes := hapart _ _ (by simp [hashed]) hmeta
  have hauxBytes := hapart _ _ (by simp [hashed]) (H256.bytes_injective haux)
  obtain ⟨hinitial, hrepeated⟩ := H256.append_inj hauxBytes
  obtain ⟨hindex, hroot⟩ := List.append_inj hpassBytes (by simp)
  refine ⟨?_, H256.bytes_injective hroot, ?_, ?_, ?_⟩
  · have hnumber := congrArg Bytes.ofBE hindex
    rwa [Bytes.ofBE_toBE, Bytes.ofBE_toBE] at hnumber
  · exact hapart _ _ (by simp [hashed]) hinitial
  · exact hapart _ _ (by simp [hashed]) (H256.bytes_injective hrepeated)
  · exact L1BatchMetaParameters.toBytes_injective hmetaBytes

end CommittedBatch

end OlaOs
