import OlaOs.Dal.StorageLogs
import OlaOs.Dal.Transactions
import OlaOs.Lib.KeyedMap
import OlaOs.Types.BatchCommitment

/-! The metadata of the batches in the table `l1_batches` (`dal/src/blocks_dal.rs`). -/
namespace OlaOs

theorem asI64_congr {m n : ℕ} (h : m % 2 ^ 64 = n % 2 ^ 64) : asI64 m = asI64 n := by
  have hmod : (m : ℤ) % ((2 ^ 64 : ℕ) : ℤ) = (n : ℤ) % ((2 ^ 64 : ℕ) : ℤ) := by
    rw [← Int.natCast_mod, ← Int.natCast_mod, h]
  calc asI64 m = ((m : ℤ) % ((2 ^ 64 : ℕ) : ℤ)).bmod (2 ^ 64) := (Int.emod_bmod _ _).symm
    _ = ((n : ℤ) % ((2 ^ 64 : ℕ) : ℤ)).bmod (2 ^ 64) := by rw [hmod]
    _ = asI64 n := Int.emod_bmod _ _

/-- The columns of `l1_batches` that are null until the metadata of the batch is saved. -/
structure MetadataColumns where
  hash : H256
  merkleRootHash : H256
  parentHash : Option H256
  commitment : H256
  compressedInitialWrites : List UInt8
  compressedRepeatedWrites : List UInt8
  rollupLastLeafIndex : ℤ
  auxDataHash : H256
  passThroughDataHash : H256
  metaParametersHash : H256
  deriving DecidableEq

namespace MetadataColumns

def new (metadata : L1BatchMetadata) (parentHash : Option H256) : MetadataColumns where
  hash := metadata.rootHash
  merkleRootHash := metadata.merkleRootHash
  parentHash := parentHash
  commitment := metadata.commitment
  compressedInitialWrites := metadata.initialWritesCompressed
  compressedRepeatedWrites := metadata.repeatedWritesCompressed
  rollupLastLeafIndex := asI64 metadata.rollupLastLeafIndex
  auxDataHash := metadata.auxDataHash
  passThroughDataHash := metadata.passThroughDataHash
  metaParametersHash := metadata.metaParametersHash

end MetadataColumns

namespace BlocksDal

/-- The check that follows an update of no row: the root hashes and the parent hash have to be
those that are there. -/
def isMatched (columns new : MetadataColumns) : Bool :=
  columns.hash = new.hash && columns.merkleRootHash = new.merkleRootHash &&
    columns.parentHash.isSome && columns.parentHash = new.parentHash

def rootHashVerificationFailed : String :=
  "Root hash verification failed. Hashes for some of previously processed blocks " ++
    "do not match"

/-- `save_l1_batch_metadata` only writes where `hash IS NULL`. -/
def saveL1BatchMetadata (storage : StorageTables) (rows : KeyedMap ℕ MetadataColumns)
    (blockNumber : ℕ) (columns : MetadataColumns) : Except String (KeyedMap ℕ MetadataColumns) :=
  match rows.lookup blockNumber with
  | none =>
    if (storage.getL1BatchHeader blockNumber).isSome then .ok (rows.insert blockNumber columns)
    else .error rootHashVerificationFailed
  | some old =>
    if isMatched old columns then .ok rows
    else .error rootHashVerificationFailed

variable {storage : StorageTables} {rows : KeyedMap ℕ MetadataColumns} {blockNumber : ℕ}
  {columns : MetadataColumns}

/-- The same metadata can be saved again. -/
theorem saveL1BatchMetadata_ok (hheader : (storage.getL1BatchHeader blockNumber).isSome)
    (hparent : columns.parentHash.isSome)
    (hold : ∀ old, rows.lookup blockNumber = some old → old = columns) :
    ∃ rows', saveL1BatchMetadata storage rows blockNumber columns = .ok rows' ∧
      rows'.lookup blockNumber = some columns ∧
      ∀ n, n ≠ blockNumber → rows'.lookup n = rows.lookup n := by
  unfold saveL1BatchMetadata
  cases hlookup : rows.lookup blockNumber with
  | none =>
    refine ⟨_, if_pos hheader, ?_, fun n hn => ?_⟩
    · rw [KeyedMap.lookup_insert_eq, if_pos rfl]
    · rw [KeyedMap.lookup_insert_eq, if_neg hn]
  | some old =>
    obtain rfl := hold old hlookup
    refine ⟨rows, if_pos ?_, hlookup, fun _ _ => rfl⟩
    simp [isMatched, hparent]

end BlocksDal

end OlaOs
