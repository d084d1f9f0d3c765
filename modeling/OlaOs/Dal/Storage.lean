import OlaOs.Dal.StorageLogs
import OlaOs.Lib.Upsert

/-! The table `storage` (`dal/src/storage_dal.rs`) and the queries of the API on `storage_logs` and
the blocks (`dal/src/storage_web3_dal.rs`, `dal/src/blocks_dal.rs`). -/
namespace OlaOs

/-- A row of `storage`, without its timestamps. -/
structure StorageRow where
  hashedKey : H256
  address : Address
  key : H256
  value : H256
  txHash : H256
  deriving DecidableEq

namespace StorageDal

/-- The last value of each key, with the transaction that wrote it. -/
def uniqueUpdates (updates : List (H256 × List StorageLog)) : KeyedMap StorageKey (H256 × H256) :=
  .ofList (updates.flatMap fun (txHash, storageLogs) =>
    storageLogs.map fun log => (log.key, (txHash, log.value)))

/-- `DO UPDATE SET tx_hash = excluded.tx_hash, value = excluded.value` -/
def setExcluded (old excluded : StorageRow) : StorageRow :=
  { old with txHash := excluded.txHash, value := excluded.value }

/-- `apply_storage_logs`. The statement may not meet one hashed key twice; in which order it meets
them is not specified. -/
def applyStorageLogs (hash : List UInt8 → H256) (storage : List StorageRow)
    (updates : List (H256 × List StorageLog)) :
    Except String (List StorageRow × KeyedMap StorageKey (H256 × H256)) :=
  let queryParts := (uniqueUpdates updates).toList.map fun (key, (txHash, value)) =>
    (⟨key.hashedKey hash, key.account, key.key, value, txHash⟩ : StorageRow)
  if (queryParts.map StorageRow.hashedKey).Nodup then
    .ok (queryParts.foldl (Upsert.upsert StorageRow.hashedKey setExcluded) storage,
      uniqueUpdates updates)
  else .error "ON CONFLICT DO UPDATE command cannot affect row a second time"

end StorageDal

/-- `get_nonce_key` -/
def getNonceKey (hash : List UInt8 → H256) (account : Address) : StorageKey :=
  ⟨u256ToH256 0x8003, hash (H256.zero.bytes ++ account.bytes)⟩

namespace StorageTables

variable (hash : List UInt8 → H256) (t : StorageTables)

/-- `get_sealed_miniblock_number`; zero without a miniblock. -/
def getSealedMiniblockNumber : ℕ := (t.miniblocks.map MiniblockRow.number).max?.getD 0

/-- The value of `get_historical_value_unchecked`, by hashed key; the last row comes first there. -/
def historicalValue (hashedKey : H256) (blockNumber : ℕ) : Option H256 :=
  ((t.orderedLogs fun row => row.hashedKey = hashedKey &&
    row.miniblockNumber ≤ blockNumber).getLast?).map StorageLogRow.value

def getHistoricalValueUnchecked (key : StorageKey) (blockNumber : ℕ) : H256 :=
  (t.historicalValue (key.hashedKey hash) blockNumber).getD .zero

def getAddressHistoricalNonce (address : Address) (blockNumber : ℕ) : U256 :=
  h256ToU256 (t.getHistoricalValueUnchecked hash (getNonceKey hash address) blockNumber)

/-- The hashed keys with a log in one of the miniblocks from `start` to `stop`. -/
def modifiedKeysInMiniblocks (start stop : ℕ) : List H256 :=
  ((t.storageLogs.filter fun row => start ≤ row.miniblockNumber && row.miniblockNumber ≤ stop).map
    StorageLogRow.hashedKey).dedup

end StorageTables

/-- `ResolvedL1BatchForMiniblock` -/
structure ResolvedL1BatchForMiniblock where
  miniblockL1Batch : Option ℕ
  pendingL1Batch : ℕ

def ResolvedL1BatchForMiniblock.expectedL1Batch (resolved : ResolvedL1BatchForMiniblock) : ℕ :=
  resolved.miniblockL1Batch.getD resolved.pendingL1Batch

/-- `resolve_l1_batch_number_of_miniblock`; the columns are cast to `u32`. -/
def StorageTables.resolveL1BatchNumberOfMiniblock (t : StorageTables) (miniblockNumber : ℕ) :
    ResolvedL1BatchForMiniblock where
  miniblockL1Batch := ((t.miniblocks.find? fun row => row.number = miniblockNumber).bind
    MiniblockRow.l1BatchNumber).map fun n => (n % 2 ^ 32).toNat
  pendingL1Batch :=
    (((t.l1Batches.map L1BatchHeader.number).max?.map (· + 1)).getD 0) % 2 ^ 32

end OlaOs
