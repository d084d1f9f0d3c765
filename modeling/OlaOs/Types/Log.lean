import OlaOs.Types.Basic

/-! Storage logs (`types/src/storage/log.rs`). -/
namespace OlaOs

inductive StorageLogKind where
  | read
  | write
  deriving DecidableEq

/-- `kind as u64` -/
def StorageLogKind.toNat : StorageLogKind → ℕ
  | .read => 0
  | .write => 1

structure StorageLog where
  kind : StorageLogKind
  key : StorageKey
  value : H256
  deriving DecidableEq

structure WitnessStorageLog where
  storageLog : StorageLog
  previousValue : H256
  deriving DecidableEq

end OlaOs
