import Mathlib.Data.Prod.Lex
import OlaOs.Types.Basic

/-! Storage log queries (`types/src/storage/log.rs`). -/
namespace OlaOs

abbrev U8 := Fin (2 ^ 8)
abbrev U16 := Fin (2 ^ 16)
abbrev U32 := Fin (2 ^ 32)

instance instNeZeroU8 : NeZero (2 ^ 8) := ⟨(Nat.two_pow_pos 8).ne'⟩
instance instNeZeroU16 : NeZero (2 ^ 16) := ⟨(Nat.two_pow_pos 16).ne'⟩
instance instNeZeroU32 : NeZero (2 ^ 32) := ⟨(Nat.two_pow_pos 32).ne'⟩

/-- `LogQuery` -/
structure LogQuery where
  timestamp : U32
  txNumberInBlock : U16
  auxByte : U8
  shardId : U8
  address : Address
  key : U256
  readValue : U256
  writtenValue : U256
  rwFlag : Bool
  rollback : Bool
  isService : Bool
  deriving DecidableEq

inductive StorageLogQueryType where
  | read
  | initialWrite
  | repeatedWrite
  deriving DecidableEq

structure StorageLogQuery where
  logQuery : LogQuery
  logType : StorageLogQueryType
  deriving DecidableEq

/-- What a query is about: shard, address and key, in the order in which they are compared. -/
structure Slot where
  shardId : U8
  address : Address
  key : U256
  deriving DecidableEq

namespace Slot

def toProd (s : Slot) : U8 ×ₗ Address ×ₗ U256 := toLex (s.shardId, toLex (s.address, s.key))

theorem toProd_injective : Function.Injective toProd := by
  rintro ⟨shardId, address, key⟩ ⟨shardId', address', key'⟩ h
  simpa [toProd] using h

instance : LinearOrder Slot := LinearOrder.lift' toProd toProd_injective

theorem lt_iff (a b : Slot) : a < b ↔ a.shardId < b.shardId ∨ a.shardId = b.shardId ∧
    (a.address < b.address ∨ a.address = b.address ∧ a.key < b.key) := by
  show a.toProd < b.toProd ↔ _
  rw [Prod.Lex.lt_iff, Prod.Lex.lt_iff]
  rfl

end Slot

def LogQuery.slot (q : LogQuery) : Slot := ⟨q.shardId, q.address, q.key⟩

/-- `create_partially_filled_from_fields` -/
def LogQuery.createPartiallyFilledFromFields (shardId : U8) (address : Address)
    (key readValue writtenValue : U256) (rwFlag : Bool) : LogQuery :=
  { timestamp := 0, txNumberInBlock := 0, auxByte := 0, shardId, address, key, readValue,
    writtenValue, rwFlag, rollback := false, isService := false }

end OlaOs
