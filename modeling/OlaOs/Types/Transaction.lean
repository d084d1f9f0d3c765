import OlaOs.Types.LogQuery

/-! Transactions (`types/src/lib.rs`, `types/src/l2/mod.rs`). -/
namespace OlaOs

abbrev U64 := Fin (2 ^ 64)

instance instNeZeroU64 : NeZero (2 ^ 64) := ⟨(Nat.two_pow_pos 64).ne'⟩

/-- A nonce; its arithmetic wraps. -/
abbrev Nonce := U32

structure InputData where
  hash : H256
  data : List UInt8
  deriving DecidableEq

inductive TransactionType where
  | eip712Transaction
  | eip1559Transaction
  | olaRawTransaction
  | priorityOpTransaction
  | protocolUpgradeTransaction
  deriving DecidableEq

structure L2TxCommonData where
  nonce : Nonce
  initiatorAddress : Address
  signature : List UInt8
  transactionType : TransactionType
  input : Option InputData
  deriving DecidableEq

structure Execute where
  contractAddress : Address
  calldata : List UInt8
  factoryDeps : Option (List (List UInt8))
  deriving DecidableEq

structure L2Tx where
  execute : Execute
  commonData : L2TxCommonData
  receivedTimestampMs : U64
  deriving DecidableEq

structure ProtocolUpgradeTxCommonData where
  sender : Address
  canonicalTxHash : H256
  deriving DecidableEq

inductive ExecuteTransactionCommon where
  | l2 (data : L2TxCommonData)
  | protocolUpgrade (data : ProtocolUpgradeTxCommonData)
  deriving DecidableEq

structure Transaction where
  commonData : ExecuteTransactionCommon
  execute : Execute
  receivedTimestampMs : U64
  deriving DecidableEq

namespace L2TxCommonData

/-- The hash of the input; there is none before the input is set, where the source panics. -/
def hash (data : L2TxCommonData) : Option H256 := data.input.map InputData.hash

def inputData (data : L2TxCommonData) : Option (List UInt8) := data.input.map InputData.data

end L2TxCommonData

namespace L2Tx

def initiatorAccount (tx : L2Tx) : Address := tx.commonData.initiatorAddress

def nonce (tx : L2Tx) : Nonce := tx.commonData.nonce

def hash (tx : L2Tx) : Option H256 := tx.commonData.hash

/-- `From<L2Tx> for Transaction` -/
def intoTransaction (tx : L2Tx) : Transaction :=
  ⟨.l2 tx.commonData, tx.execute, tx.receivedTimestampMs⟩

end L2Tx

namespace Transaction

def nonce (tx : Transaction) : Option Nonce :=
  match tx.commonData with
  | .l2 data => some data.nonce
  | .protocolUpgrade _ => none

def hash (tx : Transaction) : Option H256 :=
  match tx.commonData with
  | .l2 data => data.hash
  | .protocolUpgrade data => some data.canonicalTxHash

def initiatorAccount (tx : Transaction) : Address :=
  match tx.commonData with
  | .l2 data => data.initiatorAddress
  | .protocolUpgrade data => data.sender

end Transaction

namespace L2Tx

variable (tx : L2Tx)

@[simp] theorem intoTransaction_commonData :
    tx.intoTransaction.commonData = .l2 tx.commonData := rfl

@[simp] theorem intoTransaction_nonce : tx.intoTransaction.nonce = some tx.nonce := rfl

@[simp] theorem intoTransaction_hash : tx.intoTransaction.hash = tx.hash := rfl

@[simp] theorem intoTransaction_initiatorAccount :
    tx.intoTransaction.initiatorAccount = tx.initiatorAccount := rfl

theorem intoTransaction_injective : Function.Injective intoTransaction := by
  rintro ⟨execute, data, receivedTimestampMs⟩ ⟨execute', data', receivedTimestampMs'⟩ h
  injection h with hdata hexecute hreceived
  injection hdata with hdata
  cases hdata
  cases hexecute
  cases hreceived
  rfl

end L2Tx

end OlaOs
