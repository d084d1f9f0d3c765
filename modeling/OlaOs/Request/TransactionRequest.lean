import OlaOs.Lib.Rlp
import OlaOs.Sequencer.BatchExecutor

/-! Raw transactions (`types/src/request.rs`, `utils/src/bytecode.rs`): decoding, the signed bytes
and the hash, encoding, and the way to an L2 transaction. -/
namespace OlaOs

def eip712TxType : UInt8 := 0x71
def eip1559TxType : UInt8 := 0x02
def olaRawTxType : UInt8 := 0x10

/-- A transaction type as `U64`. -/
def txType (t : UInt8) : U64 := Fin.ofNat _ t.toNat

/-- The errors of the `rlp` crate. -/
inductive DecoderError where
  | rlpIsTooBig
  | rlpIsTooShort
  | rlpExpectedToBeList
  | rlpExpectedToBeData
  | rlpIncorrectListLen
  | rlpDataLenWithZeroPrefix
  | rlpListLenWithZeroPrefix
  | rlpInvalidIndirection
  | rlpInconsistentLengthAndData
  | rlpInvalidLength
  | custom (text : String)
  deriving DecidableEq

/-- What is used of the `rlp` crate: the readers of a list and of its fields, which return errors
and do not panic, and the encoder. -/
structure RlpCrate where
  itemCount : List UInt8 → Except DecoderError ℕ
  at_ : List UInt8 → ℕ → Except DecoderError (List UInt8)
  u16At : List UInt8 → ℕ → Except DecoderError U16
  u64At : List UInt8 → ℕ → Except DecoderError U64
  u256At : List UInt8 → ℕ → Except DecoderError U256
  addressAt : List UInt8 → ℕ → Except DecoderError Address
  bytesAt : List UInt8 → ℕ → Except DecoderError (List UInt8)
  listAt : List UInt8 → ℕ → Except DecoderError (List (List UInt8))
  encode : Rlp.Item → List UInt8

inductive InvalidBytecodeError where
  | bytecodeTooLong (actual max : ℕ)
  | bytecodeInstructionsTooLong (actual max : ℕ)
  | bytecodeDepParseProgramFailed
  | bytecodeParseInstructionsFailed
  deriving DecidableEq

inductive SerializationTransactionError where
  | unknownTransactionFormat
  | fromAddressIsNull
  | toAddressIsNull
  | invalidPaymasterParams
  | tooBigNonce
  | invalidFactoryDependencies (index : ℕ) (error : InvalidBytecodeError)
  | decodeRlpError (error : DecoderError)
  | accessListsNotSupported
  | wrongChainId (chainId : Option U16)
  deriving DecidableEq

/-- The panics of `into_signed_bytes`. -/
inductive RequestPanic where
  | noMeta
  | dataNotAligned
  | paymasterInputNotAligned
  | noChainId
  | nonceOverflow
  | noSender
  | sliceOutOfRange
  deriving DecidableEq

/-- How `from_bytes` ends without a request. -/
inductive RequestFailure where
  | error (e : SerializationTransactionError)
  | panic (p : RequestPanic)
  deriving DecidableEq

structure PaymasterParams where
  paymaster : Address
  paymasterInput : List UInt8
  deriving DecidableEq

structure Eip712Meta where
  factoryDeps : Option (List (List UInt8))
  customSignature : Option (List UInt8)
  paymasterParams : Option PaymasterParams
  deriving DecidableEq

structure TransactionRequest where
  nonce : U256 := 0
  fromAddress : Option Address := none
  toAddress : Option Address := none
  input : List UInt8 := []
  v : Option U64 := none
  r : Option U256 := none
  s : Option U256 := none
  raw : Option (List UInt8) := none
  transactionType : Option U64 := none
  eip712Meta : Option Eip712Meta := none
  chainId : Option U16 := none
  deriving DecidableEq

structure PackedEthSignature where
  r : H256
  s : H256
  v : UInt8

/-- The third-party code around a request: the `rlp` crate, the parser of programs with its list of
instructions, and the hash. -/
structure RequestEnv (P : Type) where
  rlp : RlpCrate
  deserialize : List UInt8 → Option P
  bytecodeU64s : P → Option (List U64)
  hashBytes : List UInt8 → H256

/-- `?` on a result of the `rlp` crate. -/
def rlpResult {α : Type} (x : Except DecoderError α) : Except SerializationTransactionError α :=
  x.mapError .decodeRlpError

def maxBytecodeLengthInU64 : ℕ := 2 ^ 22
def maxBytecodeLengthBytes : ℕ := 2 ^ 25

def PaymasterParams.fromVector (value : List (List UInt8)) :
    Except SerializationTransactionError (Option PaymasterParams) :=
  match value with
  | [] => .ok none
  | [paymaster, paymasterInput] =>
    if hlength : paymaster.length = 32 then .ok (some ⟨⟨paymaster, hlength⟩, paymasterInput⟩)
    else .error .invalidPaymasterParams
  | _ => .error .invalidPaymasterParams

section Bytecode

variable {P : Type} (env : RequestEnv P)

def validateBytecode (code : List UInt8) : Except InvalidBytecodeError Unit :=
  if maxBytecodeLengthBytes < code.length then
    .error (.bytecodeTooLong code.length maxBytecodeLengthBytes)
  else
    match env.deserialize code with
    | none => .error .bytecodeDepParseProgramFailed
    | some program =>
      match env.bytecodeU64s program with
      | none => .error .bytecodeParseInstructionsFailed
      | some instructions =>
        if maxBytecodeLengthInU64 < instructions.length then
          .error (.bytecodeInstructionsTooLong instructions.length maxBytecodeLengthInU64)
        else .ok ()

/-- The loop of `validate_factory_deps`, from dependency `i` on. -/
def validateFactoryDepsFrom (i : ℕ) : List (List UInt8) → Except SerializationTransactionError Unit
  | [] => .ok ()
  | dep :: deps =>
    match validateBytecode env dep with
    | .error e => .error (.invalidFactoryDependencies i e)
    | .ok () => validateFactoryDepsFrom (i + 1) deps

def validateFactoryDeps (factoryDeps : List (List UInt8)) :
    Except SerializationTransactionError Unit :=
  validateFactoryDepsFrom env 0 factoryDeps

/-- The dependencies of a request, if it has any to check. -/
def validateOptionalDeps (factoryDeps : Option (List (List UInt8))) :
    Except SerializationTransactionError Unit :=
  match factoryDeps with
  | some deps => validateFactoryDeps env deps
  | none => .ok ()

end Bytecode

/-- `words[start..stop]` -/
def sliceWords (words : List U64) (start stop : ℕ) : Except RequestPanic (List U64) :=
  if start ≤ stop ∧ stop ≤ words.length then .ok ((words.take stop).drop start)
  else .error .sliceOutOfRange

def orRequestPanic {α : Type} (p : RequestPanic) : Option α → Except RequestPanic α
  | some a => .ok a
  | none => .error p

def panicUnless (p : RequestPanic) (condition : Bool) : Except RequestPanic Unit :=
  if condition then .ok () else .error p

namespace TransactionRequest

def isEip712Tx (tx : TransactionRequest) : Bool := tx.transactionType = some (txType eip712TxType)

def isOlaRawTx (tx : TransactionRequest) : Bool := tx.transactionType = some (txType olaRawTxType)

def getCustomSignature (tx : TransactionRequest) : Option (List UInt8) :=
  tx.eip712Meta.bind Eip712Meta.customSignature

/-- The custom signature, unless it is missing or empty. -/
def getSignature (tx : TransactionRequest) : List UInt8 :=
  match tx.getCustomSignature with
  | some (b :: bytes) => b :: bytes
  | _ => List.replicate 32 0

/-- The end of the business calldata: the sum is of machine words and wraps. -/
def posBizCalldataEnd (input : List U64) : ℕ := (8 + (input[8]?.getD 0).val + 1) % 2 ^ 64

/-- The words that a paymaster adds to the signed message. -/
def paymasterWords : Option PaymasterParams → Except RequestPanic (List U64)
  | none => .ok []
  | some params => do
    let paymasterInput ← orRequestPanic .paymasterInputNotAligned
      (bytesToU64s params.paymasterInput)
    .ok (List.ofFn (h256ToU64Array params.paymaster) ++
      [Fin.ofNat _ (params.paymasterInput.length / 8)] ++ paymasterInput)

def intoSignedBytes (tx : TransactionRequest) : Except RequestPanic (List UInt8) := do
  let eip712Meta ← orRequestPanic .noMeta tx.eip712Meta
  panicUnless .dataNotAligned (tx.input.length % 8 = 0)
  panicUnless .paymasterInputNotAligned
    (eip712Meta.paymasterParams.all fun params => params.paymasterInput.length % 8 = 0)
  let chainId ← orRequestPanic .noChainId tx.chainId
  let transactionType := tx.transactionType.getD (txType olaRawTxType)
  panicUnless .nonceOverflow (tx.nonce.val < 2 ^ 64)
  let fromAddress ← orRequestPanic .noSender tx.fromAddress
  let input ← orRequestPanic .dataNotAligned (bytesToU64s tx.input)
  let bizInput ← sliceWords input 8 (posBizCalldataEnd input)
  let bizAddr ← sliceWords input 4 8
  let paymaster ← paymasterWords eip712Meta.paymasterParams
  .ok (u64sToBytes ([Fin.ofNat _ chainId.val, transactionType, Fin.ofNat _ tx.nonce.val] ++
    List.ofFn (h256ToU64Array fromAddress) ++ bizAddr ++ bizInput ++ paymaster))

section Decode

variable {P : Type} (env : RequestEnv P)

def decodeEip1559Fields (rlp : List UInt8) (offset : ℕ) :
    Except SerializationTransactionError TransactionRequest := do
  let nonce ← rlpResult (env.rlp.u256At rlp offset)
  let toAddress := (env.rlp.addressAt rlp (offset + 1)).toOption
  let input ← rlpResult (env.rlp.bytesAt rlp (offset + 2))
  .ok { nonce := nonce, toAddress := toAddress, input := input }

/-- The access list of an EIP-1559 transaction, if its field is there at all, has to be empty. -/
def checkAccessList (rlp : List UInt8) : Except SerializationTransactionError Unit :=
  match env.rlp.at_ rlp 8 with
  | .error _ => .ok ()
  | .ok accessList => do
    let count ← rlpResult (env.rlp.itemCount accessList)
    if 0 < count then .error .accessListsNotSupported else .ok ()

def decodeEip1559 (rlp : List UInt8) (chainId : U16) :
    Except SerializationTransactionError TransactionRequest := do
  let count ← rlpResult (env.rlp.itemCount rlp)
  if count ≠ 12 then .error (.decodeRlpError .rlpIncorrectListLen)
  else
    checkAccessList env rlp
    let txChainId := (env.rlp.u16At rlp 0).toOption
    if txChainId ≠ some chainId then .error (.wrongChainId txChainId)
    else
      let v ← rlpResult (env.rlp.u64At rlp 9)
      let r ← rlpResult (env.rlp.u256At rlp 10)
      let s ← rlpResult (env.rlp.u256At rlp 11)
      let fields ← decodeEip1559Fields env rlp 1
      .ok { fields with
        chainId := txChainId
        v := some v
        r := some r
        s := some s
        transactionType := some (txType eip1559TxType) }

def decodeEip712 (rlp : List UInt8) (chainId : U16) :
    Except SerializationTransactionError TransactionRequest := do
  let count ← rlpResult (env.rlp.itemCount rlp)
  if count ≠ 11 then .error (.decodeRlpError .rlpIncorrectListLen)
  else
    let txChainId := (env.rlp.u16At rlp 6).toOption
    if txChainId.isSome ∧ txChainId ≠ some chainId then .error (.wrongChainId txChainId)
    else
      let v ← rlpResult (env.rlp.u64At rlp 3)
      let r ← rlpResult (env.rlp.u256At rlp 4)
      let s ← rlpResult (env.rlp.u256At rlp 5)
      let paymasterParams ← match env.rlp.listAt rlp 10 with
        | .ok params => PaymasterParams.fromVector params
        | .error _ => .ok none
      let fromAddress ← rlpResult (env.rlp.addressAt rlp 7)
      let fields ← decodeEip1559Fields env rlp 0
      .ok { fields with
        v := some v
        r := some r
        s := some s
        eip712Meta := some {
          factoryDeps := (env.rlp.listAt rlp 8).toOption
          customSignature := (env.rlp.bytesAt rlp 9).toOption
          paymasterParams := paymasterParams }
        chainId := txChainId
        transactionType := some (txType olaRawTxType)
        fromAddress := some fromAddress }

/-- The fields of a request by the tag in front of them. -/
def decodeFields (bytes : List UInt8) (chainId : U16) :
    Except SerializationTransactionError TransactionRequest :=
  match bytes with
  | [] => .error .unknownTransactionFormat
  | tag :: rlp =>
    if tag = eip1559TxType then decodeEip1559 env rlp chainId
    else if tag = eip712TxType ∨ tag = olaRawTxType then decodeEip712 env rlp chainId
    else .error .unknownTransactionFormat

/-- The first half of `from_bytes`: the fields, with valid factory dependencies. -/
def decodeRequest (bytes : List UInt8) (chainId : U16) :
    Except SerializationTransactionError TransactionRequest := do
  let tx ← decodeFields env bytes chainId
  validateOptionalDeps env (tx.eip712Meta.bind Eip712Meta.factoryDeps)
  .ok { tx with raw := some bytes }

/-- The hash of a request, once its bytes are signed. -/
def requestHash (tx : TransactionRequest) (bytes signedBytes : List UInt8) : H256 :=
  if tx.isEip712Tx || tx.isOlaRawTx then
    env.hashBytes ((env.hashBytes signedBytes).bytes ++ (env.hashBytes tx.getSignature).bytes)
  else env.hashBytes bytes

def fromBytes (bytes : List UInt8) (chainId : U16) :
    Except RequestFailure (TransactionRequest × H256) := do
  let tx ← (decodeRequest env bytes chainId).mapError .error
  let signedBytes ← tx.intoSignedBytes.mapError .panic
  if tx.fromAddress = none then .error (.error .fromAddressIsNull)
  else .ok (tx, requestHash env tx bytes signedBytes)

end Decode

/-- `rlp_opt` of an address -/
def rlpOpt : Option Address → Rlp.Item
  | some address => .data address.bytes
  | none => .data []

/-- `Eip712Meta::rlp_append` -/
def metaItems (eip712Meta : Eip712Meta) : List Rlp.Item :=
  [.list ((eip712Meta.factoryDeps.getD []).map .data), .data (eip712Meta.customSignature.getD []),
    .list (match eip712Meta.paymasterParams with
      | some params => [.data params.paymaster.bytes, .data params.paymasterInput]
      | none => [])]

/-- The fields of a signature. -/
def signatureItems (signature : PackedEthSignature) : List Rlp.Item :=
  [Rlp.uint signature.v.toNat, Rlp.uint signature.r.toNat, Rlp.uint signature.s.toNat]

/-- The fields that `rlp` appends; another transaction type is not reachable. -/
def rlp (tx : TransactionRequest) (chainId : U16) (signature : PackedEthSignature) :
    Option (List Rlp.Item) :=
  let fields := [Rlp.uint tx.nonce.val, rlpOpt tx.toAddress, .data tx.input]
  if tx.transactionType = some (txType eip1559TxType) then
    some (Rlp.uint chainId.val :: fields ++ signatureItems signature)
  else if tx.isEip712Tx || tx.isOlaRawTx then
    some (fields ++ signatureItems signature ++ [Rlp.uint chainId.val, rlpOpt tx.fromAddress] ++
      (tx.eip712Meta.map metaItems).getD [])
  else none

def getSignedBytes {P : Type} (env : RequestEnv P) (tx : TransactionRequest)
    (signature : PackedEthSignature) (chainId : U16) : Option (List UInt8) :=
  (tx.rlp chainId signature).map fun items =>
    match tx.transactionType with
    | some transactionType => UInt8.ofNat transactionType.val :: env.rlp.encode (.list items)
    | none => env.rlp.encode (.list items)

def getNonceChecked (tx : TransactionRequest) : Except SerializationTransactionError Nonce :=
  if tx.nonce.val ≤ 2 ^ 32 - 1 then .ok (Fin.ofNat _ tx.nonce.val) else .error .tooBigNonce

end TransactionRequest

/-- `L2Tx::from_request` at the time `now`. -/
def L2Tx.fromRequest {P : Type} (env : RequestEnv P) (now : U64) (request : TransactionRequest) :
    Except SerializationTransactionError L2Tx := do
  let nonce ← request.getNonceChecked
  let factoryDeps := request.eip712Meta.bind Eip712Meta.factoryDeps
  validateOptionalDeps env factoryDeps
  match request.toAddress with
  | none => .error .toAddressIsNull
  | some contractAddress => .ok {
      execute := ⟨contractAddress, request.input, factoryDeps⟩
      commonData := {
        nonce := nonce
        initiatorAddress := request.fromAddress.getD .zero
        signature := request.getSignature
        transactionType :=
          let tag := request.transactionType.map fun t => UInt8.ofNat t.val
          if tag = some eip712TxType then .eip712Transaction
          else if tag = some eip1559TxType then .eip1559Transaction
          else .olaRawTransaction
        input := none }
      receivedTimestampMs := now }

end OlaOs
