import OlaOs.Request.Binding

/-! The client of the node (`client/sdk/src`): how it signs a contract call and encodes it for
`send_raw_transaction`. -/
namespace OlaOs

inductive SignerError where
  | invalidPrivateKey (secret : String)
  | signingFailed (text : String)
  deriving DecidableEq

def SignerError.toString : SignerError → String
  | .invalidPrivateKey secret => "Invalid private key: " ++ secret
  | .signingFailed text => "Signing failed: " ++ text

def signingFailedError (e : SignerError) : SignerError := .signingFailed e.toString

inductive ClientError where
  | missingRequiredField (field : String)
  | signingError (e : SignerError)
  | rpcError (text : String)
  deriving DecidableEq

/-- How a call of the client ends without a result. -/
inductive ClientFailure where
  | error (e : ClientError)
  | requestPanic (p : RequestPanic)
  | noSignerAddress (e : SignerError)
  | invalidTransactionType (transactionType : TransactionType)
  | unreachableTransactionType
  deriving DecidableEq

/-- How signing ends without a signature: with an error, or with a panic of `into_signed_bytes`. -/
inductive SigningFailure where
  | error (e : SignerError)
  | panic (p : RequestPanic)
  deriving DecidableEq

/-- `map_err(signing_failed_error)` -/
def SigningFailure.wrap : SigningFailure → SigningFailure
  | .error e => .error (signingFailedError e)
  | .panic p => .panic p

def SigningFailure.toClient : SigningFailure → ClientFailure
  | .error e => .error (.signingError e)
  | .panic p => .requestPanic p

structure OlaTxSigner where
  signTxRequest : TransactionRequest → Except SigningFailure PackedEthSignature
  getAddress : Except SignerError Address

/-- The signer of a key pair: `sign` is `PackedEthSignature::sign` with its secret. -/
def privateKeySigner (sign : List UInt8 → Except String PackedEthSignature) (address : Address) :
    OlaTxSigner where
  signTxRequest tx := do
    let message ← tx.intoSignedBytes.mapError .panic
    (sign message).mapError fun text => .error (.signingFailed text)
  getAddress := .ok address

structure Signer where
  olaSigner : OlaTxSigner
  address : Address
  chainId : U16

namespace Signer

def signTransactionRequest (signer : Signer) (request : TransactionRequest) :
    Except SigningFailure PackedEthSignature :=
  (signer.olaSigner.signTxRequest request).mapError SigningFailure.wrap

/-- The request that `sign_execute_contract` hands to the signer. -/
def executeRequest (chainId : U16) (initiator contract : Address) (calldata : List UInt8)
    (nonce : Nonce) (factoryDeps : Option (List (List UInt8))) : TransactionRequest where
  nonce := Fin.ofNat _ nonce.val
  fromAddress := some initiator
  toAddress := some contract
  input := calldata
  transactionType := some (txType olaRawTxType)
  eip712Meta := some ⟨factoryDeps, none, none⟩
  chainId := some chainId

def signExecuteContract (signer : Signer) (chainId : U16) (fromAddress : Option Address)
    (contract : Address) (calldata : List UInt8) (nonce : Nonce)
    (factoryDeps : Option (List (List UInt8))) (_paymasterParams : PaymasterParams) :
    Except SigningFailure PackedEthSignature := do
  let initiator ← match fromAddress with
    | some fromAddress => .ok fromAddress
    | none => signer.olaSigner.getAddress.mapError .error
  (signer.signTransactionRequest
    (executeRequest chainId initiator contract calldata nonce factoryDeps)).mapError
    SigningFailure.wrap

end Signer

namespace PackedEthSignature

def serializePackedWithoutV (signature : PackedEthSignature) : List UInt8 :=
  signature.r.bytes ++ signature.s.bytes

/-- A signature of 64 bytes; its `v` is zero. -/
def deserializePacked (bytes : List UInt8) : Option PackedEthSignature :=
  if hlength : bytes.length = 64 then
    some ⟨⟨bytes.take 32, by rw [List.length_take, hlength]; rfl⟩,
      ⟨bytes.drop 32, by rw [List.length_drop, hlength]⟩, 0⟩
  else none

end PackedEthSignature

namespace L2Tx

def new (contractAddress : Address) (calldata : List UInt8) (nonce : Nonce)
    (initiatorAddress : Address) (factoryDeps : Option (List (List UInt8)))
    (_paymasterParams : PaymasterParams) (now : U64) : L2Tx where
  execute := ⟨contractAddress, calldata, factoryDeps⟩
  commonData := ⟨nonce, initiatorAddress, [], .olaRawTransaction, none⟩
  receivedTimestampMs := now

def setSignature (tx : L2Tx) (signatures : List PackedEthSignature) : L2Tx :=
  { tx with commonData := { tx.commonData with
      signature := signatures.flatMap PackedEthSignature.serializePackedWithoutV } }

end L2Tx

namespace TransactionRequest

variable {P : Type}

def extractChainId (env : RequestEnv P) (data : L2TxCommonData) : Option U16 :=
  data.inputData.bind fun bytes =>
    match bytes with
    | [] => none
    | tag :: rlp =>
      if tag = eip1559TxType then (env.rlp.u16At rlp 0).toOption
      else if tag = eip712TxType ∨ tag = olaRawTxType then (env.rlp.u16At rlp 6).toOption
      else none

def signatureToVrs (signature : List UInt8) : Option U64 × Option U256 × Option U256 :=
  match PackedEthSignature.deserializePacked signature with
  | some sig => (some (Fin.ofNat _ sig.v.toNat), some (h256ToU256 sig.r), some (h256ToU256 sig.s))
  | none => (none, none, none)

/-- `From<L2Tx> for TransactionRequest` -/
def ofL2Tx (env : RequestEnv P) (tx : L2Tx) : Except ClientFailure TransactionRequest :=
  let (v, r, s) := signatureToVrs tx.commonData.signature
  let baseTxReq : TransactionRequest := {
    nonce := Fin.ofNat _ tx.commonData.nonce.val
    fromAddress := some tx.commonData.initiatorAddress
    toAddress := some tx.execute.contractAddress
    input := tx.execute.calldata
    v := v
    r := r
    s := s
    chainId := extractChainId env tx.commonData }
  let eip712Meta : Eip712Meta := ⟨tx.execute.factoryDeps, some tx.commonData.signature, none⟩
  match tx.commonData.transactionType with
  | .eip712Transaction => .ok { baseTxReq with
      transactionType := some (txType eip712TxType), eip712Meta := some eip712Meta }
  | .eip1559Transaction => .ok { baseTxReq with transactionType := some (txType eip1559TxType) }
  | .olaRawTransaction => .ok { baseTxReq with
      transactionType := some (txType olaRawTxType), eip712Meta := some eip712Meta }
  | transactionType => .error (.invalidTransactionType transactionType)

end TransactionRequest

/-- A wallet; its provider answers the question for the nonce of the address. -/
structure Wallet where
  signer : Signer
  getNonce : Except String Nonce

namespace Wallet

variable {P : Type}

def address (wallet : Wallet) : Address := wallet.signer.address

def getChainId (wallet : Wallet) : U16 := wallet.signer.chainId

/-- The request that `create_tx_raw` encodes. -/
def rawRequest (env : RequestEnv P) (wallet : Wallet) (tx : L2Tx) :
    Except ClientFailure TransactionRequest := do
  let req ← TransactionRequest.ofL2Tx env tx
  .ok { req with
    eip712Meta := req.eip712Meta.map fun eip712Meta =>
      { eip712Meta with customSignature := some tx.commonData.signature }
    fromAddress := some wallet.address
    chainId := some wallet.signer.chainId }

def createTxRaw (env : RequestEnv P) (wallet : Wallet) (tx : L2Tx) :
    Except ClientFailure (List UInt8) := do
  let transactionRequest ← wallet.rawRequest env tx
  let signature ← (wallet.signer.olaSigner.signTxRequest transactionRequest).mapError
    SigningFailure.toClient
  match transactionRequest.getSignedBytes env signature wallet.signer.chainId with
  | some bytes => .ok bytes
  | none => .error .unreachableTransactionType

end Wallet

structure ExecuteContractBuilder where
  wallet : Wallet
  fromAddress : Option Address
  contractAddress : Option Address
  calldata : Option (List UInt8) := none
  nonce : Option Nonce := none
  factoryDeps : Option (List (List UInt8)) := none
  paymasterParams : Option PaymasterParams := none
  outerSignatures : Option (List PackedEthSignature)

namespace ExecuteContractBuilder

/-- The address of the entry point. -/
def defaultContractAddress : Address := ⟨List.replicate 30 0 ++ [0x80, 0x01], rfl⟩

def new (wallet : Wallet) (fromAddress : Option Address)
    (outerSignatures : Option (List PackedEthSignature)) : ExecuteContractBuilder where
  wallet := wallet
  fromAddress := fromAddress
  contractAddress := some defaultContractAddress
  outerSignatures := outerSignatures

/-- A field that has to be set. -/
def required {α : Type} (field : String) : Option α → Except ClientFailure α
  | some a => .ok a
  | none => .error (.error (.missingRequiredField field))

/-- The nonce that was set, or the one of the provider. -/
def getNonce (builder : ExecuteContractBuilder) : Except ClientFailure Nonce :=
  match builder.nonce with
  | some nonce => .ok nonce
  | none => builder.wallet.getNonce.mapError fun text => .error (.rpcError text)

/-- The sender that is signed: the one that was set, or the address of the signer. -/
def sender (builder : ExecuteContractBuilder) : Except ClientFailure Address :=
  match builder.fromAddress with
  | some fromAddress => .ok fromAddress
  | none => builder.wallet.signer.olaSigner.getAddress.mapError .noSignerAddress

/-- `tx` at the time `now`. -/
def tx (builder : ExecuteContractBuilder) (now : U64) : Except ClientFailure L2Tx := do
  let paymasterParams := builder.paymasterParams.getD ⟨.zero, []⟩
  let contractAddress ← required "contract_address" builder.contractAddress
  let calldata ← required "calldata" builder.calldata
  let nonce ← builder.getNonce
  let fromAddress ← builder.sender
  let signature ← (builder.wallet.signer.signExecuteContract builder.wallet.getChainId
    (some fromAddress) contractAddress calldata nonce builder.factoryDeps
    paymasterParams).mapError SigningFailure.toClient
  let initiator ← builder.wallet.signer.olaSigner.getAddress.mapError
    fun e => .error (.signingError e)
  let executeContract := L2Tx.new contractAddress calldata nonce initiator builder.factoryDeps
    paymasterParams now
  let signatures := match builder.outerSignatures with
    | some signatures => signature :: signatures
    | none => [signature]
  .ok (executeContract.setSignature signatures)

/-- The message that `tx` hands to the signer, through `sign_execute_contract`. -/
def signedMessage (builder : ExecuteContractBuilder) : Except ClientFailure (List UInt8) := do
  let contractAddress ← required "contract_address" builder.contractAddress
  let calldata ← required "calldata" builder.calldata
  let nonce ← builder.getNonce
  let fromAddress ← builder.sender
  (Signer.executeRequest builder.wallet.getChainId fromAddress contractAddress calldata nonce
    builder.factoryDeps).intoSignedBytes.mapError .requestPanic

theorem required_eq_ok {α : Type} {field : String} {o : Option α} {a : α} :
    required field o = .ok a ↔ o = some a := by
  cases o with
  | none => exact ⟨nofun, nofun⟩
  | some b => simp [required]

/-- The transaction of a builder: its fields, for the address of the signer. -/
theorem tx_eq_ok {builder : ExecuteContractBuilder} {now : U64} {tx : L2Tx}
    (h : builder.tx now = .ok tx) :
    ∃ contractAddress calldata nonce initiator signatures,
      builder.contractAddress = some contractAddress ∧ builder.calldata = some calldata ∧
      builder.getNonce = .ok nonce ∧ tx = (L2Tx.new contractAddress calldata nonce initiator
        builder.factoryDeps (builder.paymasterParams.getD ⟨.zero, []⟩) now).setSignature
          signatures := by
  unfold ExecuteContractBuilder.tx at h
  simp only [Seq.bind_eq_ok, required_eq_ok] at h
  obtain ⟨contractAddress, hcontract, calldata, hcalldata, nonce, hnonce, _, -, _, -, initiator, -,
    hok⟩ := h
  exact ⟨contractAddress, calldata, nonce, initiator, _, hcontract, hcalldata, hnonce,
    (Except.ok.inj hok).symm⟩

theorem signedMessage_eq_ok {builder : ExecuteContractBuilder} {message : List UInt8} :
    builder.signedMessage = .ok message ↔ ∃ contractAddress calldata nonce fromAddress,
      builder.contractAddress = some contractAddress ∧ builder.calldata = some calldata ∧
      builder.getNonce = .ok nonce ∧ builder.sender = .ok fromAddress ∧
      (Signer.executeRequest builder.wallet.getChainId fromAddress contractAddress calldata nonce
        builder.factoryDeps).intoSignedBytes = .ok message := by
  unfold signedMessage
  simp only [Seq.bind_eq_ok, required_eq_ok, TransactionRequest.mapError_eq_ok]
  constructor
  · rintro ⟨contractAddress, hcontract, calldata, hcalldata, nonce, hnonce, fromAddress, hsender,
      hok⟩
    exact ⟨contractAddress, calldata, nonce, fromAddress, hcontract, hcalldata, hnonce, hsender,
      hok⟩
  · rintro ⟨contractAddress, calldata, nonce, fromAddress, hcontract, hcalldata, hnonce, hsender,
      hok⟩
    exact ⟨contractAddress, hcontract, calldata, hcalldata, nonce, hnonce, fromAddress, hsender,
      hok⟩

/-- With a private key, the signature in front of a transaction is one of the signed message. -/
theorem tx_privateKeySigner {builder : ExecuteContractBuilder}
    {sign : List UInt8 → Except String PackedEthSignature} {address : Address}
    (hsigner : builder.wallet.signer.olaSigner = privateKeySigner sign address) {now : U64}
    {tx : L2Tx} (h : builder.tx now = .ok tx) :
    ∃ message signature rest, builder.signedMessage = .ok message ∧ sign message = .ok signature ∧
      tx.commonData.signature = signature.serializePackedWithoutV ++ rest := by
  unfold ExecuteContractBuilder.tx at h
  simp only [Seq.bind_eq_ok, required_eq_ok, Signer.signExecuteContract,
    Signer.signTransactionRequest, hsigner, privateKeySigner,
    TransactionRequest.mapError_eq_ok] at h
  obtain ⟨contractAddress, hcontract, calldata, hcalldata, nonce, hnonce, fromAddress, hsender,
    signature, ⟨_, hinitiator, message, hmessage, hsign⟩, _, -, hok⟩ := h
  obtain rfl := Except.ok.inj hinitiator
  obtain rfl := Except.ok.inj hok
  refine ⟨message, signature, ?_⟩
  cases builder.outerSignatures with
  | none =>
    exact ⟨[], signedMessage_eq_ok.mpr ⟨contractAddress, calldata, nonce, fromAddress, hcontract,
      hcalldata, hnonce, hsender, hmessage⟩, hsign, rfl⟩
  | some signatures =>
    exact ⟨_, signedMessage_eq_ok.mpr ⟨contractAddress, calldata, nonce, fromAddress, hcontract,
      hcalldata, hnonce, hsender, hmessage⟩, hsign, rfl⟩

section Server

open TransactionRequest

variable {P : Type} {env : RequestEnv P}

/-- The request that is encoded for a transaction of the client names the wallet as the sender. -/
theorem rawRequest_setSignature (env : RequestEnv P) (wallet : Wallet)
    (contractAddress : Address) (calldata : List UInt8) (nonce : Nonce) (initiator : Address)
    (factoryDeps : Option (List (List UInt8))) (paymasterParams : PaymasterParams) (now : U64)
    (signatures : List PackedEthSignature) :
    ∃ v r s customSignature,
      wallet.rawRequest env ((L2Tx.new contractAddress calldata nonce initiator
      factoryDeps paymasterParams now).setSignature signatures) = .ok {
        Signer.executeRequest wallet.getChainId wallet.address contractAddress calldata nonce
          factoryDeps with
        v := v
        r := r
        s := s
        eip712Meta := some ⟨factoryDeps, some customSignature, none⟩ } :=
  ⟨_, _, _, _, rfl⟩

/-- The server signs for the wallet what it decodes. -/
theorem intoSignedBytes_decoded (chainId : U16) (initiator contract : Address)
    (calldata : List UInt8) (nonce : Nonce) (factoryDeps : Option (List (List UInt8)))
    (v : Option U64) (r s : Option U256) (customSignature : List UInt8)
    (signature : PackedEthSignature) (bytes : List UInt8) :
    (decoded { Signer.executeRequest chainId initiator contract calldata nonce factoryDeps with
        v := v
        r := r
        s := s
        eip712Meta := some ⟨factoryDeps, some customSignature, none⟩ }
      ⟨factoryDeps, some customSignature, none⟩ signature bytes).intoSignedBytes =
      (Signer.executeRequest chainId initiator contract calldata nonce
        factoryDeps).intoSignedBytes := rfl

/-- The message of a call determines its sender. -/
theorem executeRequest_inj {chainId : U16} {initiator initiator' contract : Address}
    {calldata : List UInt8} {nonce : Nonce} {factoryDeps : Option (List (List UInt8))}
    {message : List UInt8}
    (h : (Signer.executeRequest chainId initiator contract calldata nonce
      factoryDeps).intoSignedBytes = .ok message)
    (h' : (Signer.executeRequest chainId initiator' contract calldata nonce
      factoryDeps).intoSignedBytes = .ok message) : initiator = initiator' :=
  Option.some.inj (signedBytes_inj h h').1

/-- The request that the server decodes from the bytes of a client's transaction, if it accepts the
factory dependencies, is signed for the address of the wallet. -/
theorem decodeRequest_createTxRaw (hlawful : env.rlp.Lawful) {builder : ExecuteContractBuilder}
    {now : U64} {tx : L2Tx} (htx : builder.tx now = .ok tx) {bytes : List UInt8}
    (hbytes : builder.wallet.createTxRaw env tx = .ok bytes) (hfits : FitsMemory bytes) :
    ∃ contractAddress calldata nonce request,
      builder.contractAddress = some contractAddress ∧ builder.calldata = some calldata ∧
      builder.getNonce = .ok nonce ∧
      decodeRequest env bytes builder.wallet.getChainId = (do
        validateOptionalDeps env builder.factoryDeps
        .ok request) ∧
      request.intoSignedBytes = (Signer.executeRequest builder.wallet.getChainId
        builder.wallet.address contractAddress calldata nonce
          builder.factoryDeps).intoSignedBytes := by
  obtain ⟨contractAddress, calldata, nonce, initiator, signatures, hcontract, hcalldata, hnonce,
    rfl⟩ := tx_eq_ok htx
  obtain ⟨v, r, s, customSignature, hraw⟩ := rawRequest_setSignature env builder.wallet
    contractAddress calldata nonce initiator builder.factoryDeps
    (builder.paymasterParams.getD ⟨.zero, []⟩) now signatures
  unfold Wallet.createTxRaw at hbytes
  simp only [Seq.bind_eq_ok, mapError_eq_ok] at hbytes
  obtain ⟨request, hrequest, signature, -, hencode⟩ := hbytes
  obtain rfl := Except.ok.inj (hraw.symm.trans hrequest)
  split at hencode
  · rename_i encoded hsome
    obtain rfl := Except.ok.inj hencode
    have hdecode := decodeRequest_encode hlawful rfl rfl rfl rfl (.inr rfl) rfl hsome hfits
    exact ⟨contractAddress, calldata, nonce, _, hcontract, hcalldata, hnonce, hdecode,
      intoSignedBytes_decoded builder.wallet.getChainId builder.wallet.address contractAddress
        calldata nonce builder.factoryDeps v r s customSignature signature encoded⟩
  · cases hencode

/-- The server recomputes the message that the client signed exactly when the sender that was signed
is the address of the wallet and the server accepts the factory dependencies. -/
theorem sameMessage_iff (env : RequestEnv P) (hlawful : env.rlp.Lawful)
    (builder : ExecuteContractBuilder) (now : U64) (tx : L2Tx) (htx : builder.tx now = .ok tx)
    (message : List UInt8) (hmessage : builder.signedMessage = .ok message) (bytes : List UInt8)
    (hbytes : builder.wallet.createTxRaw env tx = .ok bytes) (hfits : FitsMemory bytes) :
    (∃ request hash, fromBytes env bytes builder.wallet.getChainId = .ok (request, hash) ∧
      request.intoSignedBytes = .ok message) ↔
      builder.sender = .ok builder.wallet.address ∧
        validateOptionalDeps env builder.factoryDeps = .ok () := by
  obtain ⟨contractAddress, calldata, nonce, request, hcontract, hcalldata, hnonce, hdecode,
    hrecomputed⟩ := decodeRequest_createTxRaw hlawful htx hbytes hfits
  obtain ⟨contractAddress', calldata', nonce', fromAddress, hcontract', hcalldata', hnonce',
    hsender, hsigned⟩ := signedMessage_eq_ok.mp hmessage
  obtain rfl := Option.some.inj (hcontract.symm.trans hcontract')
  obtain rfl := Option.some.inj (hcalldata.symm.trans hcalldata')
  obtain rfl := Except.ok.inj (hnonce.symm.trans hnonce')
  constructor
  · rintro ⟨request', hash, hfrom, hserver⟩
    obtain ⟨⟨⟩, hdeps, hrequest⟩ :=
      Seq.bind_eq_ok.mp (hdecode.symm.trans (fromBytes_eq_ok.mp hfrom).1)
    obtain rfl := Except.ok.inj hrequest
    rw [hrecomputed] at hserver
    rw [hsender, executeRequest_inj hsigned hserver]
    exact ⟨rfl, hdeps⟩
  · rintro ⟨haddress, hdeps⟩
    obtain rfl := Except.ok.inj (hsender.symm.trans haddress)
    rw [hdeps] at hdecode
    rw [hsigned] at hrecomputed
    exact ⟨_, _, fromBytes_eq_ok.mpr ⟨hdecode, message, hrecomputed, rfl⟩, hrecomputed⟩

/-- A wallet of chain 1 at the zero address, with one signature for everything. -/
def sampleWallet : Wallet where
  signer := ⟨privateKeySigner (fun _ => .ok sampleSignature) .zero, .zero, 1⟩
  getNonce := .ok 0

/-- A call with nine zero words in the name of an account. -/
def sampleBuilder (fromAddress : Option Address) : ExecuteContractBuilder :=
  { ExecuteContractBuilder.new sampleWallet fromAddress none with
    calldata := some (List.replicate 72 0) }

/-- The bytes of the sample fit into memory. -/
theorem fitsMemory_sampleBuilder {fromAddress : Option Address}
    (h : fromAddress = none ∨ fromAddress = some oneAddress) :
    ∃ tx bytes, (sampleBuilder fromAddress).tx 0 = .ok tx ∧
      sampleWallet.createTxRaw sampleEnv tx = .ok bytes ∧ FitsMemory bytes := by
  rcases h with rfl | rfl
  · refine ⟨_, _, rfl, rfl, ?_⟩
    unfold FitsMemory
    decide +kernel
  · refine ⟨_, _, rfl, rfl, ?_⟩
    unfold FitsMemory
    decide +kernel

/-- Without a sender of its own, the call is signed for the wallet. -/
theorem sameMessage_iff_sample : ∃ tx message bytes request hash,
    (sampleBuilder none).tx 0 = .ok tx ∧ (sampleBuilder none).signedMessage = .ok message ∧
      sampleWallet.createTxRaw sampleEnv tx = .ok bytes ∧
      fromBytes sampleEnv bytes 1 = .ok (request, hash) ∧
      request.intoSignedBytes = .ok message := by
  obtain ⟨tx, bytes, htx, hbytes, hfits⟩ := fitsMemory_sampleBuilder (.inl rfl)
  obtain ⟨request, hash, hfrom, hserver⟩ := (sameMessage_iff sampleEnv RlpReader.crate_lawful
    (sampleBuilder none) 0 tx htx _ rfl bytes hbytes hfits).mpr ⟨rfl, rfl⟩
  exact ⟨tx, _, bytes, request, hash, htx, rfl, hbytes, hfrom, hserver⟩

/-- A call in the name of another account is signed for that account and sent for the wallet. -/
theorem sameMessage_counterexample : ∃ tx message bytes request hash message',
    (sampleBuilder (some oneAddress)).tx 0 = .ok tx ∧
      (sampleBuilder (some oneAddress)).signedMessage = .ok message ∧
      sampleWallet.createTxRaw sampleEnv tx = .ok bytes ∧
      fromBytes sampleEnv bytes 1 = .ok (request, hash) ∧
      request.intoSignedBytes = .ok message' ∧ message' ≠ message := by
  obtain ⟨tx, bytes, htx, hbytes, hfits⟩ := fitsMemory_sampleBuilder (.inr rfl)
  obtain ⟨contractAddress, calldata, nonce, request, ⟨⟩, ⟨⟩, ⟨⟩, hdecode, hrecomputed⟩ :=
    decodeRequest_createTxRaw RlpReader.crate_lawful htx hbytes hfits
  obtain ⟨message, hmessage⟩ : ∃ message, (Signer.executeRequest 1 oneAddress
      defaultContractAddress (List.replicate 72 0) 0 none).intoSignedBytes = .ok message := ⟨_, rfl⟩
  obtain ⟨message', hmessage'⟩ : ∃ message, (Signer.executeRequest 1 .zero
      defaultContractAddress (List.replicate 72 0) 0 none).intoSignedBytes = .ok message := ⟨_, rfl⟩
  have hserver : request.intoSignedBytes = .ok message' := hrecomputed.trans hmessage'
  refine ⟨tx, message, bytes, request, _, message', htx, signedMessage_eq_ok.mpr ⟨_, _, _, _, rfl,
    rfl, rfl, rfl, hmessage⟩, hbytes, fromBytes_eq_ok.mpr ⟨hdecode, message', hserver, rfl⟩,
    hserver, ?_⟩
  rintro rfl
  exact absurd (executeRequest_inj hmessage hmessage') (by decide)

end Server

end ExecuteContractBuilder

end OlaOs
