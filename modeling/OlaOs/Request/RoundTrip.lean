import OlaOs.Request.Decoding

/-! Encoding a signed request and decoding it again. -/
namespace OlaOs

namespace TransactionRequest

variable {P : Type} {env : RequestEnv P}

/-- A request that can be encoded for a chain: sender and recipient are set, the nonce fits a
machine word, the factory dependencies are valid, and the input has at least nine words, of which
the ninth counts at most the words after it. -/
structure IsEncodable (env : RequestEnv P) (request : TransactionRequest) (eip712Meta : Eip712Meta)
    (chain : U16) : Prop where
  eip712Meta_eq : request.eip712Meta = some eip712Meta
  chainId_eq : request.chainId = some chain
  fromAddress : request.fromAddress.isSome = true
  toAddress : request.toAddress.isSome = true
  nonce : request.nonce.val < 2 ^ 64
  factoryDeps : validateOptionalDeps env eip712Meta.factoryDeps = .ok ()
  aligned : request.input.length % 8 = 0
  fits : FitsMemory request.input
  nineWords : 9 ≤ (words request.input).length
  counted : ∀ count, (words request.input)[8]? = some count →
    9 + count.val ≤ (words request.input).length
  paymaster : PaymasterAligned eip712Meta

/-- A request after a round trip: with the signature and the bytes, as an Ola transaction, and with
empty factory dependencies and signature in the place of missing ones. -/
def decoded (request : TransactionRequest) (eip712Meta : Eip712Meta)
    (signature : PackedEthSignature) (bytes : List UInt8) : TransactionRequest :=
  { request with
    v := some (Fin.ofNat _ signature.v.toNat)
    r := some (h256ToU256 signature.r)
    s := some (h256ToU256 signature.s)
    raw := some bytes
    transactionType := some (txType olaRawTxType)
    eip712Meta := some {
      factoryDeps := some (eip712Meta.factoryDeps.getD [])
      customSignature := some (eip712Meta.customSignature.getD [])
      paymasterParams := eip712Meta.paymasterParams } }

/-- The request that a caller expects back: the same one with the signature and the bytes. -/
def signed (request : TransactionRequest) (signature : PackedEthSignature) (bytes : List UInt8) :
    TransactionRequest :=
  { request with
    v := some (Fin.ofNat _ signature.v.toNat)
    r := some (h256ToU256 signature.r)
    s := some (h256ToU256 signature.s)
    raw := some bytes }

theorem fromVector_paymasterParams (paymasterParams : Option PaymasterParams) :
    PaymasterParams.fromVector (match paymasterParams with
      | some params => [params.paymaster.bytes, params.paymasterInput]
      | none => []) = .ok paymasterParams := by
  cases paymasterParams with
  | none => rfl
  | some params =>
    show (if hlength : params.paymaster.bytes.length = 32 then _ else _) = _
    rw [dif_pos params.paymaster.len]

/-- The fields of an EIP-712 or Ola request. -/
def eip712Items (request : TransactionRequest) (eip712Meta : Eip712Meta) (chain : U16)
    (fromAddress toAddress : Address) (signature : PackedEthSignature) : List Rlp.Item :=
  [Rlp.uint request.nonce.val, .data toAddress.bytes, .data request.input] ++
    signatureItems signature ++ [Rlp.uint chain.val, .data fromAddress.bytes] ++
    metaItems eip712Meta

theorem decodeEip712_encode (hlawful : env.rlp.Lawful) {request : TransactionRequest}
    {eip712Meta : Eip712Meta} {chain : U16} (hchain : request.chainId = some chain)
    {fromAddress toAddress : Address} (hfrom : request.fromAddress = some fromAddress)
    (hto : request.toAddress = some toAddress) {signature : PackedEthSignature}
    (hfits : FitsMemory (env.rlp.encode
      (.list (eip712Items request eip712Meta chain fromAddress toAddress signature)))) :
    decodeEip712 env (env.rlp.encode
      (.list (eip712Items request eip712Meta chain fromAddress toAddress signature))) chain =
      .ok { decoded request eip712Meta signature [] with raw := none } := by
  set items := eip712Items request eip712Meta chain fromAddress toAddress signature with hitems
  have hcount := hlawful.itemCount items hfits
  have hnonce := hlawful.u256At items 0 request.nonce hfits rfl
  have htoAt := hlawful.addressAt items 1 toAddress hfits rfl
  have hinput := hlawful.bytesAt items 2 request.input hfits rfl
  have hv := hlawful.u64At items 3 (Fin.ofNat _ signature.v.toNat) hfits (by
    rw [Fin.val_ofNat, Nat.mod_eq_of_lt (signature.v.toNat_lt.trans (by decide))]
    rfl)
  have hr := hlawful.u256At items 4 (h256ToU256 signature.r) hfits rfl
  have hs := hlawful.u256At items 5 (h256ToU256 signature.s) hfits rfl
  have hchainAt := hlawful.u16At items 6 chain hfits rfl
  have hfromAt := hlawful.addressAt items 7 fromAddress hfits rfl
  have hdeps := hlawful.listAt items 8 (eip712Meta.factoryDeps.getD []) hfits rfl
  have hsignature := hlawful.bytesAt items 9 (eip712Meta.customSignature.getD []) hfits rfl
  have hpaymaster := hlawful.listAt items 10 (match eip712Meta.paymasterParams with
      | some params => [params.paymaster.bytes, params.paymasterInput]
      | none => []) hfits (by
    cases hparams : eip712Meta.paymasterParams <;> simp [hitems, eip712Items, signatureItems,
      metaItems, hparams])
  unfold decodeEip712 decodeEip1559Fields
  simp only [hcount, hnonce, htoAt, hinput, hv, hr, hs, hchainAt, hfromAt, hdeps, hsignature,
    hpaymaster, rlpResult, Except.mapError, bind, Except.bind, Except.toOption,
    fromVector_paymasterParams]
  have hlength : items.length = 11 := rfl
  rw [if_neg (not_not.mpr hlength), if_neg (fun h => h.2 rfl)]
  simp only [decoded, hfrom, hto, hchain]

theorem IsEncodable.isSignable {request : TransactionRequest} {eip712Meta : Eip712Meta}
    {chain : U16}
    (h : IsEncodable env request eip712Meta chain) {fromAddress : Address}
    (hfrom : request.fromAddress = some fromAddress) (signature : PackedEthSignature)
    (bytes : List UInt8) :
    IsSignable (decoded request eip712Meta signature bytes)
      ⟨some (eip712Meta.factoryDeps.getD []), some (eip712Meta.customSignature.getD []),
        eip712Meta.paymasterParams⟩ chain fromAddress := by
  have hend : 8 ≤ posBizCalldataEnd (words request.input) ∧
      posBizCalldataEnd (words request.input) ≤ (words request.input).length := by
    obtain ⟨count, hcount⟩ : ∃ count, (words request.input)[8]? = some count :=
      ⟨_, List.getElem?_eq_getElem h.nineWords⟩
    have hle := h.counted count hcount
    have hsize : (words request.input).length < 2 ^ 64 := by
      have hfits : request.input.length < 256 ^ 8 := h.fits
      rw [length_words]
      omega
    rw [posBizCalldataEnd, hcount, Option.getD_some, Nat.mod_eq_of_lt (by omega)]
    omega
  exact {
    eip712Meta_eq := rfl
    paymaster := h.paymaster
    chainId_eq := h.chainId_eq
    fromAddress_eq := hfrom
    aligned := h.aligned
    nonce := h.nonce
    start_le := hend.1
    le_length := hend.2 }

/-- Missing factory dependencies are as valid as empty ones. -/
theorem validateOptionalDeps_getD (env : RequestEnv P) (factoryDeps : Option (List (List UInt8))) :
    validateOptionalDeps env (some (factoryDeps.getD [])) =
      validateOptionalDeps env factoryDeps := by
  cases factoryDeps <;> rfl

/-- An encoded EIP-712 or Ola request is decoded as an Ola request, if its factory dependencies are
valid. -/
theorem decodeRequest_encode (hlawful : env.rlp.Lawful) {request : TransactionRequest}
    {eip712Meta : Eip712Meta} {chain : U16} (hmeta : request.eip712Meta = some eip712Meta)
    (hchain : request.chainId = some chain) {fromAddress toAddress : Address}
    (hfrom : request.fromAddress = some fromAddress) (hto : request.toAddress = some toAddress)
    {t : UInt8} (ht : t = eip712TxType ∨ t = olaRawTxType)
    (htype : request.transactionType = some (txType t)) {signature : PackedEthSignature}
    {bytes : List UInt8} (hbytes : request.getSignedBytes env signature chain = some bytes)
    (hfits : FitsMemory bytes) :
    decodeRequest env bytes chain = (do
      validateOptionalDeps env eip712Meta.factoryDeps
      .ok (decoded request eip712Meta signature bytes)) := by
  have hitems : request.rlp chain signature =
      some (eip712Items request eip712Meta chain fromAddress toAddress signature) := by
    have hkind : (request.isEip712Tx || request.isOlaRawTx) = true := by
      unfold isEip712Tx isOlaRawTx
      rw [htype]
      rcases ht with rfl | rfl <;> decide
    have hnot : request.transactionType ≠ some (txType eip1559TxType) := by
      rw [htype]
      rcases ht with rfl | rfl <;> decide
    unfold rlp
    dsimp only
    rw [if_neg hnot, if_pos hkind, hto, hfrom, hmeta]
    rfl
  have htag : UInt8.ofNat (txType t).val = t := by
    rcases ht with rfl | rfl <;> decide
  have heq : bytes = t :: env.rlp.encode
      (.list (eip712Items request eip712Meta chain fromAddress toAddress signature)) := by
    unfold getSignedBytes at hbytes
    rw [hitems, htype] at hbytes
    dsimp only [Option.map_some] at hbytes
    rw [htag] at hbytes
    exact (Option.some.inj hbytes).symm
  have hlist : FitsMemory (env.rlp.encode
      (.list (eip712Items request eip712Meta chain fromAddress toAddress signature))) := by
    unfold FitsMemory at hfits ⊢
    rw [heq, List.length_cons] at hfits
    omega
  have hdecodeFields : decodeFields env bytes chain =
      .ok { decoded request eip712Meta signature [] with raw := none } := by
    rw [heq]
    show (if t = eip1559TxType then _ else _) = _
    rw [if_neg (by rcases ht with rfl | rfl <;> decide), if_pos ht]
    exact decodeEip712_encode hlawful hchain hfrom hto hlist
  unfold decodeRequest
  rw [hdecodeFields]
  show (do validateOptionalDeps env (some (eip712Meta.factoryDeps.getD [])); _) = _
  rw [validateOptionalDeps_getD]
  rfl

/-- Whatever is encoded as an EIP-712 or Ola request comes back as an Ola request. -/
theorem fromBytes_encode (hlawful : env.rlp.Lawful) {request : TransactionRequest}
    {eip712Meta : Eip712Meta} {chain : U16} (h : IsEncodable env request eip712Meta chain)
    {t : UInt8} (ht : t = eip712TxType ∨ t = olaRawTxType)
    (htype : request.transactionType = some (txType t)) {signature : PackedEthSignature}
    {bytes : List UInt8} (hbytes : request.getSignedBytes env signature chain = some bytes)
    (hfits : FitsMemory bytes) :
    ∃ hash, fromBytes env bytes chain = .ok (decoded request eip712Meta signature bytes, hash) := by
  obtain ⟨fromAddress, hfrom⟩ := Option.isSome_iff_exists.mp h.fromAddress
  obtain ⟨toAddress, hto⟩ := Option.isSome_iff_exists.mp h.toAddress
  have hdecode : decodeRequest env bytes chain =
      .ok (decoded request eip712Meta signature bytes) := by
    rw [decodeRequest_encode hlawful h.eip712Meta_eq h.chainId_eq hfrom hto ht htype hbytes hfits,
      h.factoryDeps]
    rfl
  have hsigned := intoSignedBytes_eq_ok.mpr
    ⟨_, chain, fromAddress, h.isSignable hfrom signature bytes, rfl⟩
  exact ⟨_, fromBytes_eq_ok.mpr ⟨hdecode, _, hsigned, rfl⟩⟩

/-- An encoded EIP-1559 request has seven fields where the decoder expects twelve. -/
theorem fromBytes_encode_eip1559 (hlawful : env.rlp.Lawful) (request : TransactionRequest)
    {chain : U16} (htype : request.transactionType = some (txType eip1559TxType))
    {signature : PackedEthSignature} {bytes : List UInt8}
    (hbytes : request.getSignedBytes env signature chain = some bytes) (hfits : FitsMemory bytes) :
    fromBytes env bytes chain = .error (.error (.decodeRlpError .rlpIncorrectListLen)) := by
  obtain ⟨items, hitems, hlength⟩ : ∃ items, request.rlp chain signature = some items ∧
      items.length = 7 := by
    unfold rlp
    dsimp only
    rw [if_pos htype]
    exact ⟨_, rfl, rfl⟩
  have heq : bytes = eip1559TxType :: env.rlp.encode (.list items) := by
    unfold getSignedBytes at hbytes
    rw [hitems, htype] at hbytes
    exact (Option.some.inj hbytes).symm
  have hlist : FitsMemory (env.rlp.encode (.list items)) := by
    unfold FitsMemory at hfits ⊢
    rw [heq, List.length_cons] at hfits
    omega
  have hcount := hlawful.itemCount items hlist
  have hdecode : decodeFields env bytes chain = .error (.decodeRlpError .rlpIncorrectListLen) := by
    rw [heq]
    show decodeEip1559 env (env.rlp.encode (.list items)) chain = _
    unfold decodeEip1559
    rw [hcount, hlength]
    rfl
  unfold fromBytes decodeRequest
  rw [hdecode]
  rfl

/-- A signed request comes back as it was exactly when it is an Ola request whose meta has factory
dependencies and a custom signature. -/
theorem fromBytes_getSignedBytes_iff (env : RequestEnv P) (hlawful : env.rlp.Lawful)
    (request : TransactionRequest) (eip712Meta : Eip712Meta) (chain : U16) (t : UInt8)
    (ht : t = eip1559TxType ∨ t = eip712TxType ∨ t = olaRawTxType)
    (htype : request.transactionType = some (txType t))
    (h : IsEncodable env request eip712Meta chain) (signature : PackedEthSignature)
    (bytes : List UInt8) (hbytes : request.getSignedBytes env signature chain = some bytes)
    (hfits : FitsMemory bytes) :
    (∃ hash, fromBytes env bytes chain = .ok (signed request signature bytes, hash)) ↔
      t = olaRawTxType ∧ eip712Meta.factoryDeps.isSome = true ∧
        eip712Meta.customSignature.isSome = true := by
  rcases ht with rfl | ht
  · rw [fromBytes_encode_eip1559 hlawful request htype hbytes hfits]
    constructor
    · rintro ⟨hash, hok⟩
      cases hok
    · rintro ⟨hne, -⟩
      exact absurd hne (by decide)
  obtain ⟨hash, hok⟩ := fromBytes_encode hlawful h ht htype hbytes hfits
  have hsame : (∃ hash, fromBytes env bytes chain = .ok (signed request signature bytes, hash)) ↔
      decoded request eip712Meta signature bytes = signed request signature bytes := by
    rw [hok]
    constructor
    · rintro ⟨hash', heq⟩
      exact congrArg Prod.fst (Except.ok.inj heq)
    · intro heq
      exact ⟨hash, by rw [heq]⟩
  rw [hsame]
  obtain ⟨factoryDeps, customSignature, paymasterParams⟩ := eip712Meta
  have hmeta := h.eip712Meta_eq
  constructor
  · intro heq
    have htypes := congrArg transactionType heq
    have hmetas := congrArg TransactionRequest.eip712Meta heq
    have hraw : txType olaRawTxType = txType t := by
      have hsome : some (txType olaRawTxType) = request.transactionType := htypes
      rw [htype] at hsome
      exact Option.some.inj hsome
    have hmetaEq : (⟨some (factoryDeps.getD []), some (customSignature.getD []),
        paymasterParams⟩ : Eip712Meta) = ⟨factoryDeps, customSignature, paymasterParams⟩ :=
      Option.some.inj (Eq.trans hmetas hmeta)
    obtain ⟨hdeps, hsignature, -⟩ := Eip712Meta.mk.inj hmetaEq
    refine ⟨?_, by rw [← hdeps]; rfl, by rw [← hsignature]; rfl⟩
    rcases ht with rfl | rfl
    · exact absurd hraw (by decide)
    · rfl
  · rintro ⟨rfl, hdeps, hsignature⟩
    obtain ⟨deps, rfl⟩ := Option.isSome_iff_exists.mp hdeps
    obtain ⟨customSignature, rfl⟩ := Option.isSome_iff_exists.mp hsignature
    unfold decoded signed
    rw [htype, hmeta]
    rfl

/-- Eight zero words, and calldata of two words with its length in front. -/
def sampleInput : List UInt8 :=
  List.replicate 71 0 ++ [2] ++ List.replicate 8 5 ++ List.replicate 8 6

def sampleRequest (t : UInt8) (eip712Meta : Eip712Meta) : TransactionRequest :=
  { nonce := 3, fromAddress := some .zero, toAddress := some .zero, input := sampleInput,
    transactionType := some (txType t), eip712Meta := some eip712Meta, chainId := some 1 }

/-- One dependency, a custom signature and a paymaster. -/
def sampleMeta : Eip712Meta :=
  ⟨some [[1, 2, 3]], some [1], some ⟨.zero, List.replicate 16 7⟩⟩

def sampleSignature : PackedEthSignature := ⟨.zero, .zero, 1⟩

theorem isEncodable_sampleRequest (t : UInt8) :
    IsEncodable sampleEnv (sampleRequest t sampleMeta) sampleMeta 1 where
  eip712Meta_eq := rfl
  chainId_eq := rfl
  fromAddress := rfl
  toAddress := rfl
  nonce := show 3 < 2 ^ 64 by decide
  factoryDeps := rfl
  aligned := by
    show sampleInput.length % 8 = 0
    decide
  fits := by
    show sampleInput.length < 256 ^ 8
    decide
  nineWords := by
    show 9 ≤ (words sampleInput).length
    decide
  counted := by
    have hcount : (words sampleInput)[8]? = some 2 := by decide
    intro count h
    obtain rfl := Option.some.inj (hcount.symm.trans h)
    show 11 ≤ (words sampleInput).length
    decide
  paymaster := by
    rintro params ⟨⟩
    rfl

theorem fromBytes_getSignedBytes_sample : ∃ bytes,
    (sampleRequest olaRawTxType sampleMeta).getSignedBytes sampleEnv sampleSignature 1 =
      some bytes ∧
    ∃ hash, fromBytes sampleEnv bytes 1 =
      .ok (signed (sampleRequest olaRawTxType sampleMeta) sampleSignature bytes, hash) := by
  refine ⟨_, rfl, ?_⟩
  refine (fromBytes_getSignedBytes_iff sampleEnv RlpReader.crate_lawful
    (sampleRequest olaRawTxType sampleMeta) sampleMeta 1 olaRawTxType (.inr (.inr rfl)) rfl
    (isEncodable_sampleRequest olaRawTxType) sampleSignature _ rfl ?_).mpr ⟨rfl, rfl, rfl⟩
  unfold FitsMemory
  decide +kernel

/-- An EIP-1559 request cannot be read back at all. -/
theorem fromBytes_getSignedBytes_counterexample : ∃ bytes,
    (sampleRequest eip1559TxType sampleMeta).getSignedBytes sampleEnv sampleSignature 1 =
      some bytes ∧
    fromBytes sampleEnv bytes 1 = .error (.error (.decodeRlpError .rlpIncorrectListLen)) := by
  refine ⟨_, rfl, fromBytes_encode_eip1559 RlpReader.crate_lawful
    (sampleRequest eip1559TxType sampleMeta) rfl rfl ?_⟩
  unfold FitsMemory
  decide +kernel

end TransactionRequest

end OlaOs
