import OlaOs.Dal.TransactionKeys
import OlaOs.Request.Binding

/-! From the bytes of a transaction to the executor: the checks of the sender
(`ola_core/src/api_server/tx_sender/mod.rs`), the table, and the encoding of the transaction
(`vm/src/transaction_data.rs`). -/
namespace OlaOs

/-- The values of `ola_lang_abi` that a transaction is encoded from. -/
inductive AbiValue where
  | u32 (value : U64)
  | address (words : U64Array)
  | fields (words : List U64)

/-- The code around the encoding: the encoder of `ola_lang_abi`, the hash, and the id of a protocol
upgrade. -/
structure AbiEnv where
  valueEncode : List AbiValue → List U64
  hashBytes : List UInt8 → H256
  upgradeId : ProtocolUpgradeTxCommonData → U16

structure TransactionData where
  txType : UInt8
  fromAddress : Address
  toAddress : Address
  nonce : U32
  reserved : Fin 4 → U256
  data : List UInt8
  signature : List UInt8
  factoryDeps : List (List UInt8)
  reservedDynamic : List UInt8

/-- The machine words of a `U256`, the lowest first. -/
def u256Words (value : U256) : List U64 :=
  [Fin.ofNat _ value.val, Fin.ofNat _ (value.val / 2 ^ 64), Fin.ofNat _ (value.val / 2 ^ 128),
    Fin.ofNat _ (value.val / 2 ^ 192)]

/-- `bytes_to_be_words`; its assertion fails on other lengths. -/
def bytesToBeWords (bytes : List UInt8) : Option (List U256) :=
  if bytes.length % 32 = 0 then
    some ((List.range (bytes.length / 32)).map fun i =>
      Fin.ofNat _ (Bytes.ofBE ((bytes.drop (32 * i)).take 32)))
  else none

namespace TransactionData

variable (env : AbiEnv)

def abiEncodeWithCustomFactoryDeps (tx : TransactionData) (factoryDepsHashes : List U256) :
    Option (List UInt8) := do
  let fromWords := h256ToU64Array tx.fromAddress
  let toWords := h256ToU64Array tx.toAddress
  let reserved := (List.ofFn tx.reserved).flatMap u256Words
  let data ← bytesToU64s tx.data
  let signature ← bytesToU64s tx.signature
  let factoryDeps := factoryDepsHashes.flatMap u256Words
  let reservedDynamic ← bytesToU64s tx.reservedDynamic
  some (u64sToBytes (env.valueEncode [.u32 (Fin.ofNat _ tx.txType.toNat), .address fromWords,
    .address toWords, .u32 (Fin.ofNat _ tx.nonce.val), .fields reserved, .fields data,
    .fields signature, .fields factoryDeps, .fields reservedDynamic]))

def abiEncode (tx : TransactionData) : Option (List UInt8) :=
  tx.abiEncodeWithCustomFactoryDeps env
    (tx.factoryDeps.map fun dep => h256ToU256 (env.hashBytes dep))

/-- The encoding in words of thirty-two bytes; whole words are followed by a word of zeros. -/
def intoTokens (tx : TransactionData) : Option (List U256) := do
  let bytes ← tx.abiEncode env
  bytesToBeWords (bytes ++ List.replicate (32 - bytes.length % 32) 0)

/-- `From<Transaction> for TransactionData` -/
def ofTransaction (tx : Transaction) : TransactionData :=
  match tx.commonData with
  | .l2 data => {
      txType := UInt8.ofNat data.transactionType.code.val
      fromAddress := data.initiatorAddress
      toAddress := tx.execute.contractAddress
      nonce := data.nonce
      reserved := fun _ => 0
      data := tx.execute.calldata
      signature := data.signature
      factoryDeps := tx.execute.factoryDeps.getD []
      reservedDynamic := [] }
  | .protocolUpgrade data => {
      txType := UInt8.ofNat TransactionType.protocolUpgradeTransaction.code.val
      fromAddress := data.sender
      toAddress := tx.execute.contractAddress
      nonce := Fin.ofNat _ (env.upgradeId data).val
      reserved := fun _ => 0
      data := tx.execute.calldata
      signature := []
      factoryDeps := tx.execute.factoryDeps.getD []
      reservedDynamic := [] }

end TransactionData

/-- `extractors::encoded_transaction_size`; there is no size where the encoding panics. -/
def encodedTransactionSize (env : AbiEnv) (tx : Transaction) : Option ℕ :=
  ((TransactionData.ofTransaction env tx).intoTokens env).map List.length

inductive SubmitTxError where
  | tooManyFactoryDependencies (actual max : ℕ)
  | nonceIsTooLow (expected max actual : U32)
  | nonceIsTooHigh (expected max actual : U32)
  deriving DecidableEq

def maxNewFactoryDeps : ℕ := 32

namespace TxSender

/-- The nonce is at the expected one or ahead of it; the bound is a machine word and wraps. -/
def validateAccountNonce (expectedNonce maxNonceAhead : U32) (tx : L2Tx) :
    Except SubmitTxError Unit :=
  let maxNonce := expectedNonce + maxNonceAhead
  if tx.commonData.nonce < expectedNonce then
    .error (.nonceIsTooLow expectedNonce maxNonce tx.nonce)
  else if ¬(expectedNonce ≤ tx.commonData.nonce ∧ tx.commonData.nonce ≤ maxNonce) then
    .error (.nonceIsTooHigh expectedNonce maxNonce tx.nonce)
  else .ok ()

def validateTx (expectedNonce maxNonceAhead : U32) (tx : L2Tx) : Except SubmitTxError Unit :=
  let factoryDepsLength := (tx.execute.factoryDeps.map List.length).getD 0
  if maxNewFactoryDeps < factoryDepsLength then
    .error (.tooManyFactoryDependencies factoryDepsLength maxNewFactoryDeps)
  else validateAccountNonce expectedNonce maxNonceAhead tx

end TxSender

/-- `L2Tx::set_input` -/
def L2Tx.setInput (tx : L2Tx) (data : List UInt8) (hash : H256) : L2Tx :=
  { tx with commonData := { tx.commonData with input := some ⟨hash, data⟩ } }

namespace TransactionRequest

variable {P : Type}

/-- A request that the node has taken: its bytes decode to it, it passes the checks, and the table
has been given the transaction `tx` for it. -/
structure IsAdmitted (env : RequestEnv P) (chainId : U16) (expectedNonce maxNonceAhead : U32)
    (bytes : List UInt8) (request : TransactionRequest) (hash : H256) (tx : L2Tx)
    (table table' : List TransactionRow) : Prop where
  fromBytes : fromBytes env bytes chainId = .ok (request, hash)
  fromRequest : ∃ now, L2Tx.fromRequest env now request = .ok tx
  validateTx : TxSender.validateTx expectedNonce maxNonceAhead (tx.setInput bytes hash) = .ok ()
  insert : ∃ result, (result = .added ∨ result = .replaced) ∧
    TransactionsDal.insertTransactionL2 table (tx.setInput bytes hash) = .ok (result, table')

/-- What is read from a row into the mempool is executed and measured without a panic. -/
def RunsRow (abi : AbiEnv) (row : TransactionRow) : Prop :=
  ∃ tx info size, TransactionsDal.rowToTransaction { row with inMempool := true } = .ok tx ∧
    BatchExecutor.tapeInitInfo tx = .ok info ∧ encodedTransactionSize abi tx = some size

/-- The request carries a signature of its own, of two halves of thirty-two bytes or longer, in
whole words. -/
def HasLongSignature (request : TransactionRequest) : Prop :=
  ∃ signature, request.getCustomSignature = some signature ∧ 64 ≤ signature.length ∧
    signature.length % 8 = 0

/-- The padded encoding is always cut into words. -/
theorem bytesToBeWords_padded (bytes : List UInt8) :
    ∃ tokens, bytesToBeWords (bytes ++ List.replicate (32 - bytes.length % 32) 0) =
      some tokens := by
  unfold bytesToBeWords
  refine ⟨_, if_pos ?_⟩
  rw [List.length_append, List.length_replicate]
  omega

/-- The encoded size of an L2 transaction exists exactly when its calldata and its signature are
whole words. -/
theorem exists_encodedTransactionSize_iff (abi : AbiEnv) (tx : L2Tx) :
    (∃ size, encodedTransactionSize abi tx.intoTransaction = some size) ↔
      tx.execute.calldata.length % 8 = 0 ∧ tx.commonData.signature.length % 8 = 0 := by
  unfold encodedTransactionSize TransactionData.intoTokens TransactionData.abiEncode
    TransactionData.abiEncodeWithCustomFactoryDeps
  simp only [TransactionData.ofTransaction, L2Tx.intoTransaction_commonData,
    Option.map_eq_some_iff, Option.bind_eq_bind, Option.bind_eq_some_iff, bytesToU64s_eq_some]
  constructor
  · rintro ⟨size, tokens, ⟨bytes, ⟨data, ⟨hdata, -⟩, signature, ⟨hsignature, -⟩, -⟩, -⟩, -⟩
    exact ⟨hdata, hsignature⟩
  · rintro ⟨hdata, hsignature⟩
    obtain ⟨tokens, htokens⟩ := bytesToBeWords_padded _
    exact ⟨_, tokens, ⟨_, ⟨_, ⟨hdata, rfl⟩, _, ⟨hsignature, rfl⟩, _, ⟨rfl, rfl⟩, rfl⟩, htokens⟩,
      rfl⟩

/-- The tape of an L2 transaction with a hash exists exactly when its signature has two halves and
its calldata is whole words. -/
theorem exists_tapeInitInfo_iff {tx : L2Tx} {hash : H256} (hhash : tx.hash = some hash) :
    (∃ info, BatchExecutor.tapeInitInfo tx.intoTransaction = .ok info) ↔
      64 ≤ tx.commonData.signature.length ∧ tx.execute.calldata.length % 8 = 0 := by
  unfold BatchExecutor.tapeInitInfo
  rw [L2Tx.intoTransaction_hash, hhash]
  have hexecute : tx.intoTransaction.execute = tx.execute := rfl
  simp only [L2Tx.intoTransaction_commonData, hexecute, bind, Except.bind]
  by_cases hshort : tx.commonData.signature.length < 64
  · constructor
    · rintro ⟨info, hinfo⟩
      rw [if_pos hshort] at hinfo
      cases hinfo
    · rintro ⟨hlong, -⟩
      omega
  · rw [if_neg hshort]
    cases hwords : bytesToU64s tx.execute.calldata with
    | none =>
      constructor
      · rintro ⟨info, hinfo⟩
        cases hinfo
      · rintro ⟨-, haligned⟩
        have hsome := bytesToU64s_eq_some.mpr ⟨haligned, rfl⟩
        rw [hwords] at hsome
        cases hsome
    | some calldata =>
      have haligned := (bytesToU64s_eq_some.mp hwords).1
      exact ⟨fun _ => ⟨by omega, haligned⟩, fun _ => ⟨_, rfl⟩⟩

/-- The long signatures are the ones a request brings along: the default one is too short. -/
theorem hasLongSignature_iff {request : TransactionRequest} :
    HasLongSignature request ↔
      64 ≤ request.getSignature.length ∧ request.getSignature.length % 8 = 0 := by
  unfold HasLongSignature getSignature
  cases hsignature : request.getCustomSignature with
  | none =>
    constructor
    · rintro ⟨signature, hnone, -⟩
      cases hnone
    · rintro ⟨hlong, -⟩
      simp at hlong
  | some signature =>
    cases signature with
    | nil =>
      constructor
      · rintro ⟨signature, hnil, hlong, -⟩
        obtain rfl := Option.some.inj hnil
        simp at hlong
      · rintro ⟨hlong, -⟩
        simp at hlong
    | cons b bytes => simp

/-- A request never names the type of a protocol upgrade. -/
theorem rowType_of_fromRequest {env : RequestEnv P} {now : U64} {request : TransactionRequest}
    {tx : L2Tx} (h : L2Tx.fromRequest env now request = .ok tx) :
    TransactionsDal.rowType (some tx.commonData.transactionType.txFormat) =
        some tx.commonData.transactionType ∧
      tx.commonData.transactionType.txFormat ≠
        TransactionType.protocolUpgradeTransaction.txFormat := by
  unfold L2Tx.fromRequest at h
  simp only [Seq.bind_eq_ok] at h
  obtain ⟨nonce, -, -, -, h⟩ := h
  cases hto : request.toAddress with
  | none =>
    rw [hto] at h
    cases h
  | some contractAddress =>
    rw [hto] at h
    obtain rfl := Except.ok.inj h
    dsimp only
    split_ifs <;> decide

/-- A row that a transaction is written to gives the transaction back. -/
theorem rowToTransaction_writeTx {row : TransactionRow} {hash : H256} {input : List UInt8}
    {tx : L2Tx} (hkey : TransactionsDal.hasKey tx.initiatorAccount tx.nonce.val row)
    (hinput : tx.commonData.input = some ⟨hash, input⟩)
    (htype : TransactionsDal.rowType (some tx.commonData.transactionType.txFormat) =
      some tx.commonData.transactionType)
    (hl2 : tx.commonData.transactionType.txFormat ≠
      TransactionType.protocolUpgradeTransaction.txFormat) :
    TransactionsDal.rowToTransaction
      { TransactionsDal.writeTx row hash input tx with inMempool := true } =
        .ok tx.intoTransaction := by
  obtain ⟨hinitiator, hnonce⟩ : row.initiatorAddress = tx.initiatorAccount ∧
      row.nonce = some (tx.nonce.val : ℤ) := by
    simpa [TransactionsDal.hasKey] using hkey
  unfold TransactionsDal.rowToTransaction TransactionsDal.writeTx
  dsimp only
  rw [if_neg (fun hformat => hl2 (Option.some.inj hformat)), hnonce, htype]
  dsimp only
  rw [asNonce_val, hinitiator, ← hinput]
  rfl

/-- A submission that is taken leaves exactly the written rows under the hash. -/
theorem exists_writeTx_of_insert {table table' : List TransactionRow} {tx : L2Tx}
    {hash : H256} {input : List UInt8} {result : L2TxSubmissionResult}
    (hinput : tx.commonData.input = some ⟨hash, input⟩)
    (h : TransactionsDal.insertTransactionL2 table tx = .ok (result, table'))
    (hresult : result = .added ∨ result = .replaced) {row : TransactionRow} (hrow : row ∈ table')
    (hhash : row.hash = hash) :
    ∃ old, TransactionsDal.hasKey tx.initiatorAccount tx.nonce.val old ∧
      row = TransactionsDal.writeTx old hash input tx := by
  unfold TransactionsDal.insertTransactionL2 at h
  rw [hinput] at h
  dsimp only at h
  split at h
  · split_ifs at h with hpending htaken
    · cases h
      simp at hresult
    · cases h
      obtain ⟨old, hold, rfl⟩ := List.mem_map.mp hrow
      by_cases hkey : TransactionsDal.hasKey tx.initiatorAccount tx.nonce.val old
      · exact ⟨old, hkey, if_pos hkey⟩
      · rw [if_neg hkey] at hhash
        -- another row under the hash would have been reported as a duplicate
        refine absurd (List.any_eq_true.mpr ⟨old, hold, ?_⟩) htaken
        simp [hhash, hkey]
    · cases h
      simp at hresult
  · split_ifs at h with htaken
    · cases h
      simp at hresult
    · cases h
      rcases List.mem_append.mp hrow with hold | hnew
      · refine absurd (List.any_eq_true.mpr ⟨row, hold, ?_⟩) htaken
        simp [hhash]
      · refine ⟨_, ?_, List.mem_singleton.mp hnew⟩
        simp [TransactionsDal.hasKey, TransactionsDal.emptyRow]

/-- An admitted transaction is executed and measured without a panic exactly when its request
carries a long signature in whole words. -/
theorem runsRow_iff (env : RequestEnv P) (abi : AbiEnv) (chainId : U16)
    (expectedNonce maxNonceAhead : U32) (bytes : List UInt8) (request : TransactionRequest)
    (hash : H256) (tx : L2Tx) (table table' : List TransactionRow)
    (h : IsAdmitted env chainId expectedNonce maxNonceAhead bytes request hash tx table table')
    (row : TransactionRow) (hrow : row ∈ table') (hhash : row.hash = hash) :
    RunsRow abi row ↔ HasLongSignature request := by
  obtain ⟨result, hresult, hinsert⟩ := h.insert
  obtain ⟨now, hfromRequest⟩ := h.fromRequest
  obtain ⟨htype, hl2⟩ := rowType_of_fromRequest hfromRequest
  have hread : TransactionsDal.rowToTransaction { row with inMempool := true } =
      .ok (tx.setInput bytes hash).intoTransaction := by
    obtain ⟨old, hkey, rfl⟩ := exists_writeTx_of_insert rfl hinsert hresult hrow hhash
    exact rowToTransaction_writeTx hkey rfl htype hl2
  obtain ⟨-, -, -, hcalldata, -, -, hsignature, -⟩ := fromRequest_eq_ok hfromRequest
  obtain ⟨-, signedBytes, hsigned, -⟩ := fromBytes_eq_ok.mp h.fromBytes
  obtain ⟨_, _, _, hsignable, -⟩ := intoSignedBytes_eq_ok.mp hsigned
  have haligned : (tx.setInput bytes hash).execute.calldata.length % 8 = 0 := by
    have heq : (tx.setInput bytes hash).execute.calldata = request.input := hcalldata
    rw [heq, hsignable.aligned]
  have hlength : (tx.setInput bytes hash).commonData.signature = request.getSignature := hsignature
  have htape := @exists_tapeInitInfo_iff (tx.setInput bytes hash) hash rfl
  have hsize := exists_encodedTransactionSize_iff abi (tx.setInput bytes hash)
  rw [hlength] at htape hsize
  rw [hasLongSignature_iff]
  constructor
  · rintro ⟨tx', info, size, hread', hinfo, hencoded⟩
    obtain rfl := Except.ok.inj (hread.symm.trans hread')
    exact ⟨(htape.mp ⟨info, hinfo⟩).1, (hsize.mp ⟨size, hencoded⟩).2⟩
  · rintro ⟨hlong, hwords⟩
    obtain ⟨info, hinfo⟩ := htape.mpr ⟨hlong, haligned⟩
    obtain ⟨size, hencoded⟩ := hsize.mpr ⟨haligned, hwords⟩
    exact ⟨_, info, size, hread, hinfo, hencoded⟩

/-- Every value in order, with its length in front of a list of fields. -/
def sampleAbi : AbiEnv where
  valueEncode values := values.flatMap fun value => match value with
    | .u32 value => [value]
    | .address words => List.ofFn words
    | .fields words => Fin.ofNat _ words.length :: words
  hashBytes _ := .zero
  upgradeId _ := 0

/-- The sample request with a signature in its meta, or none. -/
def sampleSigned (customSignature : Option (List UInt8)) : TransactionRequest :=
  sampleRequest olaRawTxType ⟨some [], customSignature, none⟩

/-- The sample request decodes, whatever its signature. -/
theorem fromBytes_sampleSigned (customSignature : Option (List UInt8)) {bytes : List UInt8}
    (hbytes : (sampleSigned customSignature).getSignedBytes sampleEnv sampleSignature 1 =
        some bytes)
    (hfits : FitsMemory bytes) :
    ∃ hash, fromBytes sampleEnv bytes 1 = .ok (decoded (sampleSigned customSignature)
      ⟨some [], customSignature, none⟩ sampleSignature bytes, hash) := by
  have hencodable : IsEncodable sampleEnv (sampleSigned customSignature)
      ⟨some [], customSignature, none⟩ 1 :=
    { isEncodable_sampleRequest olaRawTxType with
      eip712Meta_eq := rfl
      paymaster := nofun }
  exact fromBytes_encode RlpReader.crate_lawful hencodable (.inr rfl) rfl hbytes hfits

/-- With a signature of sixty-four bytes. -/
theorem runsRow_iff_sample : ∃ bytes request hash tx row,
    IsAdmitted sampleEnv 1 3 0 bytes request hash tx [] [row] ∧ RunsRow sampleAbi row := by
  have hfits : FitsMemory (((sampleSigned (some (List.replicate 64 1))).getSignedBytes sampleEnv
      sampleSignature 1).getD []) := by
    unfold FitsMemory
    decide +kernel
  obtain ⟨hash, hfromBytes⟩ := fromBytes_sampleSigned (some (List.replicate 64 1)) rfl hfits
  have hadmitted : IsAdmitted sampleEnv 1 3 0 _ _ hash _ [] [_] :=
    ⟨hfromBytes, ⟨0, rfl⟩, rfl, _, .inl rfl, rfl⟩
  refine ⟨_, _, hash, _, _, hadmitted, ?_⟩
  exact (runsRow_iff sampleEnv sampleAbi 1 3 0 _ _ hash _ [] _ hadmitted _
    (List.mem_singleton_self _) rfl).mpr ⟨List.replicate 64 1, rfl, by decide, by decide⟩

/-- Without a signature in the meta the default one is stored, and the executor panics on it. -/
theorem runsRow_iff_counterexample : ∃ bytes request hash tx row,
    IsAdmitted sampleEnv 1 3 0 bytes request hash tx [] [row] ∧
      ∃ transaction, TransactionsDal.rowToTransaction { row with inMempool := true } =
        .ok transaction ∧
      BatchExecutor.tapeInitInfo transaction = .error .signatureTooShort := by
  have hfits : FitsMemory (((sampleSigned none).getSignedBytes sampleEnv sampleSignature 1).getD
      []) := by
    unfold FitsMemory
    decide +kernel
  obtain ⟨hash, hfromBytes⟩ := fromBytes_sampleSigned none rfl hfits
  exact ⟨_, _, hash, _, _, ⟨hfromBytes, ⟨0, rfl⟩, rfl, _, .inl rfl, rfl⟩, _, rfl, rfl⟩

end TransactionRequest

end OlaOs
