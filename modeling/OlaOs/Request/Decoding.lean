import OlaOs.Lib.Seq
import OlaOs.Request.Reader

/-! When the decoding of raw bytes reaches a panic. -/
namespace OlaOs

theorem orRequestPanic_eq_ok {α : Type} {p : RequestPanic} {o : Option α} {a : α} :
    orRequestPanic p o = .ok a ↔ o = some a := by
  cases o with
  | none => exact ⟨nofun, nofun⟩
  | some b => simp [orRequestPanic]

theorem panicUnless_eq_ok {p : RequestPanic} {condition : Bool} {u : Unit} :
    panicUnless p condition = .ok u ↔ condition = true := by
  cases condition with
  | false => exact ⟨nofun, nofun⟩
  | true => exact ⟨fun _ => rfl, fun _ => rfl⟩

theorem sliceWords_eq_ok {words slice : List U64} {start stop : ℕ} :
    sliceWords words start stop = .ok slice ↔
      start ≤ stop ∧ stop ≤ words.length ∧ slice = (words.take stop).drop start := by
  unfold sliceWords
  split_ifs with h
  · constructor
    · intro hok
      exact ⟨h.1, h.2, (Except.ok.inj hok).symm⟩
    · rintro ⟨-, -, rfl⟩
      rfl
  · exact ⟨nofun, fun hok => absurd ⟨hok.1, hok.2.1⟩ h⟩

/-- The words of a byte string. -/
def words (bytes : List UInt8) : List U64 := (List.range (bytes.length / 8)).map (wordAt bytes)

@[simp] theorem length_words (bytes : List UInt8) : (words bytes).length = bytes.length / 8 := by
  simp [words]

theorem bytesToU64s_eq_some {bytes : List UInt8} {w : List U64} :
    bytesToU64s bytes = some w ↔ bytes.length % 8 = 0 ∧ w = words bytes := by
  unfold bytesToU64s
  split_ifs with h
  · simp [words, h, eq_comm]
  · simp [h]

namespace TransactionRequest

/-- The paymaster input of a request, if there is one, consists of whole words. -/
def PaymasterAligned (eip712Meta : Eip712Meta) : Prop :=
  ∀ params, eip712Meta.paymasterParams = some params → params.paymasterInput.length % 8 = 0

/-- What `into_signed_bytes` relies on: there are a meta, a chain id and a sender, the input and the
paymaster input consist of whole words, the nonce fits a machine word, and the ninth word of the
input counts at most the words behind it (up to the wrapping of the sum). -/
structure IsSignable (tx : TransactionRequest) (eip712Meta : Eip712Meta) (chainId : U16)
    (fromAddress : Address) : Prop where
  eip712Meta_eq : tx.eip712Meta = some eip712Meta
  paymaster : PaymasterAligned eip712Meta
  chainId_eq : tx.chainId = some chainId
  fromAddress_eq : tx.fromAddress = some fromAddress
  aligned : tx.input.length % 8 = 0
  nonce : tx.nonce.val < 2 ^ 64
  start_le : 8 ≤ posBizCalldataEnd (words tx.input)
  le_length : posBizCalldataEnd (words tx.input) ≤ (words tx.input).length

/-- The words of a paymaster without the panics. -/
def paymasterPart : Option PaymasterParams → List U64
  | none => []
  | some params => List.ofFn (h256ToU64Array params.paymaster) ++
      [Fin.ofNat _ (params.paymasterInput.length / 8)] ++ words params.paymasterInput

/-- The target address and the business calldata in the input. -/
def bizPart (input : List U64) : List U64 :=
  (input.take 8).drop 4 ++ (input.take (posBizCalldataEnd input)).drop 8

/-- The words that are signed. -/
def signedWords (tx : TransactionRequest) (eip712Meta : Eip712Meta) (chainId : U16)
    (fromAddress : Address) : List U64 :=
  [Fin.ofNat _ chainId.val, tx.transactionType.getD (txType olaRawTxType),
    Fin.ofNat _ tx.nonce.val] ++ List.ofFn (h256ToU64Array fromAddress) ++
    bizPart (words tx.input) ++ paymasterPart eip712Meta.paymasterParams

theorem paymasterWords_eq_ok {paymasterParams : Option PaymasterParams} {w : List U64} :
    paymasterWords paymasterParams = .ok w ↔
      (∀ params, paymasterParams = some params → params.paymasterInput.length % 8 = 0) ∧
        w = paymasterPart paymasterParams := by
  cases paymasterParams with
  | none => simp [paymasterWords, paymasterPart, eq_comm]
  | some params =>
    unfold paymasterWords
    rw [Seq.bind_eq_ok]
    constructor
    · rintro ⟨input, hinput, hok⟩
      obtain ⟨haligned, rfl⟩ := bytesToU64s_eq_some.mp (orRequestPanic_eq_ok.mp hinput)
      refine ⟨?_, (Except.ok.inj hok).symm⟩
      rintro params' ⟨⟩
      exact haligned
    · rintro ⟨haligned, rfl⟩
      exact ⟨_, orRequestPanic_eq_ok.mpr (bytesToU64s_eq_some.mpr ⟨haligned params rfl, rfl⟩), rfl⟩

/-- The signed bytes of a request exist exactly when it is signable. -/
theorem intoSignedBytes_eq_ok {tx : TransactionRequest} {bytes : List UInt8} :
    tx.intoSignedBytes = .ok bytes ↔ ∃ eip712Meta chainId fromAddress,
      IsSignable tx eip712Meta chainId fromAddress ∧
        bytes = u64sToBytes (signedWords tx eip712Meta chainId fromAddress) := by
  unfold intoSignedBytes
  simp only [Seq.bind_eq_ok, orRequestPanic_eq_ok, panicUnless_eq_ok, sliceWords_eq_ok,
    bytesToU64s_eq_some, paymasterWords_eq_ok, decide_eq_true_eq]
  constructor
  · rintro ⟨eip712Meta, hmeta, -, haligned, -, hpaymaster, chainId, hchainId, -, hnonce,
      fromAddress, hfrom, -, ⟨-, rfl⟩, bizInput, ⟨hstart, hstop, rfl⟩, bizAddr,
      ⟨-, hlength, rfl⟩, paymaster, ⟨hparams, rfl⟩, hok⟩
    refine ⟨eip712Meta, chainId, fromAddress,
      ⟨hmeta, hparams, hchainId, hfrom, haligned, hnonce, hstart, hstop⟩, ?_⟩
    rw [← Except.ok.inj hok, signedWords, bizPart]
    simp only [List.append_assoc]
  · rintro ⟨eip712Meta, chainId, fromAddress,
      ⟨hmeta, hparams, hchainId, hfrom, haligned, hnonce, hstart, hstop⟩, rfl⟩
    refine ⟨eip712Meta, hmeta, (), haligned, (), ?_, chainId, hchainId, (), hnonce, fromAddress,
      hfrom, _, ⟨haligned, rfl⟩, _, ⟨hstart, hstop, rfl⟩, _,
      ⟨by omega, hstart.trans hstop, rfl⟩, _, ⟨hparams, rfl⟩, ?_⟩
    · rw [Option.all_eq_true]
      intro params hsome
      exact decide_eq_true (hparams params hsome)
    · rw [signedWords, bizPart]
      simp only [List.append_assoc]

variable {P : Type}

theorem mapError_eq_ok {α ε ε' : Type} {f : ε → ε'} {x : Except ε α} {a : α} :
    x.mapError f = .ok a ↔ x = .ok a := by
  cases x with
  | error e => exact ⟨nofun, nofun⟩
  | ok b => simp [Except.mapError]

/-- A request is accepted when its bytes decode and it can be signed. -/
theorem fromBytes_eq_ok {env : RequestEnv P} {bytes : List UInt8} {chainId : U16}
    {tx : TransactionRequest} {hash : H256} :
    fromBytes env bytes chainId = .ok (tx, hash) ↔ decodeRequest env bytes chainId = .ok tx ∧
      ∃ signedBytes, tx.intoSignedBytes = .ok signedBytes ∧
        hash = requestHash env tx bytes signedBytes := by
  unfold fromBytes
  simp only [Seq.bind_eq_ok, mapError_eq_ok]
  constructor
  · rintro ⟨tx', hdecode, signedBytes, hsigned, hok⟩
    split_ifs at hok
    obtain ⟨rfl, rfl⟩ := Prod.mk.inj (Except.ok.inj hok)
    exact ⟨hdecode, signedBytes, hsigned, rfl⟩
  · rintro ⟨hdecode, signedBytes, hsigned, rfl⟩
    obtain ⟨eip712Meta, txChainId, fromAddress, hsignable, -⟩ := intoSignedBytes_eq_ok.mp hsigned
    refine ⟨tx, hdecode, signedBytes, hsigned, if_neg ?_⟩
    rw [hsignable.fromAddress_eq]
    exact Option.some_ne_none _

/-- The bytes decode to a request that can be signed, or do not decode. -/
def Decent (env : RequestEnv P) (bytes : List UInt8) (chainId : U16) : Prop :=
  ∀ tx, decodeRequest env bytes chainId = .ok tx →
    ∃ eip712Meta txChainId fromAddress, IsSignable tx eip712Meta txChainId fromAddress

/-- Decoding reaches a panic exactly on the bytes that decode to a request that cannot be signed. -/
theorem fromBytes_total_iff (env : RequestEnv P) (bytes : List UInt8) (chainId : U16) :
    (∀ p, fromBytes env bytes chainId ≠ .error (.panic p)) ↔ Decent env bytes chainId := by
  unfold fromBytes Decent
  cases hdecode : decodeRequest env bytes chainId with
  | error e =>
    constructor
    · intro _ tx htx
      cases htx
    · intro _ p hp
      cases hp
  | ok tx =>
    simp only [Except.mapError, bind, Except.bind, Except.ok.injEq, forall_eq']
    cases hsigned : tx.intoSignedBytes with
    | ok signedBytes =>
      obtain ⟨eip712Meta, txChainId, fromAddress, hsignable, -⟩ := intoSignedBytes_eq_ok.mp hsigned
      constructor
      · exact fun _ => ⟨eip712Meta, txChainId, fromAddress, hsignable⟩
      · intro _ p hp
        dsimp only at hp
        split_ifs at hp
        cases hp
    | error p =>
      constructor
      · intro hnot
        exact absurd rfl (hnot p)
      · rintro ⟨eip712Meta, txChainId, fromAddress, hsignable⟩
        have hok := intoSignedBytes_eq_ok.mpr ⟨eip712Meta, txChainId, fromAddress, hsignable, rfl⟩
        rw [hsigned] at hok
        cases hok

/-- The readers, with one program and one hash. -/
def sampleEnv : RequestEnv Unit where
  rlp := RlpReader.crate
  deserialize _ := some ()
  bytecodeU64s _ := some []
  hashBytes _ := .zero

/-- An EIP-1559 transaction for chain 1 with all other fields empty. -/
def sampleEip1559 : List UInt8 :=
  [0x02, 0xcc, 0x01, 0x80, 0x80, 0x80, 0x80, 0x80, 0x80, 0x80, 0xc0, 0x80, 0x80, 0x80]

/-- It decodes, has no meta, and the handler panics. -/
theorem fromBytes_total_counterexample :
    fromBytes sampleEnv sampleEip1559 1 = .error (.panic .noMeta) := rfl

end TransactionRequest

end OlaOs
