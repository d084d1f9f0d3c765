import OlaOs.Request.RoundTrip

/-! What the hash of a transaction determines of its execution. -/
namespace OlaOs

section Words

theorem wordAt_drop (bytes : List UInt8) (i : ℕ) :
    wordAt (bytes.drop 8) i = wordAt bytes (i + 1) := by
  unfold wordAt
  rw [List.drop_drop]
  congr 3
  ring_nf

/-- The first word of a string and the words of the rest. -/
theorem words_cons {bytes : List UInt8} (h : 8 ≤ bytes.length) :
    words bytes = wordAt bytes 0 :: words (bytes.drop 8) := by
  have hlength : bytes.length / 8 = (bytes.drop 8).length / 8 + 1 := by
    rw [List.length_drop]
    omega
  unfold words
  rw [hlength, List.range_succ_eq_map, List.map_cons, List.map_map]
  congr 1
  refine List.map_congr_left fun i _ => ?_
  rw [wordAt_drop]
  rfl

theorem toBE_wordAt_zero {bytes : List UInt8} (h : 8 ≤ bytes.length) :
    Bytes.toBE 8 (wordAt bytes 0).val = bytes.take 8 := by
  have hlength : (bytes.take 8).length = 8 := by
    rw [List.length_take]
    omega
  have hlt : Bytes.ofBE (bytes.take 8) < 2 ^ 64 := by
    have hofBE := Bytes.ofBE_lt (bytes.take 8)
    rw [hlength] at hofBE
    exact hofBE
  have hval : (wordAt bytes 0).val = Bytes.ofBE (bytes.take 8) := by
    unfold wordAt
    rw [Nat.mul_zero, List.drop_zero, Fin.val_ofNat, Nat.mod_eq_of_lt hlt]
  rw [hval]
  have hround := Bytes.toBE_ofBE (bytes.take 8)
  rwa [hlength] at hround

/-- Whole words are written back as the bytes they were read from. -/
theorem u64sToBytes_words {bytes : List UInt8} (h : bytes.length % 8 = 0) :
    u64sToBytes (words bytes) = bytes := by
  induction hn : bytes.length / 8 generalizing bytes with
  | zero =>
    have hnil : bytes = [] := List.length_eq_zero_iff.mp (by omega)
    rw [hnil]
    rfl
  | succ n ih =>
    have hlong : 8 ≤ bytes.length := by omega
    have hrest : u64sToBytes (words (bytes.drop 8)) = bytes.drop 8 := by
      refine ih ?_ ?_
      · rw [List.length_drop]
        omega
      · rw [List.length_drop]
        omega
    rw [words_cons hlong]
    show Bytes.toBE 8 (wordAt bytes 0).val ++ u64sToBytes (words (bytes.drop 8)) = bytes
    rw [hrest, toBE_wordAt_zero hlong, List.take_append_drop]

theorem words_injective {bytes bytes' : List UInt8} (h : bytes.length % 8 = 0)
    (h' : bytes'.length % 8 = 0) (heq : words bytes = words bytes') : bytes = bytes' := by
  rw [← u64sToBytes_words h, ← u64sToBytes_words h', heq]

theorem u64sToBytes_injective : Function.Injective u64sToBytes := by
  intro w
  induction w with
  | nil =>
    intro w' heq
    cases w' with
    | nil => rfl
    | cons a w' =>
      have hlength := congrArg List.length heq
      simp [u64sToBytes] at hlength
      omega
  | cons a w ih =>
    intro w' heq
    cases w' with
    | nil =>
      have hlength := congrArg List.length heq
      simp [u64sToBytes] at hlength
    | cons b w' =>
      have heq' : Bytes.toBE 8 a.val ++ u64sToBytes w = Bytes.toBE 8 b.val ++ u64sToBytes w' := heq
      obtain ⟨hfirst, hrest⟩ := List.append_inj heq' (by simp)
      have hval : a.val = b.val := by
        have hofBE := congrArg Bytes.ofBE hfirst
        rwa [Bytes.ofBE_toBE_of_lt (a.isLt.trans_eq (by norm_num)),
          Bytes.ofBE_toBE_of_lt (b.isLt.trans_eq (by norm_num))] at hofBE
      rw [Fin.ext hval, ih hrest]

theorem ofFn_h256ToU64Array (h : H256) : List.ofFn (h256ToU64Array h) = words h.bytes := by
  unfold words
  rw [h.len]
  rfl

theorem ofFn_h256ToU64Array_injective {a b : H256}
    (h : List.ofFn (h256ToU64Array a) = List.ofFn (h256ToU64Array b)) : a = b := by
  rw [ofFn_h256ToU64Array, ofFn_h256ToU64Array] at h
  have hbytes := words_injective (by rw [a.len]) (by rw [b.len]) h
  cases a
  cases b
  simpa using hbytes

end Words

namespace TransactionRequest

variable {P : Type} {env : RequestEnv P}

/-- The bytes of a request are accepted and give the transaction that is executed. -/
structure IsAccepted (env : RequestEnv P) (chainId : U16) (bytes : List UInt8)
    (request : TransactionRequest) (tx : L2Tx) : Prop where
  fromBytes : ∃ hash, fromBytes env bytes chainId = .ok (request, hash)
  fromRequest : ∃ now, L2Tx.fromRequest env now request = .ok tx

/-- Everything that is executed or stored under the hash is the same. -/
def SameExecution (tx tx' : L2Tx) : Prop :=
  tx.execute.calldata = tx'.execute.calldata ∧ tx.initiatorAccount = tx'.initiatorAccount ∧
    tx.nonce = tx'.nonce ∧ tx.execute.contractAddress = tx'.execute.contractAddress ∧
    tx.execute.factoryDeps = tx'.execute.factoryDeps

/-- The parts of two requests that the signed message leaves out: the contract address, the factory
dependencies, the first four words of the input, the words behind the business calldata and the
length of the input. -/
structure SameUnsigned (request request' : TransactionRequest) : Prop where
  toAddress : request.toAddress = request'.toAddress
  factoryDeps : request.eip712Meta.bind Eip712Meta.factoryDeps =
    request'.eip712Meta.bind Eip712Meta.factoryDeps
  first : (words request.input).take 4 = (words request'.input).take 4
  rest : (words request.input).drop (posBizCalldataEnd (words request.input)) =
    (words request'.input).drop (posBizCalldataEnd (words request'.input))
  length : request.input.length = request'.input.length

/-- What `from_request` takes from a request. -/
theorem fromRequest_eq_ok {now : U64} {request : TransactionRequest} {tx : L2Tx}
    (h : L2Tx.fromRequest env now request = .ok tx) :
    request.nonce.val < 2 ^ 32 ∧ tx.nonce.val = request.nonce.val ∧
      request.toAddress = some tx.execute.contractAddress ∧ tx.execute.calldata = request.input ∧
      tx.execute.factoryDeps = request.eip712Meta.bind Eip712Meta.factoryDeps ∧
      tx.initiatorAccount = request.fromAddress.getD .zero ∧
      tx.commonData.signature = request.getSignature ∧ tx.commonData.input = none := by
  unfold L2Tx.fromRequest getNonceChecked at h
  simp only [Seq.bind_eq_ok] at h
  obtain ⟨nonce, hnonce, -, -, h⟩ := h
  split_ifs at hnonce with hle
  obtain rfl := Except.ok.inj hnonce
  cases hto : request.toAddress with
  | none =>
    rw [hto] at h
    cases h
  | some contractAddress =>
    rw [hto] at h
    obtain rfl := Except.ok.inj h
    refine ⟨by omega, ?_, rfl, rfl, rfl, rfl, rfl, rfl⟩
    show (Fin.ofNat _ request.nonce.val).val = _
    rw [Fin.val_ofNat, Nat.mod_eq_of_lt (by omega)]

/-- The input is its first four words, the signed part and the rest. -/
theorem words_eq_append {input : List U64} (hstart : 8 ≤ posBizCalldataEnd input) :
    input = input.take 4 ++ (bizPart input ++ input.drop (posBizCalldataEnd input)) := by
  have hcut {n m : ℕ} (hle : n ≤ m) : input.take n ++ (input.take m).drop n = input.take m := by
    have hsplit := List.take_append_drop n (input.take m)
    rwa [List.take_take, min_eq_left hle] at hsplit
  unfold bizPart
  rw [List.append_assoc, ← List.append_assoc, hcut (by omega), ← List.append_assoc, hcut hstart,
    List.take_append_drop]

theorem length_bizPart {input : List U64} (hstart : 8 ≤ posBizCalldataEnd input)
    (hstop : posBizCalldataEnd input ≤ input.length) :
    (bizPart input).length = posBizCalldataEnd input - 4 := by
  simp only [bizPart, List.length_append, List.length_drop, List.length_take]
  omega

/-- Two requests with the same signed bytes have the same sender and nonce, and the same signed part
of the input if it ends at the same place. -/
theorem signedBytes_inj {request request' : TransactionRequest} {signedBytes : List UInt8}
    (h : request.intoSignedBytes = .ok signedBytes)
    (h' : request'.intoSignedBytes = .ok signedBytes) :
    request.fromAddress = request'.fromAddress ∧ request.nonce.val = request'.nonce.val ∧
      (posBizCalldataEnd (words request.input) = posBizCalldataEnd (words request'.input) →
        bizPart (words request.input) = bizPart (words request'.input)) := by
  obtain ⟨eip712Meta, chainId, fromAddress, hsignable, hbytes⟩ := intoSignedBytes_eq_ok.mp h
  obtain ⟨eip712Meta', chainId', fromAddress', hsignable', hbytes'⟩ := intoSignedBytes_eq_ok.mp h'
  have hwords := u64sToBytes_injective (hbytes.symm.trans hbytes')
  unfold signedWords at hwords
  simp only [List.append_assoc] at hwords
  obtain ⟨hhead, htail⟩ := List.append_inj hwords rfl
  obtain ⟨hfrom, htail⟩ := List.append_inj htail (by simp)
  refine ⟨?_, ?_, fun hend => ?_⟩
  · rw [hsignable.fromAddress_eq, hsignable'.fromAddress_eq, ofFn_h256ToU64Array_injective hfrom]
  · have hnonce : (Fin.ofNat (2 ^ 64) request.nonce.val) = Fin.ofNat _ request'.nonce.val :=
      (List.cons.inj (List.cons.inj (List.cons.inj hhead).2).2).1
    have hval := congrArg Fin.val hnonce
    rwa [Fin.val_ofNat, Fin.val_ofNat, Nat.mod_eq_of_lt hsignable.nonce,
      Nat.mod_eq_of_lt hsignable'.nonce] at hval
  · refine (List.append_inj htail ?_).1
    rw [length_bizPart hsignable.start_le hsignable.le_length,
      length_bizPart hsignable'.start_le hsignable'.le_length, hend]

/-- Two accepted transactions with the same hash input are executed alike exactly when they agree on
what the signed message leaves out. -/
theorem sameExecution_iff (env : RequestEnv P) (chainId : U16) (bytes bytes' : List UInt8)
    (request request' : TransactionRequest) (tx tx' : L2Tx)
    (h : IsAccepted env chainId bytes request tx)
    (h' : IsAccepted env chainId bytes' request' tx')
    (hsigned : request.intoSignedBytes = request'.intoSignedBytes)
    (_hsignature : request.getSignature = request'.getSignature) :
    SameExecution tx tx' ↔ SameUnsigned request request' := by
  obtain ⟨⟨hash, hfromBytes⟩, now, hfromRequest⟩ := h
  obtain ⟨⟨hash', hfromBytes'⟩, now', hfromRequest'⟩ := h'
  obtain ⟨-, signedBytes, hbytes, -⟩ := fromBytes_eq_ok.mp hfromBytes
  have hbytes' : request'.intoSignedBytes = .ok signedBytes := hsigned.symm.trans hbytes
  obtain ⟨hsender, hnonces, hbiz⟩ := signedBytes_inj hbytes hbytes'
  obtain ⟨_, _, _, hsignable, -⟩ := intoSignedBytes_eq_ok.mp hbytes
  obtain ⟨_, _, _, hsignable', -⟩ := intoSignedBytes_eq_ok.mp hbytes'
  obtain ⟨-, hnonce, hto, hcalldata, hdeps, hinitiator, -⟩ := fromRequest_eq_ok hfromRequest
  obtain ⟨-, hnonce', hto', hcalldata', hdeps', hinitiator', -⟩ := fromRequest_eq_ok hfromRequest'
  constructor
  · rintro ⟨hsameData, -, -, hsameContract, hsameDeps⟩
    have hinput : request.input = request'.input := by
      rw [← hcalldata, ← hcalldata', hsameData]
    exact {
      toAddress := by rw [hto, hto', hsameContract]
      factoryDeps := by rw [← hdeps, ← hdeps', hsameDeps]
      first := by rw [hinput]
      rest := by rw [hinput]
      length := by rw [hinput] }
  · intro hsame
    have hend : posBizCalldataEnd (words request.input) =
        posBizCalldataEnd (words request'.input) := by
      have hrest := congrArg List.length hsame.rest
      have hle := hsignable.le_length
      have hle' := hsignable'.le_length
      rw [List.length_drop, List.length_drop] at hrest
      rw [length_words] at hrest hle
      rw [length_words] at hrest hle'
      rw [hsame.length] at hrest hle
      omega
    have hwords : words request.input = words request'.input := by
      rw [words_eq_append hsignable.start_le, words_eq_append hsignable'.start_le, hsame.first,
        hbiz hend, hsame.rest]
    refine ⟨?_, ?_, Fin.ext (by rw [hnonce, hnonce', hnonces]), ?_, ?_⟩
    · rw [hcalldata, hcalldata']
      exact words_injective hsignable.aligned hsignable'.aligned hwords
    · rw [hinitiator, hinitiator', hsender]
    · have hsome := hsame.toAddress
      rw [hto, hto'] at hsome
      exact Option.some.inj hsome
    · rw [hdeps, hdeps', hsame.factoryDeps]

/-- The sample request with another contract address. -/
def sampleRequestTo (address : Address) : TransactionRequest :=
  { sampleRequest olaRawTxType sampleMeta with toAddress := some address }

def oneAddress : Address := ⟨List.replicate 31 0 ++ [1], rfl⟩

/-- What the sample is decoded to is accepted, and is sent to the chosen address. -/
theorem isAccepted_sampleRequestTo (address : Address) (signature : PackedEthSignature)
    {bytes : List UInt8}
    (hbytes : (sampleRequestTo address).getSignedBytes sampleEnv signature 1 = some bytes)
    (hfits : FitsMemory bytes) :
    ∃ tx, IsAccepted sampleEnv 1 bytes
      (decoded (sampleRequestTo address) sampleMeta signature bytes)
      tx ∧ tx.execute.contractAddress = address := by
  have hencodable : IsEncodable sampleEnv (sampleRequestTo address) sampleMeta 1 :=
    { isEncodable_sampleRequest olaRawTxType with toAddress := rfl }
  have hfromBytes := fromBytes_encode RlpReader.crate_lawful hencodable (.inr rfl) rfl hbytes hfits
  exact ⟨_, ⟨hfromBytes, 0, rfl⟩, rfl⟩

/-- Two signatures in the envelope of one request. -/
theorem sameExecution_iff_sample : ∃ bytes bytes' request request' tx tx',
    bytes ≠ bytes' ∧ IsAccepted sampleEnv 1 bytes request tx ∧
      IsAccepted sampleEnv 1 bytes' request' tx' ∧ SameExecution tx tx' := by
  have hfits : FitsMemory (((sampleRequestTo .zero).getSignedBytes sampleEnv sampleSignature 1).getD
      []) := by
    unfold FitsMemory
    decide +kernel
  have hfits' : FitsMemory (((sampleRequestTo .zero).getSignedBytes sampleEnv
      ⟨.zero, .zero, 0⟩ 1).getD []) := by
    unfold FitsMemory
    decide +kernel
  obtain ⟨tx, haccepted, -⟩ := isAccepted_sampleRequestTo .zero sampleSignature rfl hfits
  obtain ⟨tx', haccepted', -⟩ := isAccepted_sampleRequestTo .zero ⟨.zero, .zero, 0⟩ rfl hfits'
  refine ⟨_, _, _, _, tx, tx', by decide +kernel, haccepted, haccepted', ?_⟩
  exact (sameExecution_iff sampleEnv 1 _ _ _ _ tx tx' haccepted haccepted' rfl rfl).mpr
    ⟨rfl, rfl, rfl, rfl, rfl⟩

/-- The contract address is not signed: two requests with the same signed bytes and the same
signature call different contracts. -/
theorem sameExecution_iff_counterexample : ∃ bytes bytes' request request' tx tx',
    IsAccepted sampleEnv 1 bytes request tx ∧ IsAccepted sampleEnv 1 bytes' request' tx' ∧
      request.isOlaRawTx = true ∧ request'.isOlaRawTx = true ∧
      request.intoSignedBytes = request'.intoSignedBytes ∧
      request.getSignature = request'.getSignature ∧ ¬SameExecution tx tx' := by
  have hfits : FitsMemory (((sampleRequestTo .zero).getSignedBytes sampleEnv sampleSignature 1).getD
      []) := by
    unfold FitsMemory
    decide +kernel
  have hfits' : FitsMemory (((sampleRequestTo oneAddress).getSignedBytes sampleEnv
      sampleSignature 1).getD []) := by
    unfold FitsMemory
    decide +kernel
  obtain ⟨tx, haccepted, hto⟩ := isAccepted_sampleRequestTo .zero sampleSignature rfl hfits
  obtain ⟨tx', haccepted', hto'⟩ := isAccepted_sampleRequestTo oneAddress sampleSignature rfl hfits'
  refine ⟨_, _, _, _, tx, tx', haccepted, haccepted', rfl, rfl, rfl, rfl, ?_⟩
  rintro ⟨-, -, -, hsame, -⟩
  rw [hto, hto'] at hsame
  exact absurd hsame (by decide)

end TransactionRequest

end OlaOs
