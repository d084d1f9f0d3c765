import OlaOs.Request.Binding

/-! What a signed message determines of the request it was made from. -/
namespace OlaOs

/-- `u64::MAX` -/
def maxWord : U64 := Fin.last _

namespace TransactionRequest

/-- `biz_input`, the words of the input that are signed as business calldata. -/
def bizInput (input : List U64) : List U64 := (input.take (posBizCalldataEnd input)).drop 8

/-- The business calldata with its length word in front: as many words as it says, as far as there
are any. -/
def bizCalldata (input : List U64) : List U64 :=
  (input.drop 8).take (1 + (input[8]?.getD 0).val)

/-- The length word of the business calldata is `u64::MAX`: the sum that gives its end wraps around
to its start. -/
def LengthWraps (request : TransactionRequest) : Prop :=
  (words request.input)[8]? = some maxWord

instance (request : TransactionRequest) : Decidable request.LengthWraps :=
  inferInstanceAs (Decidable ((words request.input)[8]? = some maxWord))

/-- Two requests agree on everything that is put into the signed message. -/
structure SameSigned (request request' : TransactionRequest) : Prop where
  chainId : request.chainId = request'.chainId
  transactionType : request.transactionType.getD (txType olaRawTxType) =
    request'.transactionType.getD (txType olaRawTxType)
  nonce : request.nonce = request'.nonce
  fromAddress : request.fromAddress = request'.fromAddress
  bizAddr : ((words request.input).take 8).drop 4 = ((words request'.input).take 8).drop 4
  bizCalldata : bizCalldata (words request.input) = bizCalldata (words request'.input)
  paymasterParams : request.eip712Meta.bind Eip712Meta.paymasterParams =
    request'.eip712Meta.bind Eip712Meta.paymasterParams

section Calldata

variable {input input' : List U64}

theorem length_bizInput (hstop : posBizCalldataEnd input ≤ input.length) :
    (bizInput input).length = posBizCalldataEnd input - 8 := by
  rw [bizInput, List.length_drop, List.length_take, min_eq_left hstop]

/-- The end is behind the start, unless the length word wraps it around. -/
theorem posBizCalldataEnd_cases (hstart : 8 ≤ posBizCalldataEnd input)
    (hstop : posBizCalldataEnd input ≤ input.length) :
    ∃ n, input[8]? = some n ∧
      (n = maxWord ∧ posBizCalldataEnd input = 8 ∨
        n ≠ maxWord ∧ posBizCalldataEnd input = 9 + n.val) := by
  unfold posBizCalldataEnd at *
  cases hn : input[8]? with
  | none =>
    -- without a length word the end is behind the input
    have hshort := List.getElem?_eq_none_iff.mp hn
    rw [hn] at hstop
    simp at hstop
    omega
  | some n =>
    rw [hn, Option.getD_some] at hstart
    refine ⟨n, rfl, ?_⟩
    rw [Option.getD_some]
    have hlt := n.isLt
    by_cases hlast : n = maxWord
    · left
      refine ⟨hlast, ?_⟩
      rw [hlast]
      rfl
    · right
      have hval : n.val ≠ 2 ^ 64 - 1 := fun hval => hlast (Fin.ext hval)
      refine ⟨hlast, ?_⟩
      omega

/-- Counted calldata is signed as it is. -/
theorem bizInput_eq {n : U64} (hn : input[8]? = some n)
    (hend : posBizCalldataEnd input = 9 + n.val) : bizInput input = bizCalldata input := by
  rw [bizInput, bizCalldata, hend, hn, Option.getD_some, List.drop_take]
  congr 1
  omega

/-- Counted calldata is delimited by its length word. -/
theorem bizInput_append_inj {n n' : U64} {rest rest' : List U64}
    (hn : input[8]? = some n) (hn' : input'[8]? = some n')
    (hend : posBizCalldataEnd input = 9 + n.val) (hend' : posBizCalldataEnd input' = 9 + n'.val)
    (hstop : posBizCalldataEnd input ≤ input.length)
    (hstop' : posBizCalldataEnd input' ≤ input'.length)
    (h : bizInput input ++ rest = bizInput input' ++ rest') :
    bizInput input = bizInput input' ∧ rest = rest' := by
  have hhead {input : List U64} {n : U64} (rest : List U64) (hn : input[8]? = some n)
      (hend : posBizCalldataEnd input = 9 + n.val)
      (hstop : posBizCalldataEnd input ≤ input.length) :
      (bizInput input ++ rest)[0]? = some n := by
    rw [List.getElem?_append_left (by rw [length_bizInput hstop]; omega), bizInput,
      List.getElem?_drop, List.getElem?_take_of_lt (by omega)]
    exact hn
  have hcount : n = n' := by
    have hfirst := hhead rest hn hend hstop
    rw [h, hhead rest' hn' hend' hstop'] at hfirst
    exact (Option.some.inj hfirst).symm
  refine List.append_inj h ?_
  rw [length_bizInput hstop, length_bizInput hstop', hend, hend', hcount]

end Calldata

/-- The words of a paymaster are empty or begin with its address, so they tell it. -/
theorem paymasterPart_inj {eip712Meta eip712Meta' : Eip712Meta} (h : PaymasterAligned eip712Meta)
    (h' : PaymasterAligned eip712Meta')
    (heq : paymasterPart eip712Meta.paymasterParams = paymasterPart eip712Meta'.paymasterParams) :
    eip712Meta.paymasterParams = eip712Meta'.paymasterParams := by
  unfold PaymasterAligned at h h'
  cases hparams : eip712Meta.paymasterParams with
  | none =>
    cases hparams' : eip712Meta'.paymasterParams with
    | none => rfl
    | some params' =>
      rw [hparams, hparams'] at heq
      simp [paymasterPart] at heq
  | some params =>
    cases hparams' : eip712Meta'.paymasterParams with
    | none =>
      rw [hparams, hparams'] at heq
      simp [paymasterPart] at heq
    | some params' =>
      rw [hparams, hparams'] at heq
      unfold paymasterPart at heq
      simp only [List.append_assoc] at heq
      obtain ⟨haddress, hrest⟩ := List.append_inj heq (by simp)
      obtain ⟨-, hinput⟩ := List.append_inj hrest rfl
      obtain ⟨paymaster, paymasterInput⟩ := params
      obtain ⟨paymaster', paymasterInput'⟩ := params'
      obtain rfl := ofFn_h256ToU64Array_injective haddress
      obtain rfl := words_injective (h _ hparams) (h' _ hparams') hinput
      rfl

/-- The parts of two signed messages up to the business calldata. -/
theorem signedWords_inj {request request' : TransactionRequest}
    {eip712Meta eip712Meta' : Eip712Meta}
    {chainId chainId' : U16} {fromAddress fromAddress' : Address}
    (h : IsSignable request eip712Meta chainId fromAddress)
    (h' : IsSignable request' eip712Meta' chainId' fromAddress')
    (heq : signedWords request eip712Meta chainId fromAddress =
      signedWords request' eip712Meta' chainId' fromAddress') :
    chainId = chainId' ∧ request.transactionType.getD (txType olaRawTxType) =
      request'.transactionType.getD (txType olaRawTxType) ∧ request.nonce = request'.nonce ∧
      fromAddress = fromAddress' ∧
      ((words request.input).take 8).drop 4 = ((words request'.input).take 8).drop 4 ∧
      bizInput (words request.input) ++ paymasterPart eip712Meta.paymasterParams =
        bizInput (words request'.input) ++ paymasterPart eip712Meta'.paymasterParams := by
  unfold signedWords bizPart at heq
  simp only [List.append_assoc] at heq
  obtain ⟨hhead, htail⟩ := List.append_inj heq rfl
  obtain ⟨hfrom, htail⟩ := List.append_inj htail (by simp)
  have hlong := h.start_le.trans h.le_length
  have hlong' := h'.start_le.trans h'.le_length
  obtain ⟨htarget, hrest⟩ := List.append_inj htail (by
    rw [List.length_drop, List.length_drop, List.length_take, List.length_take, min_eq_left hlong,
      min_eq_left hlong'])
  injection hhead with hchain hhead
  injection hhead with htype hhead
  injection hhead with hnonce hhead
  have hchainVal := congrArg Fin.val hchain
  have hnonceVal := congrArg Fin.val hnonce
  rw [Fin.val_ofNat, Fin.val_ofNat, Nat.mod_eq_of_lt (by omega), Nat.mod_eq_of_lt (by omega)]
    at hchainVal
  rw [Fin.val_ofNat, Fin.val_ofNat, Nat.mod_eq_of_lt h.nonce, Nat.mod_eq_of_lt h'.nonce]
    at hnonceVal
  exact ⟨Fin.ext hchainVal, htype, Fin.ext hnonceVal, ofFn_h256ToU64Array_injective hfrom, htarget,
    hrest⟩

/-- Two requests with the same signed message agree on everything that is put into it exactly when
the length word of neither wraps, or when those of both do and what such a length covers is the
same. -/
theorem sameSigned_iff (request request' : TransactionRequest) (message : List UInt8)
    (h : request.intoSignedBytes = .ok message) (h' : request'.intoSignedBytes = .ok message) :
    SameSigned request request' ↔
      ¬request.LengthWraps ∧ ¬request'.LengthWraps ∨
        (request.LengthWraps ∧ request'.LengthWraps ∧
          ((words request.input).drop 8).take (2 ^ 64) =
            ((words request'.input).drop 8).take (2 ^ 64)) := by
  obtain ⟨eip712Meta, chainId, fromAddress, hsignable, hbytes⟩ := intoSignedBytes_eq_ok.mp h
  obtain ⟨eip712Meta', chainId', fromAddress', hsignable', hbytes'⟩ := intoSignedBytes_eq_ok.mp h'
  have hwords := u64sToBytes_injective (hbytes.symm.trans hbytes')
  obtain ⟨rfl, htype, hnonce, rfl, htarget, hrest⟩ := signedWords_inj hsignable hsignable' hwords
  have hstop := hsignable.le_length
  have hstop' := hsignable'.le_length
  obtain ⟨n, hn, hcases⟩ := posBizCalldataEnd_cases hsignable.start_le hstop
  obtain ⟨n', hn', hcases'⟩ := posBizCalldataEnd_cases hsignable'.start_le hstop'
  have hsame (hbiz : bizCalldata (words request.input) = bizCalldata (words request'.input))
      (hpaymaster : paymasterPart eip712Meta.paymasterParams =
        paymasterPart eip712Meta'.paymasterParams) : SameSigned request request' := by
    refine ⟨?_, htype, hnonce, ?_, htarget, hbiz, ?_⟩
    · rw [hsignable.chainId_eq, hsignable'.chainId_eq]
    · rw [hsignable.fromAddress_eq, hsignable'.fromAddress_eq]
    · rw [hsignable.eip712Meta_eq, hsignable'.eip712Meta_eq]
      exact paymasterPart_inj hsignable.paymaster hsignable'.paymaster hpaymaster
  have hlength := length_bizInput hstop
  have hlength' := length_bizInput hstop'
  -- the length words are part of the calldata
  have hword (hsame : SameSigned request request') : n = n' := by
    have hfirst := congrArg (fun biz => biz[0]?) hsame.bizCalldata
    simp only [bizCalldata, List.getElem?_take_of_lt (Nat.lt_add_right _ Nat.one_pos),
      List.getElem?_drop, Nat.add_zero, hn, hn', Option.some.injEq] at hfirst
    exact hfirst
  unfold LengthWraps
  rw [hn, hn', Option.some.injEq, Option.some.injEq]
  obtain ⟨hwraps, hend⟩ | ⟨hcounts, hend⟩ := hcases <;>
    obtain ⟨hwraps', hend'⟩ | ⟨hcounts', hend'⟩ := hcases'
  · -- nothing is signed of both
    have hnil := List.length_eq_zero_iff.mp (hlength.trans (by omega))
    have hnil' := List.length_eq_zero_iff.mp (hlength'.trans (by omega))
    rw [hnil, hnil'] at hrest
    have hall {input : List U64} {k : U64} (hk : input[8]? = some k) (hmax : k = maxWord) :
        bizCalldata input = (input.drop 8).take (2 ^ 64) := by
      rw [bizCalldata, hk, hmax]
      rfl
    rw [← hall hn hwraps, ← hall hn' hwraps']
    exact ⟨fun hsame => .inr ⟨hwraps, hwraps', hsame.bizCalldata⟩, fun hcond =>
      hcond.elim (fun hno => absurd hwraps hno.1) fun hcond => hsame hcond.2.2 hrest⟩
  · refine iff_of_false (fun hsame => hcounts' ((hword hsame).symm.trans hwraps)) ?_
    rintro (⟨hno, -⟩ | ⟨-, hmax, -⟩)
    · exact hno hwraps
    · exact hcounts' hmax
  · refine iff_of_false (fun hsame => hcounts ((hword hsame).trans hwraps')) ?_
    rintro (⟨-, hno⟩ | ⟨hmax, -⟩)
    · exact hno hwraps'
    · exact hcounts hmax
  · obtain ⟨hbiz, hpaymaster⟩ := bizInput_append_inj hn hn' hend hend' hstop hstop' hrest
    rw [bizInput_eq hn hend, bizInput_eq hn' hend'] at hbiz
    exact iff_of_true (hsame hbiz hpaymaster) (.inl ⟨hcounts, hcounts'⟩)

/-- A request of the zero address with an input of words and with a paymaster, if there is one. -/
def sampleMessage (input : List U64) (paymasterParams : Option PaymasterParams) :
    TransactionRequest where
  fromAddress := some .zero
  input := u64sToBytes input
  eip712Meta := some ⟨none, none, paymasterParams⟩
  chainId := some 1

/-- The paymaster with the address `0x4` in its first word and no input. -/
def samplePaymaster : PaymasterParams :=
  ⟨⟨List.replicate 7 0 ++ [4] ++ List.replicate 24 0, rfl⟩, []⟩

/-- Two requests that differ behind the business calldata. -/
theorem sameSigned_iff_sample : ∃ request request' message, request ≠ request' ∧
    request.intoSignedBytes = .ok message ∧ request'.intoSignedBytes = .ok message ∧
      SameSigned request request' := by
  have h : (sampleMessage (List.replicate 8 0 ++ [1, 7]) none).intoSignedBytes =
      .ok (u64sToBytes ([1, 16, 0] ++ List.replicate 8 0 ++ [1, 7])) := by decide +kernel
  have h' : (sampleMessage (List.replicate 8 0 ++ [1, 7, 9]) none).intoSignedBytes =
      .ok (u64sToBytes ([1, 16, 0] ++ List.replicate 8 0 ++ [1, 7])) := by decide +kernel
  exact ⟨_, _, _, by decide +kernel, h, h', (sameSigned_iff _ _ _ h h').mpr (by decide +kernel)⟩

/-- A wrapped length word signs no calldata, and the words of the paymaster are read as calldata. -/
theorem sameSigned_counterexample : ∃ request request' message,
    request.intoSignedBytes = .ok message ∧ request'.intoSignedBytes = .ok message ∧
      ¬SameSigned request request' := by
  refine ⟨sampleMessage (List.replicate 8 0 ++ [maxWord]) (some samplePaymaster),
    sampleMessage (List.replicate 8 0 ++ [4, 0, 0, 0, 0]) none,
    u64sToBytes ([1, 16, 0] ++ List.replicate 8 0 ++ [4, 0, 0, 0, 0]), by decide +kernel,
    by decide +kernel, fun hsame => ?_⟩
  exact absurd hsame.paymasterParams (by decide)

end TransactionRequest

end OlaOs
