import OlaOs.Lib.Bytes
import OlaOs.Sequencer.BatchExecutor

/-! The revert data of a call (`vm/src/errors/vm_revert_reason.rs`). -/
namespace OlaOs

/-- The character that stands for bytes that are no UTF-8. -/
def replacementCharacter : Char := Char.ofNat 0xFFFD

/-- After the first byte of a longer character: the bounds of the second one, and the number of
bytes after it. -/
def utf8Continuation (b : UInt8) : Option (UInt8 × UInt8 × ℕ) :=
  if 0xC2 ≤ b ∧ b ≤ 0xDF then some (0x80, 0xBF, 0)
  else if b = 0xE0 then some (0xA0, 0xBF, 1)
  else if b = 0xED then some (0x80, 0x9F, 1)
  else if 0xE1 ≤ b ∧ b ≤ 0xEF then some (0x80, 0xBF, 1)
  else if b = 0xF0 then some (0x90, 0xBF, 2)
  else if 0xF1 ≤ b ∧ b ≤ 0xF3 then some (0x80, 0xBF, 2)
  else if b = 0xF4 then some (0x80, 0x8F, 2)
  else none

/-- The first character of a byte string and its length; as much of an incomplete character as could
begin one counts as one replacement character. -/
def utf8Char (b : UInt8) (bytes : List UInt8) : Char × ℕ :=
  if b < 0x80 then (Char.ofNat b.toNat, 1)
  else
    match utf8Continuation b, bytes with
    | some (low, high, more), second :: bytes =>
      if low ≤ second ∧ second ≤ high then
        let rest := (bytes.take more).takeWhile fun c => 0x80 ≤ c ∧ c ≤ 0xBF
        if rest.length = more then
          (Char.ofNat ((second :: rest).foldl (fun n c => n * 64 + c.toNat % 64)
            (b.toNat % 2 ^ (5 - more))), 2 + more)
        else (replacementCharacter, 2 + rest.length)
      else (replacementCharacter, 1)
    | _, _ => (replacementCharacter, 1)

/-- At most `n` characters of a byte string. -/
def utf8Chars : ℕ → List UInt8 → List Char
  | 0, _ | _, [] => []
  | n + 1, b :: bytes =>
    let (c, length) := utf8Char b bytes
    c :: utf8Chars n ((b :: bytes).drop length)

/-- `String::from_utf8_lossy` -/
def fromUtf8Lossy (bytes : List UInt8) : String := String.ofList (utf8Chars bytes.length bytes)

/-- Two characters, the first two bytes of a third one, and a fourth. -/
example : utf8Chars 6 [0x68, 0xC3, 0xA9, 0xE2, 0x82, 0x41] =
    ['h', Char.ofNat 0xE9, replacementCharacter, 'A'] := by
  decide +kernel

inductive VmRevertReasonParsingError where
  | incorrectDataOffset (data : List UInt8)
  | inputIsTooShort (data : List UInt8)
  | incorrectStringLength (data : List UInt8)

/-- The panics of the parser. Without overflow checks the sum wraps to at most 31, and then the
slice from 32 on fails. -/
inductive RevertPanic where
  | asUsize
  | addOverflow
  deriving DecidableEq

namespace VmRevertReason

def generalErrorSelector : List UInt8 := [0x08, 0xc3, 0x79, 0xa0]

/-- `U256::as_usize` -/
def asUsize (n : ℕ) : Except RevertPanic ℕ := if n < 2 ^ 64 then .ok n else .error .asUsize

def addUsize (m n : ℕ) : Except RevertPanic ℕ :=
  if m + n < 2 ^ 64 then .ok (m + n) else .error .addOverflow

def parseGeneralError (originalBytes : List UInt8) :
    Except RevertPanic (Except VmRevertReasonParsingError VmRevertReason) := do
  let bytes := originalBytes.drop 4
  if bytes.length < 32 then .ok (.error (.inputIsTooShort bytes))
  else
    let dataOffset ← asUsize (Bytes.ofBE (bytes.take 32))
    if dataOffset > bytes.length ∨ dataOffset < 32 then .ok (.error (.incorrectDataOffset bytes))
    else
      let data := bytes.drop dataOffset
      if data.length < 32 then .ok (.error (.inputIsTooShort bytes))
      else
        let stringLength ← asUsize (Bytes.ofBE (data.take 32))
        let stop ← addUsize stringLength 32
        if stop > data.length then .ok (.error (.incorrectStringLength bytes))
        else
          let rawData := (data.take stop).drop 32
          .ok (.ok (.general (fromUtf8Lossy rawData) originalBytes))

/-- `VmRevertReason::try_from` -/
def tryFrom (bytes : List UInt8) :
    Except RevertPanic (Except VmRevertReasonParsingError VmRevertReason) :=
  if bytes.length < 4 then
    if bytes.isEmpty then .ok (.ok (.unknown [] bytes))
    else .ok (.error (.incorrectStringLength bytes))
  else
    let functionSelector := bytes.take 4
    if functionSelector = generalErrorSelector then parseGeneralError bytes
    else .ok (.ok (.unknown functionSelector bytes))

/-- The selector of `Error(string)`, an offset word, and at that offset a length word with the bytes
`string` after it. -/
def IsErrorString (bytes string : List UInt8) : Prop :=
  ∃ payload lengthWord rest, bytes = generalErrorSelector ++ payload ∧ 32 ≤ payload.length ∧
    32 ≤ Bytes.ofBE (payload.take 32) ∧ Bytes.ofBE (payload.take 32) ≤ payload.length ∧
    payload.drop (Bytes.ofBE (payload.take 32)) = lengthWord ++ (string ++ rest) ∧
    lengthWord.length = 32 ∧ Bytes.ofBE lengthWord = string.length

/-- No data, or another selector. -/
def IsUnknown (bytes : List UInt8) : Prop :=
  bytes = [] ∨ 4 ≤ bytes.length ∧ bytes.take 4 ≠ generalErrorSelector

/-- What the parser should return. -/
structure Parses (bytes : List UInt8)
    (outcome : Except RevertPanic (Except VmRevertReasonParsingError VmRevertReason)) : Prop where
  returns : ∃ result, outcome = .ok result
  general : ∀ msg data, outcome = .ok (.ok (.general msg data)) ↔
    data = bytes ∧ ∃ string, IsErrorString bytes string ∧ msg = fromUtf8Lossy string
  unknown : ∀ functionSelector data, outcome = .ok (.ok (.unknown functionSelector data)) ↔
    IsUnknown bytes ∧ functionSelector = bytes.take 4 ∧ data = bytes
  error : (∃ e, outcome = .ok (.error e)) ↔
    ¬ IsUnknown bytes ∧ ¬ ∃ string, IsErrorString bytes string

/-- The words that the parser reads are below `2 ^ 64`, and the length word by 32. -/
def WordsFit (bytes : List UInt8) : Prop :=
  ∀ payload, bytes = generalErrorSelector ++ payload → 32 ≤ payload.length →
    Bytes.ofBE (payload.take 32) < 2 ^ 64 ∧
    (32 ≤ Bytes.ofBE (payload.take 32) → Bytes.ofBE (payload.take 32) ≤ payload.length →
      32 ≤ (payload.drop (Bytes.ofBE (payload.take 32))).length →
      Bytes.ofBE ((payload.drop (Bytes.ofBE (payload.take 32))).take 32) + 32 < 2 ^ 64)

variable {payload string : List UInt8}

/-- The string in terms of the words before it. -/
theorem isErrorString_iff : IsErrorString (generalErrorSelector ++ payload) string ↔
    32 ≤ payload.length ∧ 32 ≤ Bytes.ofBE (payload.take 32) ∧
      Bytes.ofBE (payload.take 32) ≤ payload.length ∧
      Bytes.ofBE ((payload.drop (Bytes.ofBE (payload.take 32))).take 32) + 32 ≤
        (payload.drop (Bytes.ofBE (payload.take 32))).length ∧
      string = ((payload.drop (Bytes.ofBE (payload.take 32))).drop 32).take
        (Bytes.ofBE ((payload.drop (Bytes.ofBE (payload.take 32))).take 32)) := by
  constructor
  · rintro ⟨payload', lengthWord, rest, heq, hwords, hlow, hhigh, htail, hword, hlength⟩
    obtain rfl := List.append_cancel_left heq
    have htake : (lengthWord ++ (string ++ rest)).take 32 = lengthWord := by
      rw [← hword, List.take_left]
    refine ⟨hwords, hlow, hhigh, ?_, ?_⟩
    · rw [htail, htake, hlength, List.length_append, List.length_append]
      omega
    · rw [htail, htake, hlength, ← hword, List.drop_left, List.take_left]
  · rintro ⟨hwords, hlow, hhigh, hfits, rfl⟩
    generalize htail : payload.drop (Bytes.ofBE (payload.take 32)) = tail at hfits ⊢
    refine ⟨payload, tail.take 32, (tail.drop 32).drop (Bytes.ofBE (tail.take 32)), rfl, hwords,
      hlow, hhigh, ?_, ?_, ?_⟩
    · rw [htail, List.take_append_drop, List.take_append_drop]
    · rw [List.length_take]
      omega
    · rw [List.length_take, List.length_drop]
      omega

/-- The three ways in which the parser ends. -/
theorem parseGeneralError_cases (payload : List UInt8) :
    (¬ WordsFit (generalErrorSelector ++ payload) ∧
      ∃ panic, parseGeneralError (generalErrorSelector ++ payload) = .error panic) ∨
    (WordsFit (generalErrorSelector ++ payload) ∧
      (¬ ∃ string, IsErrorString (generalErrorSelector ++ payload) string) ∧
      ∃ e, parseGeneralError (generalErrorSelector ++ payload) = .ok (.error e)) ∨
    (WordsFit (generalErrorSelector ++ payload) ∧
      ∃ string, IsErrorString (generalErrorSelector ++ payload) string ∧
        parseGeneralError (generalErrorSelector ++ payload) =
          .ok (.ok (.general (fromUtf8Lossy string) (generalErrorSelector ++ payload)))) := by
  have hfit : WordsFit (generalErrorSelector ++ payload) ↔ (32 ≤ payload.length →
      Bytes.ofBE (payload.take 32) < 2 ^ 64 ∧
      (32 ≤ Bytes.ofBE (payload.take 32) → Bytes.ofBE (payload.take 32) ≤ payload.length →
        32 ≤ (payload.drop (Bytes.ofBE (payload.take 32))).length →
        Bytes.ofBE ((payload.drop (Bytes.ofBE (payload.take 32))).take 32) + 32 < 2 ^ 64)) := by
    constructor
    · exact fun h => h payload rfl
    · intro h payload' heq
      obtain rfl := List.append_cancel_left heq
      exact h
  rw [hfit]
  simp only [isErrorString_iff]
  have hdrop : (generalErrorSelector ++ payload).drop 4 = payload := rfl
  unfold parseGeneralError
  simp only [hdrop]
  generalize generalErrorSelector ++ payload = bytes
  generalize Bytes.ofBE (payload.take 32) = dataOffset
  generalize hdata : payload.drop dataOffset = data
  generalize hword : Bytes.ofBE (data.take 32) = stringLength
  by_cases hshort : payload.length < 32
  · rw [if_pos hshort]
    exact .inr (.inl ⟨fun hwords => absurd hwords (by omega), by rintro ⟨_, hwords, -⟩; omega, _,
      rfl⟩)
  rw [if_neg hshort]
  unfold asUsize
  by_cases hoffset : dataOffset < 2 ^ 64
  swap
  · rw [if_neg hoffset]
    exact .inl ⟨fun h => hoffset (h (by omega)).1, _, rfl⟩
  rw [if_pos hoffset]
  dsimp only [bind, Except.bind]
  simp only [hdata, hword]
  by_cases hrange : dataOffset > payload.length ∨ dataOffset < 32
  · rw [if_pos hrange]
    refine .inr (.inl ⟨fun _ => ⟨hoffset, fun hlow hhigh => ?_⟩, ?_, _, rfl⟩)
    · omega
    · rintro ⟨_, -, hlow, hhigh, -⟩
      omega
  rw [if_neg hrange]
  by_cases hdataShort : data.length < 32
  · rw [if_pos hdataShort]
    refine .inr (.inl ⟨fun _ => ⟨hoffset, fun _ _ hlong => ?_⟩, ?_, _, rfl⟩)
    · omega
    · rintro ⟨_, -, -, -, hfits, -⟩
      omega
  rw [if_neg hdataShort]
  by_cases hlength : stringLength < 2 ^ 64
  swap
  · rw [if_neg hlength]
    refine .inl ⟨fun h => ?_, _, rfl⟩
    have hsum := (h (by omega)).2 (by omega) (by omega) (by omega)
    omega
  rw [if_pos hlength]
  dsimp only
  unfold addUsize
  by_cases hsum : stringLength + 32 < 2 ^ 64
  swap
  · rw [if_neg hsum]
    refine .inl ⟨fun h => hsum ?_, _, rfl⟩
    exact (h (by omega)).2 (by omega) (by omega) (by omega)
  rw [if_pos hsum]
  dsimp only
  have hfit : 32 ≤ payload.length → dataOffset < 2 ^ 64 ∧ (32 ≤ dataOffset →
      dataOffset ≤ payload.length → 32 ≤ data.length → stringLength + 32 < 2 ^ 64) :=
    fun _ => ⟨hoffset, fun _ _ _ => hsum⟩
  by_cases hlong : stringLength + 32 > data.length
  · rw [if_pos hlong]
    refine .inr (.inl ⟨hfit, ?_, _, rfl⟩)
    rintro ⟨_, -, -, -, hfits, -⟩
    omega
  · rw [if_neg hlong]
    refine .inr (.inr ⟨hfit, _, ⟨by omega, by omega, by omega, by omega, rfl⟩, ?_⟩)
    rw [List.drop_take, Nat.add_sub_cancel]

/-- A short input, another selector, or the selector of `Error(string)`. -/
theorem tryFrom_cases (bytes : List UInt8) :
    (IsUnknown bytes ∧ tryFrom bytes = .ok (.ok (.unknown (bytes.take 4) bytes))) ∨
    (¬ IsUnknown bytes ∧ bytes.length < 4 ∧
      tryFrom bytes = .ok (.error (.incorrectStringLength bytes))) ∨
    (¬ IsUnknown bytes ∧ ∃ payload, bytes = generalErrorSelector ++ payload ∧
      tryFrom bytes = parseGeneralError bytes) := by
  unfold tryFrom IsUnknown
  by_cases hshort : bytes.length < 4
  · rw [if_pos hshort]
    cases bytes with
    | nil => exact .inl ⟨.inl rfl, rfl⟩
    | cons b bytes =>
      refine .inr (.inl ⟨?_, hshort, rfl⟩)
      rintro (hnil | ⟨hlong, -⟩)
      · cases hnil
      · omega
  · rw [if_neg hshort]
    dsimp only
    by_cases hselector : bytes.take 4 = generalErrorSelector
    · rw [if_pos hselector]
      refine .inr (.inr ⟨?_, bytes.drop 4, ?_, rfl⟩)
      · rintro (rfl | ⟨-, hne⟩)
        · exact hshort (by decide)
        · exact hne hselector
      · rw [← hselector, List.take_append_drop]
    · rw [if_neg hselector]
      exact .inl ⟨.inr ⟨by omega, hselector⟩, rfl⟩

theorem IsErrorString.not_isUnknown {bytes : List UInt8} (h : IsErrorString bytes string) :
    ¬ IsUnknown bytes := by
  obtain ⟨payload, -, -, rfl, -⟩ := h
  rintro (hnil | ⟨-, hne⟩)
  · cases hnil
  · exact hne rfl

theorem length_selector_append (payload : List UInt8) :
    4 ≤ (generalErrorSelector ++ payload).length := by
  rw [List.length_append]
  exact Nat.le_add_right 4 payload.length

theorem IsErrorString.length_le {bytes : List UInt8} (h : IsErrorString bytes string) :
    4 ≤ bytes.length := by
  obtain ⟨payload, -, -, rfl, -⟩ := h
  exact length_selector_append payload

/-- The string of the data is determined. -/
theorem IsErrorString.unique {bytes string' : List UInt8} (h : IsErrorString bytes string)
    (h' : IsErrorString bytes string') : string' = string := by
  obtain ⟨payload, -, -, rfl, -⟩ := id h
  rw [isErrorString_iff] at h h'
  rw [h.2.2.2.2, h'.2.2.2.2]

/-- Data without the selector of `Error(string)`. -/
theorem wordsFit_of_ne {bytes : List UInt8}
    (h : ∀ payload, bytes ≠ generalErrorSelector ++ payload) : WordsFit bytes :=
  fun payload heq => absurd heq (h payload)

/-- The parser returns what it should exactly on the inputs whose words fit. -/
theorem tryFrom_parses_iff (bytes : List UInt8) :
    Parses bytes (tryFrom bytes) ↔ WordsFit bytes := by
  rcases tryFrom_cases bytes with ⟨hunknown, heq⟩ | ⟨hunknown, hshort, heq⟩ |
    ⟨hunknown, payload, rfl, heq⟩
  · have hno : ¬ ∃ string, IsErrorString bytes string := fun ⟨_, h⟩ => h.not_isUnknown hunknown
    refine iff_of_true ⟨⟨_, heq⟩, fun msg data => ?_, fun functionSelector data => ?_, ?_⟩
      (wordsFit_of_ne fun payload hpayload => ?_)
    · rw [heq]
      exact iff_of_false nofun fun ⟨_, string, h, _⟩ => hno ⟨string, h⟩
    · rw [heq]
      constructor
      · intro h
        cases h
        exact ⟨hunknown, rfl, rfl⟩
      · rintro ⟨-, rfl, rfl⟩
        rfl
    · rw [heq]
      exact iff_of_false nofun fun h => h.1 hunknown
    · subst hpayload
      rcases hunknown with hnil | ⟨-, hne⟩
      · cases hnil
      · exact hne rfl
  · have hno : ¬ ∃ string, IsErrorString bytes string := fun ⟨_, h⟩ => by
      have := h.length_le
      omega
    refine iff_of_true ⟨⟨_, heq⟩, fun msg data => ?_, fun functionSelector data => ?_, ?_⟩
      (wordsFit_of_ne fun payload hpayload => ?_)
    · rw [heq]
      exact iff_of_false nofun fun ⟨_, string, h, _⟩ => hno ⟨string, h⟩
    · rw [heq]
      exact iff_of_false nofun fun h => hunknown h.1
    · rw [heq]
      exact iff_of_true ⟨_, rfl⟩ ⟨hunknown, hno⟩
    · subst hpayload
      have hle := length_selector_append payload
      omega
  · rw [heq]
    rcases parseGeneralError_cases payload with ⟨hfit, panic, hpanic⟩ | ⟨hfit, hno, e, herror⟩ |
      ⟨hfit, string, hstring, hgeneral⟩
    · refine iff_of_false (fun h => ?_) hfit
      obtain ⟨result, hresult⟩ := h.returns
      rw [hpanic] at hresult
      cases hresult
    · rw [herror]
      refine iff_of_true ⟨⟨_, rfl⟩, fun msg data => ?_, fun functionSelector data => ?_, ?_⟩ hfit
      · exact iff_of_false nofun fun ⟨_, string, h, _⟩ => hno ⟨string, h⟩
      · exact iff_of_false nofun fun h => hunknown h.1
      · exact iff_of_true ⟨_, rfl⟩ ⟨hunknown, hno⟩
    · rw [hgeneral]
      refine iff_of_true ⟨⟨_, rfl⟩, fun msg data => ?_, fun functionSelector data => ?_, ?_⟩ hfit
      · constructor
        · intro h
          cases h
          exact ⟨rfl, string, hstring, rfl⟩
        · rintro ⟨rfl, string', hstring', rfl⟩
          rw [hstring.unique hstring']
      · exact iff_of_false nofun fun h => hunknown h.1
      · exact iff_of_false nofun fun h => h.2 ⟨string, hstring⟩

/-- The selector of `Error(string)` and an offset word of `2 ^ 64`: the conversion panics. -/
theorem tryFrom_counterexample :
    tryFrom (generalErrorSelector ++ Bytes.toBE 32 (2 ^ 64)) = .error .asUsize ∧
      ¬ Parses (generalErrorSelector ++ Bytes.toBE 32 (2 ^ 64))
        (tryFrom (generalErrorSelector ++ Bytes.toBE 32 (2 ^ 64))) := by
  have hrun : (match tryFrom (generalErrorSelector ++ Bytes.toBE 32 (2 ^ 64)) with
      | .error panic => decide (panic = .asUsize)
      | .ok _ => false) = true := by
    decide +kernel
  have hpanic : tryFrom (generalErrorSelector ++ Bytes.toBE 32 (2 ^ 64)) = .error .asUsize := by
    split at hrun
    · rename_i panic heq
      rw [heq, of_decide_eq_true hrun]
    · cases hrun
  refine ⟨hpanic, fun h => ?_⟩
  obtain ⟨result, hresult⟩ := h.returns
  rw [hpanic] at hresult
  cases hresult

end VmRevertReason

end OlaOs
