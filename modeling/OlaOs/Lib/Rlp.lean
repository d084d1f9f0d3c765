import OlaOs.Lib.Bytes

/-! Recursive length prefix encoding: byte strings and lists behind a header with their length. -/
namespace Rlp

inductive Item where
  | data (bytes : List UInt8)
  | list (items : List Item)

/-- The number of bytes of a number without leading zeros. -/
def byteLength (n : ℕ) : ℕ := if n = 0 then 0 else Nat.log2 n / 8 + 1

/-- Big-endian without leading zeros; zero is the empty string. -/
def toMinimalBE (n : ℕ) : List UInt8 := Bytes.toBE (byteLength n) n

/-- Numbers are strings. -/
def uint (n : ℕ) : Item := .data (toMinimalBE n)

/-- The header of a payload: its length up to 55, or the length of its length and the length. -/
def header (offset : ℕ) (length : ℕ) : List UInt8 :=
  if length < 56 then [UInt8.ofNat (offset + length)]
  else UInt8.ofNat (offset + 55 + byteLength length) :: toMinimalBE length

def encodeData (bytes : List UInt8) : List UInt8 :=
  match bytes with
  | [b] => if b < 0x80 then [b] else header 0x80 1 ++ [b]
  | bytes => header 0x80 bytes.length ++ bytes

mutual

def encode : Item → List UInt8
  | .data bytes => encodeData bytes
  | .list items => header 0xc0 (encodeAll items).length ++ encodeAll items

def encodeAll : List Item → List UInt8
  | [] => []
  | item :: items => encode item ++ encodeAll items

end

/-- The payload of the first item of a byte string. -/
inductive Payload where
  | data (bytes : List UInt8)
  | list (bytes : List UInt8)
  deriving DecidableEq

/-- The payload of an item. -/
def payload : Item → Payload
  | .data bytes => .data bytes
  | .list items => .list (encodeAll items)

/-- Cut a string after a number of bytes, if it is that long. -/
def cut (length : ℕ) (bytes : List UInt8) : Option (List UInt8 × List UInt8) :=
  if length ≤ bytes.length then some (bytes.take length, bytes.drop length) else none

/-- Cut behind a length that is itself written in `width` bytes. -/
def cutLong (width : ℕ) (bytes : List UInt8) : Option (List UInt8 × List UInt8) :=
  (cut width bytes).bind fun parts => cut (Bytes.ofBE parts.1) parts.2

/-- The first item of a byte string, and what follows it. -/
def split : List UInt8 → Option (Payload × List UInt8)
  | [] => none
  | b :: rest =>
    if b.toNat < 0x80 then some (.data [b], rest)
    else if b.toNat < 0xb8 then (cut (b.toNat - 0x80) rest).map fun parts =>
      (.data parts.1, parts.2)
    else if b.toNat < 0xc0 then
      (cutLong (b.toNat - 0xb7) rest).map fun parts => (.data parts.1, parts.2)
    else if b.toNat < 0xf8 then (cut (b.toNat - 0xc0) rest).map fun parts =>
      (.list parts.1, parts.2)
    else (cutLong (b.toNat - 0xf7) rest).map fun parts => (.list parts.1, parts.2)

/-- The items of a payload up to the first that does not parse; every item takes a byte, which
bounds their number by `fuel`. -/
def splitAll : ℕ → List UInt8 → List Payload
  | 0, _ => []
  | fuel + 1, bytes =>
    match split bytes with
    | none => []
    | some (payload, rest) => payload :: splitAll fuel rest

/-- The items of the list at the start of a byte string. -/
def items? (bytes : List UInt8) : Option (List Payload) :=
  match split bytes with
  | some (.list bytes, _) => some (splitAll bytes.length bytes)
  | _ => none

theorem byteLength_le {n w : ℕ} (h : n < 256 ^ w) : byteLength n ≤ w := by
  unfold byteLength
  split_ifs with hzero
  · omega
  · have hlog : Nat.log2 n < 8 * w := by
      rw [Nat.log2_lt hzero, Nat.pow_mul]
      exact h
    omega

theorem lt_pow_byteLength (n : ℕ) : n < 256 ^ byteLength n := by
  unfold byteLength
  split_ifs with hzero
  · simp [hzero]
  · have hexp : Nat.log2 n + 1 ≤ 8 * (Nat.log2 n / 8 + 1) := by omega
    calc n < 2 ^ (Nat.log2 n + 1) := Nat.lt_log2_self
      _ ≤ 2 ^ (8 * (Nat.log2 n / 8 + 1)) := Nat.pow_le_pow_right (by decide) hexp
      _ = 256 ^ (Nat.log2 n / 8 + 1) := by rw [Nat.pow_mul]

theorem ofBE_toMinimalBE (n : ℕ) : Bytes.ofBE (toMinimalBE n) = n :=
  Bytes.ofBE_toBE_of_lt (lt_pow_byteLength n)

@[simp] theorem length_toMinimalBE (n : ℕ) : (toMinimalBE n).length = byteLength n :=
  Bytes.length_toBE ..

/-- There is no leading zero. -/
theorem toMinimalBE_ne_zero_cons (n : ℕ) (rest : List UInt8) : toMinimalBE n ≠ 0 :: rest := by
  intro heq
  have hlength : byteLength n = rest.length + 1 := by
    rw [← length_toMinimalBE, heq, List.length_cons]
  have hvalue : n = Bytes.ofBE rest := by
    rw [← ofBE_toMinimalBE n, heq, ← List.singleton_append, Bytes.ofBE_append]
    simp [Bytes.ofBE]
  have hne : n ≠ 0 := by
    rintro rfl
    simp [byteLength] at hlength
  have hlow : 256 ^ rest.length ≤ n := by
    rw [byteLength, if_neg hne] at hlength
    calc 256 ^ rest.length = 2 ^ (8 * rest.length) := by rw [Nat.pow_mul]
      _ ≤ 2 ^ Nat.log2 n := Nat.pow_le_pow_right (by decide) (by omega)
      _ ≤ n := Nat.log2_self_le hne
  exact absurd (Bytes.ofBE_lt rest) (by omega)

theorem cut_append (bytes rest : List UInt8) :
    cut bytes.length (bytes ++ rest) = some (bytes, rest) := by
  simp [cut]

theorem cutLong_append (bytes rest : List UInt8) :
    cutLong (byteLength bytes.length) (toMinimalBE bytes.length ++ (bytes ++ rest)) =
      some (bytes, rest) := by
  unfold cutLong
  rw [← length_toMinimalBE, cut_append, Option.bind_some, ofBE_toMinimalBE, cut_append]

/-- The offsets of the headers of strings and of lists. -/
def IsOffset (offset : ℕ) (kind : List UInt8 → Payload) : Prop :=
  offset = 0x80 ∧ kind = .data ∨ offset = 0xc0 ∧ kind = .list

section Header

variable {offset : ℕ} {kind : List UInt8 → Payload} (hkind : IsOffset offset kind)

include hkind

theorem split_short {length : ℕ} (hshort : length < 56) (rest : List UInt8) :
    split (UInt8.ofNat (offset + length) :: rest) =
      (cut length rest).map fun parts => (kind parts.1, parts.2) := by
  have hb : (UInt8.ofNat (offset + length)).toNat = offset + length := by
    rw [UInt8.toNat_ofNat']
    rcases hkind with ⟨rfl, -⟩ | ⟨rfl, -⟩ <;> omega
  rcases hkind with ⟨rfl, rfl⟩ | ⟨rfl, rfl⟩
  · rw [split, hb, if_neg (by omega), if_pos (by omega), Nat.add_sub_cancel_left]
  · rw [split, hb, if_neg (by omega), if_neg (by omega), if_neg (by omega), if_pos (by omega),
      Nat.add_sub_cancel_left]

theorem split_long {width : ℕ} (hpos : 0 < width) (hwidth : width ≤ 8) (rest : List UInt8) :
    split (UInt8.ofNat (offset + 55 + width) :: rest) =
      (cutLong width rest).map fun parts => (kind parts.1, parts.2) := by
  have hb : (UInt8.ofNat (offset + 55 + width)).toNat = offset + 55 + width := by
    rw [UInt8.toNat_ofNat']
    rcases hkind with ⟨rfl, -⟩ | ⟨rfl, -⟩ <;> omega
  rcases hkind with ⟨rfl, rfl⟩ | ⟨rfl, rfl⟩
  · rw [split, hb, if_neg (by omega), if_neg (by omega), if_pos (by omega),
      Nat.add_sub_cancel_left]
  · rw [split, hb, if_neg (by omega), if_neg (by omega), if_neg (by omega), if_neg (by omega),
      Nat.add_sub_cancel_left]

/-- A header is read back together with its payload. -/
theorem split_header {bytes : List UInt8} (hlength : bytes.length < 256 ^ 8)
    (rest : List UInt8) :
    split (header offset bytes.length ++ bytes ++ rest) = some (kind bytes, rest) := by
  unfold header
  split_ifs with hshort
  · rw [List.append_assoc, List.singleton_append, split_short hkind hshort, cut_append,
      Option.map_some]
  · have hpos : 0 < byteLength bytes.length := by
      rw [byteLength, if_neg (by omega)]
      omega
    rw [List.cons_append, List.cons_append, List.append_assoc,
      split_long hkind hpos (byteLength_le hlength), cutLong_append, Option.map_some]

end Header

theorem length_le_encodeData (bytes : List UInt8) : bytes.length ≤ (encodeData bytes).length := by
  unfold encodeData
  split
  · split_ifs <;> simp
  · rw [List.length_append]
    exact Nat.le_add_left _ _

/-- An encoded item is read back. -/
theorem split_encode {item : Item} (hlength : (encode item).length < 256 ^ 8) (rest : List UInt8) :
    split (encode item ++ rest) = some (payload item, rest) := by
  cases item with
  | data bytes =>
    unfold encode at hlength ⊢
    have hbytes := (length_le_encodeData bytes).trans_lt hlength
    unfold encodeData
    split
    · rename_i b
      split_ifs with hb
      · have hlt : b.toNat < 0x80 := hb
        rw [List.singleton_append, split, if_pos hlt]
        rfl
      · exact split_header (.inl ⟨rfl, rfl⟩) hbytes rest
    · exact split_header (.inl ⟨rfl, rfl⟩) hbytes rest
  | list items =>
    unfold encode at hlength ⊢
    refine split_header (.inr ⟨rfl, rfl⟩) (lt_of_le_of_lt ?_ hlength) rest
    rw [List.length_append]
    exact Nat.le_add_left _ _

theorem encode_ne_nil (item : Item) : encode item ≠ [] := by
  have hheader (offset length : ℕ) : header offset length ≠ [] := by
    unfold header
    split_ifs <;> simp
  cases item with
  | data bytes =>
    unfold encode encodeData
    split
    · split_ifs <;> simp
    · simp [hheader]
  | list items =>
    unfold encode
    simp [hheader]

theorem length_le_encodeAll (items : List Item) : items.length ≤ (encodeAll items).length := by
  induction items with
  | nil => simp
  | cons item items ih =>
    have hpos : 0 < (encode item).length := List.length_pos_iff.mpr (encode_ne_nil item)
    rw [encodeAll, List.length_append, List.length_cons]
    omega

theorem length_encodeAll_le_of_mem {items inner : List Item} (h : .list inner ∈ items) :
    (encodeAll inner).length ≤ (encodeAll items).length := by
  induction items with
  | nil => cases h
  | cons item items ih =>
    rw [encodeAll, List.length_append]
    rcases List.mem_cons.mp h with rfl | h
    · rw [encode, List.length_append]
      omega
    · have := ih h
      omega

theorem splitAll_encodeAll {items : List Item} {fuel : ℕ} (hfuel : items.length ≤ fuel)
    (hlength : (encodeAll items).length < 256 ^ 8) :
    splitAll fuel (encodeAll items) = items.map payload := by
  induction items generalizing fuel with
  | nil => cases fuel <;> simp [splitAll, encodeAll, split]
  | cons item items ih =>
    cases fuel with
    | zero => simp at hfuel
    | succ fuel =>
      rw [encodeAll, List.length_append] at hlength
      rw [encodeAll, splitAll, split_encode (by omega)]
      dsimp only
      rw [ih (by simpa using hfuel) (by omega)]
      rfl

/-- The items of an encoded list. -/
theorem items?_encode {items : List Item} (hlength : (encode (.list items)).length < 256 ^ 8) :
    items? (encode (.list items)) = some (items.map payload) := by
  have hall : (encodeAll items).length < 256 ^ 8 := by
    rw [encode, List.length_append] at hlength
    omega
  have hsplit := split_encode hlength []
  rw [List.append_nil] at hsplit
  rw [items?, hsplit]
  dsimp only [payload]
  rw [splitAll_encodeAll (length_le_encodeAll items) hall]

end Rlp
