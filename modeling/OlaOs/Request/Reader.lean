import OlaOs.Lib.Seq
import OlaOs.Request.TransactionRequest

/-! What the node relies on of the `rlp` crate, and a crate that does it. -/
namespace OlaOs

/-- A byte string of the address space. -/
def FitsMemory (bytes : List UInt8) : Prop := bytes.length < 256 ^ 8

/-- The crate decodes what it encodes: the fields of an encoded list are read back as the strings,
numbers, addresses and lists of strings that were appended. -/
structure RlpCrate.Lawful (crate : RlpCrate) : Prop where
  itemCount : ∀ items, FitsMemory (crate.encode (.list items)) →
    crate.itemCount (crate.encode (.list items)) = .ok items.length
  bytesAt : ∀ items i bytes, FitsMemory (crate.encode (.list items)) →
    items[i]? = some (.data bytes) → crate.bytesAt (crate.encode (.list items)) i = .ok bytes
  u16At : ∀ items i (n : U16), FitsMemory (crate.encode (.list items)) →
    items[i]? = some (Rlp.uint n.val) → crate.u16At (crate.encode (.list items)) i = .ok n
  u64At : ∀ items i (n : U64), FitsMemory (crate.encode (.list items)) →
    items[i]? = some (Rlp.uint n.val) → crate.u64At (crate.encode (.list items)) i = .ok n
  u256At : ∀ items i (n : U256), FitsMemory (crate.encode (.list items)) →
    items[i]? = some (Rlp.uint n.val) → crate.u256At (crate.encode (.list items)) i = .ok n
  addressAt : ∀ items i (a : Address), FitsMemory (crate.encode (.list items)) →
    items[i]? = some (.data a.bytes) → crate.addressAt (crate.encode (.list items)) i = .ok a
  listAt : ∀ items i bytes, FitsMemory (crate.encode (.list items)) →
    items[i]? = some (.list (bytes.map .data)) →
    crate.listAt (crate.encode (.list items)) i = .ok bytes

namespace RlpReader

def fieldAt (rlp : List UInt8) (i : ℕ) : Except DecoderError Rlp.Payload :=
  match Rlp.items? rlp with
  | none => .error .rlpExpectedToBeList
  | some items =>
    match items[i]? with
    | none => .error .rlpIsTooShort
    | some field => .ok field

def asData : Rlp.Payload → Except DecoderError (List UInt8)
  | .data bytes => .ok bytes
  | .list _ => .error .rlpExpectedToBeData

/-- A number of at most `width` bytes without leading zeros. -/
def asUint (width : ℕ) (bytes : List UInt8) : Except DecoderError (Fin (2 ^ (8 * width))) :=
  match bytes with
  | 0 :: _ => .error .rlpInvalidIndirection
  | bytes =>
    if bytes.length ≤ width then .ok (Fin.ofNat _ (Bytes.ofBE bytes)) else .error .rlpIsTooBig

def asAddress (bytes : List UInt8) : Except DecoderError Address :=
  if hlength : bytes.length = 32 then .ok ⟨bytes, hlength⟩
  else if bytes.length < 32 then .error .rlpIsTooShort else .error .rlpIsTooBig

/-- The strings of a list; the iterator of a string is empty. -/
def asList : Rlp.Payload → Except DecoderError (List (List UInt8))
  | .data _ => .ok []
  | .list bytes => (Rlp.splitAll bytes.length bytes).mapM asData

def dataAt (rlp : List UInt8) (i : ℕ) : Except DecoderError (List UInt8) :=
  (fieldAt rlp i).bind asData

/-- A payload behind its header again. -/
def raw : Rlp.Payload → List UInt8
  | .data bytes => Rlp.encodeData bytes
  | .list bytes => Rlp.header 0xc0 bytes.length ++ bytes

def crate : RlpCrate where
  itemCount rlp :=
    match Rlp.items? rlp with
    | none => .error .rlpExpectedToBeList
    | some items => .ok items.length
  at_ rlp i := (fieldAt rlp i).map raw
  u16At rlp i := (dataAt rlp i).bind (asUint 2)
  u64At rlp i := (dataAt rlp i).bind (asUint 8)
  u256At rlp i := (dataAt rlp i).bind (asUint 32)
  addressAt rlp i := (dataAt rlp i).bind asAddress
  bytesAt := dataAt
  listAt rlp i := (fieldAt rlp i).bind asList
  encode := Rlp.encode

variable {items : List Rlp.Item} {i : ℕ}

theorem fieldAt_encode (hfits : FitsMemory (Rlp.encode (.list items))) {item : Rlp.Item}
    (hitem : items[i]? = some item) :
    fieldAt (Rlp.encode (.list items)) i = .ok (Rlp.payload item) := by
  unfold fieldAt
  rw [Rlp.items?_encode hfits]
  dsimp only
  rw [List.getElem?_map, hitem]
  rfl

theorem dataAt_encode (hfits : FitsMemory (Rlp.encode (.list items))) {bytes : List UInt8}
    (hitem : items[i]? = some (.data bytes)) :
    dataAt (Rlp.encode (.list items)) i = .ok bytes := by
  unfold dataAt
  rw [fieldAt_encode hfits hitem]
  rfl

theorem asUint_toMinimalBE {width : ℕ} (n : Fin (2 ^ (8 * width))) :
    asUint width (Rlp.toMinimalBE n.val) = .ok n := by
  have hlt : n.val < 256 ^ width := n.isLt.trans_eq (Nat.pow_mul 2 8 width)
  have hlength : (Rlp.toMinimalBE n.val).length ≤ width := by
    rw [Rlp.length_toMinimalBE]
    exact Rlp.byteLength_le hlt
  unfold asUint
  split
  · rename_i hzero
    exact absurd hzero (Rlp.toMinimalBE_ne_zero_cons _ _)
  · rw [if_pos hlength, Rlp.ofBE_toMinimalBE, Fin.ofNat_eq_cast, Fin.cast_val_eq_self]

theorem uintAt_encode (width : ℕ) (hfits : FitsMemory (Rlp.encode (.list items)))
    {n : Fin (2 ^ (8 * width))} (hitem : items[i]? = some (Rlp.uint n.val)) :
    (dataAt (Rlp.encode (.list items)) i).bind (asUint width) = .ok n := by
  rw [dataAt_encode hfits hitem]
  exact asUint_toMinimalBE n

theorem asList_payload {bytes : List (List UInt8)}
    (hfits : FitsMemory (Rlp.encodeAll (bytes.map .data))) :
    asList (Rlp.payload (.list (bytes.map .data))) = .ok bytes := by
  show (Rlp.splitAll _ (Rlp.encodeAll (bytes.map .data))).mapM asData = .ok bytes
  rw [Rlp.splitAll_encodeAll (Rlp.length_le_encodeAll _) hfits, List.map_map]
  have hdata : ((bytes.map (Rlp.payload ∘ Rlp.Item.data)).mapM asData : Except DecoderError _) =
      (bytes.mapM fun b => .ok b) := by
    rw [List.mapM_map]
    rfl
  rw [hdata]
  exact (Seq.mapM_eq_ok (g := id) fun b _ => rfl).trans (congrArg _ (List.map_id bytes))

theorem crate_lawful : crate.Lawful where
  itemCount items hfits := by
    show (match Rlp.items? (Rlp.encode (.list items)) with
      | none => _
      | some items => _) = _
    rw [Rlp.items?_encode hfits]
    simp
  bytesAt items i bytes hfits hitem := dataAt_encode hfits hitem
  u16At items i n hfits hitem := uintAt_encode 2 hfits hitem
  u64At items i n hfits hitem := uintAt_encode 8 hfits hitem
  u256At items i n hfits hitem := uintAt_encode 32 hfits hitem
  addressAt items i a hfits hitem := by
    show (dataAt (Rlp.encode (.list items)) i).bind asAddress = _
    rw [dataAt_encode hfits hitem]
    show asAddress a.bytes = _
    rw [asAddress, dif_pos a.len]
  listAt items i bytes hfits hitem := by
    show (fieldAt (Rlp.encode (.list items)) i).bind asList = _
    rw [fieldAt_encode hfits hitem]
    refine asList_payload (lt_of_le_of_lt ?_ hfits)
    have hle := Rlp.length_encodeAll_le_of_mem (List.mem_of_getElem? hitem)
    show _ ≤ (Rlp.encode (.list items)).length
    rw [Rlp.encode, List.length_append]
    omega

end RlpReader

end OlaOs
