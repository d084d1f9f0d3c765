import Mathlib.Tactic.Ring
import OlaOs.Types.Basic

/-! Tree keys, node entries and tree operations (`types/src/merkle_tree.rs`). A field element
is held as the raw `u64` of a release build; equality of field elements is equality of their
canonical representatives. Node indices (`U256` in the source) are natural numbers: they are
only shifted right, masked and flipped in the last bit. -/
namespace OlaOs

/-- `GoldilocksField`, with the representative it stores. -/
structure GoldilocksField where
  inner : UInt64
  deriving DecidableEq

namespace GoldilocksField

def order : ℕ := 2 ^ 64 - 2 ^ 32 + 1

def zero : GoldilocksField := ⟨0⟩

def one : GoldilocksField := ⟨1⟩

/-- `from_canonical_u64`: the release build stores its argument as it is. -/
def fromCanonicalU64 (n : ℕ) : GoldilocksField := ⟨UInt64.ofNat n⟩

def toCanonicalU64 (x : GoldilocksField) : ℕ :=
  if order ≤ x.inner.toNat then x.inner.toNat - order else x.inner.toNat

/-- Field arithmetic; the result is given by its canonical representative. -/
def add (x y : GoldilocksField) : GoldilocksField :=
  fromCanonicalU64 ((x.toCanonicalU64 + y.toCanonicalU64) % order)

def mul (x y : GoldilocksField) : GoldilocksField :=
  fromCanonicalU64 (x.toCanonicalU64 * y.toCanonicalU64 % order)

def Canonical (x : GoldilocksField) : Prop := x.inner.toNat < order

instance (x : GoldilocksField) : Decidable x.Canonical := Nat.decLt _ _

theorem fromCanonicalU64_inner {n : ℕ} (h : n < 2 ^ 64) :
    (fromCanonicalU64 n).inner.toNat = n := UInt64.toNat_ofNat_of_lt h

theorem fromCanonicalU64_toNat (x : GoldilocksField) :
    fromCanonicalU64 x.inner.toNat = x := by
  cases x
  simp [fromCanonicalU64]

theorem ext_toNat {x y : GoldilocksField} (h : x.inner.toNat = y.inner.toNat) : x = y := by
  rw [← fromCanonicalU64_toNat x, h, fromCanonicalU64_toNat]

end GoldilocksField

/-- `TreeKey`, `TreeValue` and `ZkHash` are one type: four field elements, the most
significant one first. -/
structure TreeKey where
  w0 : GoldilocksField
  w1 : GoldilocksField
  w2 : GoldilocksField
  w3 : GoldilocksField
  deriving DecidableEq

abbrev TreeValue := TreeKey
abbrev ZkHash := TreeKey

def TreeKey.toList (k : TreeKey) : List GoldilocksField := [k.w0, k.w1, k.w2, k.w3]

def treeKeyDefault : TreeKey := ⟨.zero, .zero, .zero, .zero⟩

namespace TreeKey

/-- The representative by which hash maps compare tree keys. -/
def canonical (k : TreeKey) : TreeKey :=
  ⟨.fromCanonicalU64 k.w0.toCanonicalU64, .fromCanonicalU64 k.w1.toCanonicalU64,
    .fromCanonicalU64 k.w2.toCanonicalU64, .fromCanonicalU64 k.w3.toCanonicalU64⟩

/-- All four limbs lie below the order of the field. -/
def Canonical (k : TreeKey) : Prop :=
  k.w0.Canonical ∧ k.w1.Canonical ∧ k.w2.Canonical ∧ k.w3.Canonical

instance (k : TreeKey) : Decidable k.Canonical := by
  unfold Canonical
  infer_instance

theorem canonical_eq {k : TreeKey} (h : k.Canonical) : k.canonical = k := by
  have limb (x : GoldilocksField) (hx : x.Canonical) :
      GoldilocksField.fromCanonicalU64 x.toCanonicalU64 = x := by
    unfold GoldilocksField.toCanonicalU64
    rw [if_neg (Nat.not_le.mpr hx), GoldilocksField.fromCanonicalU64_toNat]
  obtain ⟨h0, h1, h2, h3⟩ := h
  cases k
  simp only [canonical, limb _ h0, limb _ h1, limb _ h2, limb _ h3]

end TreeKey

/-- `tree_key_to_u256`: `(acc << 64) + item` over the limbs. -/
def treeKeyToU256 (value : TreeKey) : ℕ :=
  value.toList.foldl (fun acc item => acc * 2 ^ 64 + item.inner.toNat) 0

/-- `u256_to_tree_key`: the little-endian words of the number, stored in reverse. -/
def u256ToTreeKey (value : ℕ) : TreeKey :=
  ⟨.fromCanonicalU64 (value / 2 ^ 192), .fromCanonicalU64 (value / 2 ^ 128),
    .fromCanonicalU64 (value / 2 ^ 64), .fromCanonicalU64 value⟩

theorem treeKeyToU256_eq (k : TreeKey) :
    treeKeyToU256 k = ((k.w0.inner.toNat * 2 ^ 64 + k.w1.inner.toNat) * 2 ^ 64 +
      k.w2.inner.toNat) * 2 ^ 64 + k.w3.inner.toNat := by
  simp [treeKeyToU256, TreeKey.toList]

theorem treeKeyToU256_lt (k : TreeKey) : treeKeyToU256 k < 2 ^ 256 := by
  have h0 := k.w0.inner.toNat_lt
  have h1 := k.w1.inner.toNat_lt
  have h2 := k.w2.inner.toNat_lt
  have h3 := k.w3.inner.toNat_lt
  rw [treeKeyToU256_eq]
  omega

/-- Without the debug assertion of `from_canonical_u64` the conversion loses nothing. -/
theorem treeKeyToU256_u256ToTreeKey {n : ℕ} (h : n < 2 ^ 256) :
    treeKeyToU256 (u256ToTreeKey n) = n := by
  rw [treeKeyToU256_eq]
  simp only [u256ToTreeKey, GoldilocksField.fromCanonicalU64, UInt64.toNat_ofNat']
  omega

theorem treeKeyToU256_injective : Function.Injective treeKeyToU256 := by
  intro a b hab
  rw [treeKeyToU256_eq, treeKeyToU256_eq] at hab
  have a1 := a.w1.inner.toNat_lt
  have a2 := a.w2.inner.toNat_lt
  have a3 := a.w3.inner.toNat_lt
  have b1 := b.w1.inner.toNat_lt
  have b2 := b.w2.inner.toNat_lt
  have b3 := b.w3.inner.toNat_lt
  have h0 : a.w0 = b.w0 := GoldilocksField.ext_toNat (by omega)
  have h1 : a.w1 = b.w1 := GoldilocksField.ext_toNat (by omega)
  have h2 : a.w2 = b.w2 := GoldilocksField.ext_toNat (by omega)
  have h3 : a.w3 = b.w3 := GoldilocksField.ext_toNat (by omega)
  cases a
  cases b
  simp_all

/-- `u8_arr_to_tree_key` on the thirty-two bytes of a hash: eight bytes a limb, each read
from its first byte on. -/
def h256ToTreeKey (value : H256) : TreeKey :=
  let limb (index : ℕ) := GoldilocksField.fromCanonicalU64
    (Bytes.ofBE ((value.bytes.drop (8 * index)).take 8))
  ⟨limb 0, limb 1, limb 2, limb 3⟩

def h256ToTreeValue (value : H256) : TreeValue := h256ToTreeKey value

def treeKeyToU8Arr (value : TreeKey) : List UInt8 :=
  value.toList.foldl (fun keyVec item => keyVec ++ Bytes.toBE 8 item.inner.toNat) []

def treeKeyToH256 (value : TreeKey) : H256 := ⟨treeKeyToU8Arr value, by
  simp [treeKeyToU8Arr, TreeKey.toList]⟩

def treeValueToH256 (value : TreeValue) : H256 := treeKeyToH256 value

/-- Reading a hash as a tree key reads it as one big-endian number. -/
theorem treeKeyToU256_h256ToTreeKey (h : H256) : treeKeyToU256 (h256ToTreeKey h) = h.toNat := by
  have chunk (i : ℕ) (hi : i < 4) : Bytes.ofBE ((h.bytes.drop (8 * i)).take 8) < 2 ^ 64 := by
    have hlt := Bytes.ofBE_lt ((h.bytes.drop (8 * i)).take 8)
    have hlen : ((h.bytes.drop (8 * i)).take 8).length = 8 := by
      simp [h.len]
      omega
    rw [hlen] at hlt
    exact hlt.trans_eq (by norm_num)
  have split : h.bytes = (h.bytes.take 8 ++ (h.bytes.drop 8).take 8) ++
      (h.bytes.drop 16).take 8 ++ (h.bytes.drop 24).take 8 := by
    conv_lhs => rw [← List.take_append_drop 8 h.bytes, ← List.take_append_drop 8 (h.bytes.drop 8),
      List.drop_drop, ← List.take_append_drop 8 (h.bytes.drop (8 + 8)), List.drop_drop]
    have htail : (h.bytes.drop 24).take 8 = h.bytes.drop 24 :=
      List.take_of_length_le (by simp [h.len])
    simp [htail]
  have e : h.toNat = ((Bytes.ofBE (h.bytes.take 8) * 256 ^ 8 +
      Bytes.ofBE ((h.bytes.drop 8).take 8)) * 256 ^ 8 +
      Bytes.ofBE ((h.bytes.drop 16).take 8)) * 256 ^ 8 +
      Bytes.ofBE ((h.bytes.drop 24).take 8) := by
    have len (i : ℕ) (hi : i ≤ 24) : ((h.bytes.drop i).take 8).length = 8 := by
      simp [h.len]
      omega
    unfold H256.toNat
    conv_lhs => rw [split]
    rw [Bytes.ofBE_append, Bytes.ofBE_append, Bytes.ofBE_append, len 24 (by omega),
      len 16 (by omega), len 8 (by omega)]
  rw [treeKeyToU256_eq]
  simp only [h256ToTreeKey, GoldilocksField.fromCanonicalU64_inner (chunk 0 (by omega)),
    GoldilocksField.fromCanonicalU64_inner (chunk 1 (by omega)),
    GoldilocksField.fromCanonicalU64_inner (chunk 2 (by omega)),
    GoldilocksField.fromCanonicalU64_inner (chunk 3 (by omega))]
  rw [e]
  norm_num

theorem treeKeyToH256_toNat (k : TreeKey) : (treeKeyToH256 k).toNat = treeKeyToU256 k := by
  have limb (x : GoldilocksField) : Bytes.ofBE (Bytes.toBE 8 x.inner.toNat) = x.inner.toNat :=
    Bytes.ofBE_toBE_of_lt (x.inner.toNat_lt.trans_eq (by norm_num))
  rw [treeKeyToU256_eq]
  simp only [H256.toNat, treeKeyToH256, treeKeyToU8Arr, TreeKey.toList, List.foldl_cons,
    List.foldl_nil, List.nil_append, Bytes.ofBE_append, Bytes.length_toBE, limb]
  norm_num

theorem h256ToTreeKey_treeKeyToH256 (k : TreeKey) : h256ToTreeKey (treeKeyToH256 k) = k :=
  treeKeyToU256_injective (by rw [treeKeyToU256_h256ToTreeKey, treeKeyToH256_toNat])

theorem treeKeyToH256_h256ToTreeKey (h : H256) : treeKeyToH256 (h256ToTreeKey h) = h :=
  H256.toNat_injective (by rw [treeKeyToH256_toNat, treeKeyToU256_h256ToTreeKey])

/-- `NodeEntry` -/
inductive NodeEntry where
  | branch (hash leftHash rightHash : TreeKey)
  | leaf (hash : TreeKey)
  deriving DecidableEq

def NodeEntry.hash : NodeEntry → TreeKey
  | .branch hash _ _ => hash
  | .leaf hash => hash

/-- `TreeOperation` -/
inductive TreeOperation where
  | write (value previousValue : TreeValue)
  | read (value : TreeValue)
  | delete
  deriving DecidableEq

/-- `LevelIndex`: the level counted from the root, and the index inside the level. -/
abbrev LevelIndex := ℕ × ℕ

structure InitialStorageWrite where
  index : ℕ
  key : ℕ
  value : H256
  deriving DecidableEq

structure RepeatedStorageWrite where
  index : ℕ
  value : H256
  deriving DecidableEq

end OlaOs
