import Mathlib.Data.Prod.Lex
import Mathlib.Order.Basic
import Mathlib.Order.Fin.Basic
import OlaOs.Lib.Bytes

/-! Fixed-size words of the node: 32-byte hashes and 256-bit integers. -/
namespace OlaOs

/-- `H256`: thirty-two bytes, written and compared from the first byte on. -/
structure H256 where
  bytes : List UInt8
  len : bytes.length = 32
  deriving DecidableEq

abbrev Address := H256
abbrev U256 := Fin (2 ^ 256)

instance instNeZeroU256 : NeZero (2 ^ 256) := ⟨(Nat.two_pow_pos 256).ne'⟩

namespace H256

def toNat (h : H256) : ℕ := Bytes.ofBE h.bytes

theorem toNat_injective : Function.Injective toNat := by
  intro a b hab
  have hb : a.bytes = b.bytes := Bytes.ofBE_inj (a.len.trans b.len.symm) hab
  cases a
  cases b
  simpa using hb

theorem toNat_lt (h : H256) : h.toNat < 2 ^ 256 := by
  have hlt := Bytes.ofBE_lt h.bytes
  rw [h.len] at hlt
  exact hlt.trans_eq (by norm_num)

/-- Byte-wise lexicographic comparison of equally long strings is the comparison of the
big-endian numbers. -/
instance : LinearOrder H256 := LinearOrder.lift' toNat toNat_injective

theorem lt_def (a b : H256) : a < b ↔ a.toNat < b.toNat := Iff.rfl

def zero : H256 := ⟨List.replicate 32 0, List.length_replicate⟩

end H256

def u256ToH256 (num : U256) : H256 := ⟨Bytes.toBE 32 num, Bytes.length_toBE _ _⟩

def h256ToU256 (num : H256) : U256 := ⟨num.toNat, num.toNat_lt⟩

theorem u256ToH256_toNat (num : U256) : (u256ToH256 num).toNat = num.val := by
  have hlt : num.val < 256 ^ 32 := num.isLt.trans_eq (by norm_num)
  rw [H256.toNat, u256ToH256, Bytes.ofBE_toBE_of_lt hlt]

theorem h256ToU256_val (h : H256) : (h256ToU256 h).val = h.toNat := rfl

theorem h256ToU256_u256ToH256 (num : U256) : h256ToU256 (u256ToH256 num) = num := by
  apply Fin.ext
  rw [h256ToU256_val, u256ToH256_toNat]

theorem u256ToH256_h256ToU256 (h : H256) : u256ToH256 (h256ToU256 h) = h := by
  apply H256.toNat_injective
  rw [u256ToH256_toNat, h256ToU256_val]

theorem u256ToH256_injective : Function.Injective u256ToH256 := fun a b hab => by
  rw [← h256ToU256_u256ToH256 a, hab, h256ToU256_u256ToH256]

/-- `StorageKey`: the account and the slot inside it. -/
structure StorageKey where
  account : Address
  key : H256
  deriving DecidableEq

namespace StorageKey

def toProd (k : StorageKey) : Address ×ₗ H256 := toLex (k.account, k.key)

theorem toProd_injective : Function.Injective toProd := by
  rintro ⟨account, key⟩ ⟨account', key'⟩ h
  simpa [toProd] using h

/-- The derived order: by account and then by key. -/
instance : LinearOrder StorageKey := LinearOrder.lift' toProd toProd_injective

theorem lt_iff (a b : StorageKey) :
    a < b ↔ a.account < b.account ∨ a.account = b.account ∧ a.key < b.key := by
  show a.toProd < b.toProd ↔ _
  rw [Prod.Lex.lt_iff]
  rfl

end StorageKey

/-- `StorageKey::raw_hashed_key`, over the Poseidon byte hash of the proving system. -/
def StorageKey.rawHashedKey (poseidonHashBytes : List UInt8 → H256) (address key : H256) : H256 :=
  poseidonHashBytes (address.bytes ++ (u256ToH256 (h256ToU256 key)).bytes)

def StorageKey.hashedKey (poseidonHashBytes : List UInt8 → H256) (k : StorageKey) : H256 :=
  rawHashedKey poseidonHashBytes k.account k.key

/-- `StorageKey::hashed_key_u256` reads the hash from its last byte on. -/
def StorageKey.hashedKeyU256 (poseidonHashBytes : List UInt8 → H256) (k : StorageKey) : ℕ :=
  Bytes.ofLE (rawHashedKey poseidonHashBytes k.account k.key).bytes

end OlaOs
