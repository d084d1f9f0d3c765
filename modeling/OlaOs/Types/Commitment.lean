import OlaOs.Lib.FixedRecords
import OlaOs.Types.MerkleTree

/-! The published write sets (`types/src/commitment.rs`, `types/src/storage/writes.rs`), and how a
reader gets them back from their bytes. -/
namespace OlaOs

/-- `SerializeCommitment for InitialStorageWrite`; the index is not written. -/
def InitialStorageWrite.serializeCommitment (write : InitialStorageWrite) : List UInt8 :=
  Bytes.toLE 32 write.key ++ write.value.bytes

/-- `SerializeCommitment for RepeatedStorageWrite` -/
def RepeatedStorageWrite.serializeCommitment (write : RepeatedStorageWrite) : List UInt8 :=
  Bytes.toBE 8 write.index ++ write.value.bytes

def initialWriteSize : ℕ := 64
def repeatedWriteSize : ℕ := 40

/-- `serialize_commitments`: the count is `values.len() as u32`. -/
def serializeCommitments {α : Type} (serializeCommitment : α → List UInt8) (values : List α) :
    List UInt8 :=
  FixedRecords.encode serializeCommitment values

def readH256 (bytes : List UInt8) : Option H256 :=
  if hlength : bytes.length = 32 then some ⟨bytes, hlength⟩ else none

/-- A reader of one initial write: its key and its value. -/
def readInitialWrite (record : List UInt8) : Option (ℕ × H256) :=
  (readH256 (record.drop 32)).map fun value => (Bytes.ofLE (record.take 32), value)

/-- A reader of one repeated write: its index and its value. -/
def readRepeatedWrite (record : List UInt8) : Option (ℕ × H256) :=
  (readH256 (record.drop 8)).map fun value => (Bytes.ofBE (record.take 8), value)

def decodeInitialWrites (bytes : List UInt8) : Option (List (ℕ × H256)) :=
  FixedRecords.decode initialWriteSize readInitialWrite bytes

def decodeRepeatedWrites (bytes : List UInt8) : Option (List (ℕ × H256)) :=
  FixedRecords.decode repeatedWriteSize readRepeatedWrite bytes

theorem readH256_bytes (value : H256) : readH256 value.bytes = some value := dif_pos value.len

theorem decodeInitialWrites_serialize {writes : List InitialStorageWrite}
    (hkeys : ∀ write ∈ writes, write.key < 2 ^ 256) (hcount : writes.length < 2 ^ 32) :
    decodeInitialWrites (serializeCommitments InitialStorageWrite.serializeCommitment writes) =
      some (writes.map fun write => (write.key, write.value)) := by
  have hhead (write : InitialStorageWrite) : (Bytes.toLE 32 write.key).length = 32 :=
    Bytes.length_toLE _ _
  refine FixedRecords.decode_encode (fun write _ => ?_) (fun write hwrite => ?_) hcount
  · rw [InitialStorageWrite.serializeCommitment, List.length_append, hhead, write.value.len]
    rfl
  · unfold readInitialWrite InitialStorageWrite.serializeCommitment
    rw [List.take_left' (hhead write), List.drop_left' (hhead write), readH256_bytes,
      Bytes.ofLE_toLE_of_lt ((hkeys write hwrite).trans_eq (by norm_num))]
    rfl

theorem decodeRepeatedWrites_serialize {writes : List RepeatedStorageWrite}
    (hindices : ∀ write ∈ writes, write.index < 2 ^ 64) (hcount : writes.length < 2 ^ 32) :
    decodeRepeatedWrites (serializeCommitments RepeatedStorageWrite.serializeCommitment writes) =
      some (writes.map fun write => (write.index, write.value)) := by
  have hhead (write : RepeatedStorageWrite) : (Bytes.toBE 8 write.index).length = 8 :=
    Bytes.length_toBE _ _
  refine FixedRecords.decode_encode (fun write _ => ?_) (fun write hwrite => ?_) hcount
  · rw [RepeatedStorageWrite.serializeCommitment, List.length_append, hhead, write.value.len]
    rfl
  · unfold readRepeatedWrite RepeatedStorageWrite.serializeCommitment
    rw [List.take_left' (hhead write), List.drop_left' (hhead write), readH256_bytes,
      Bytes.ofBE_toBE_of_lt ((hindices write hwrite).trans_eq (by norm_num))]
    rfl

end OlaOs
