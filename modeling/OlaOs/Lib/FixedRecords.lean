import OlaOs.Lib.Bytes

/-! Lists of records of one size behind a count of four bytes. -/
namespace FixedRecords

variable {α β : Type}

/-- The records in the order of the list, behind their number. -/
def encode (write : α → List UInt8) (values : List α) : List UInt8 :=
  Bytes.toBE 4 values.length ++ values.flatMap write

/-- Exactly so many records and nothing behind them. -/
def readRecords (size : ℕ) (read : List UInt8 → Option β) : ℕ → List UInt8 → Option (List β)
  | 0, [] => some []
  | 0, _ :: _ => none
  | n + 1, bytes => do
    let record ← read (bytes.take size)
    let records ← readRecords size read n (bytes.drop size)
    some (record :: records)

def decode (size : ℕ) (read : List UInt8 → Option β) (bytes : List UInt8) : Option (List β) :=
  readRecords size read (Bytes.ofBE (bytes.take 4)) (bytes.drop 4)

/-- Records that are read back one by one, up to what `view` leaves of them, are read back as a
list. -/
theorem readRecords_flatMap {size : ℕ} {write : α → List UInt8} {read : List UInt8 → Option β}
    {view : α → β} {values : List α} (hsize : ∀ a ∈ values, (write a).length = size)
    (hread : ∀ a ∈ values, read (write a) = some (view a)) :
    readRecords size read values.length (values.flatMap write) = some (values.map view) := by
  induction values with
  | nil => rfl
  | cons a values ih =>
    have hlength := hsize a List.mem_cons_self
    have hrest := ih (fun b hb => hsize b (List.mem_cons_of_mem _ hb))
      fun b hb => hread b (List.mem_cons_of_mem _ hb)
    rw [List.length_cons, List.flatMap_cons, readRecords, List.take_left' hlength,
      List.drop_left' hlength, hread a List.mem_cons_self, hrest]
    rfl

theorem decode_encode {size : ℕ} {write : α → List UInt8} {read : List UInt8 → Option β}
    {view : α → β} {values : List α} (hsize : ∀ a ∈ values, (write a).length = size)
    (hread : ∀ a ∈ values, read (write a) = some (view a)) (hcount : values.length < 2 ^ 32) :
    decode size read (encode write values) = some (values.map view) := by
  have hhead : (Bytes.toBE 4 values.length).length = 4 := Bytes.length_toBE _ _
  unfold decode encode
  rw [List.take_left' hhead, List.drop_left' hhead,
    Bytes.ofBE_toBE_of_lt (hcount.trans_eq (by norm_num))]
  exact readRecords_flatMap hsize hread

end FixedRecords
