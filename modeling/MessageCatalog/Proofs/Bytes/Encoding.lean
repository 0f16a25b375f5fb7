import MessageCatalog.Proofs.Bytes.Words

/-! # Words written into a buffer and read back

A word is read exactly where its bytes stand. What is written over a part of a buffer is therefore
read back in the order it was written in, and turning the bytes of a word round is the same as reading
them in the other order. No offset and no length wraps round into the buffer. -/

namespace MessageCatalog.Bytes

/-! ## Writing into a buffer -/

/-- The buffer with `bs` in place of its bytes from `offset` on. What does not fit is left out. -/
def overwrite (data : Array UInt8) (offset : Nat) (bs : List UInt8) : Array UInt8 :=
  data.mapIdx fun i b => if offset ≤ i then bs.getD (i - offset) b else b

/-- The buffer with the four bytes from `offset` on turned round. -/
def reverseWord (data : Array UInt8) (offset : Nat) : Array UInt8 :=
  overwrite data offset (data.extract offset (offset + 4)).toList.reverse

section

variable {data : Array UInt8} {bs : List UInt8} {offset : Nat}

@[simp] theorem size_overwrite : (overwrite data offset bs).size = data.size :=
  Array.size_mapIdx

theorem getElem?_overwrite (i : Nat) :
    (overwrite data offset bs)[i]? =
      data[i]?.map fun b => if offset ≤ i then bs.getD (i - offset) b else b :=
  Array.getElem?_mapIdx

/-- What is written stands where it was written. -/
theorem extract_overwrite (h : offset + bs.length ≤ data.size) :
    ((overwrite data offset bs).extract offset (offset + bs.length)).toList = bs := by
  apply List.ext_getElem?
  intro i
  rw [Array.getElem?_toList, Array.getElem?_extract, size_overwrite]
  by_cases hi : i < bs.length
  · rw [if_pos (by omega), getElem?_overwrite, Array.getElem?_eq_getElem (by omega)]
    simp [hi]
  · rw [if_neg (by omega), List.getElem?_eq_none (by omega)]

/-- A range that does not overlap with what is written stays as it was. -/
theorem extract_overwrite_of_disjoint {start stop : Nat}
    (h : stop ≤ offset ∨ offset + bs.length ≤ start) :
    (overwrite data offset bs).extract start stop = data.extract start stop := by
  apply Array.ext_getElem?
  intro i
  rw [Array.getElem?_extract, Array.getElem?_extract, size_overwrite]
  split
  case isFalse => rfl
  case isTrue hi =>
    rw [getElem?_overwrite]
    cases h with
    | inl h => simp [show ¬ offset ≤ start + i by omega]
    | inr h => simp [show offset ≤ start + i by omega, show bs.length ≤ start + i - offset by omega]

end

namespace Reader

variable {r : Reader} {offset length : UInt64} {data : Array UInt8} {order : ByteOrder}

/-! ## Ranges -/

theorem readBytes_eq_ite (h : r.size < UInt64.size) :
    r.readBytes offset length =
      if offset.toNat + length.toNat ≤ r.size then
        .ok (r.data.extract offset.toNat (offset.toNat + length.toNat)).toList
      else .error (.outOfBounds offset length r.size) := by
  split
  case isTrue hle => exact (readBytes_eq_ok_iff h).mpr ⟨hle, rfl⟩
  case isFalse hle => exact readBytes_eq_error (Nat.lt_of_not_le hle)

theorem readBytes_overwrite (h : data.size < UInt64.size) {bs : List UInt8}
    (hlen : bs.length = length.toNat) (hin : offset.toNat + length.toNat ≤ data.size) :
    readBytes ⟨overwrite data offset.toNat bs, order⟩ offset length = .ok bs := by
  have hsize : size ⟨overwrite data offset.toNat bs, order⟩ = data.size := size_overwrite
  rw [readBytes_eq_ok_iff (by rwa [hsize]), hsize, ← hlen]
  exact ⟨by rwa [hlen], (extract_overwrite (by rwa [hlen])).symm⟩

theorem readBytes_overwrite_of_disjoint (h : data.size < UInt64.size) {start : Nat} {bs : List UInt8}
    (hd : offset.toNat + length.toNat ≤ start ∨ start + bs.length ≤ offset.toNat) :
    readBytes ⟨overwrite data start bs, order⟩ offset length =
      readBytes ⟨data, order⟩ offset length := by
  have hsize : size ⟨overwrite data start bs, order⟩ = size ⟨data, order⟩ := size_overwrite
  rw [readBytes_eq_ite (by rwa [hsize]), readBytes_eq_ite (r := ⟨data, order⟩) h, hsize,
    extract_overwrite_of_disjoint hd]

/-- Bytes say nothing of an order: four of them that are turned round are read turned round in any. -/
theorem readBytes_reverseWord (h : data.size < UInt64.size) (offset : UInt64)
    (order order' : ByteOrder) :
    readBytes ⟨reverseWord data offset.toNat, order⟩ offset 4 =
      (readBytes ⟨data, order'⟩ offset 4).map List.reverse := by
  have hsize : size ⟨reverseWord data offset.toNat, order⟩ = data.size := size_overwrite
  by_cases hin : offset.toNat + 4 ≤ data.size
  · have hbytes : readBytes ⟨data, order'⟩ offset 4 =
        .ok (data.extract offset.toNat (offset.toNat + 4)).toList :=
      (readBytes_eq_ok_iff (r := ⟨data, order'⟩) h).mpr ⟨hin, rfl⟩
    rw [hbytes]
    exact readBytes_overwrite h (List.length_reverse.trans (length_extract_four hin)) hin
  · have hout : data.size < offset.toNat + 4 := Nat.lt_of_not_le hin
    have hbytes : readBytes ⟨data, order'⟩ offset 4 = .error (.outOfBounds offset 4 data.size) :=
      readBytes_eq_error hout
    rw [hbytes, readBytes_eq_error (by rw [hsize]; exact hout), hsize]
    rfl

/-! ## Words -/

/-- A word is read in one order as in the other once its bytes are turned round. -/
theorem readWord_reverseWord (h : data.size < UInt64.size) :
    readWord ⟨data, .big⟩ offset = readWord ⟨reverseWord data offset.toNat, .little⟩ offset := by
  have hread := readBytes_reverseWord h offset .little .big
  cases hr : readBytes ⟨data, .big⟩ offset 4 with
  | error e =>
      rw [readWord_eq_error_iff.mpr hr, eq_comm, readWord_eq_error_iff, hread, hr]
      rfl
  | ok bs =>
      rw [readWord, readWord, hread, hr]
      change Except.ok (UInt32.ofNat (ByteOrder.big.value bs)) =
        .ok (UInt32.ofNat (ByteOrder.little.value bs.reverse))
      rw [← ByteOrder.value_reverse, List.reverse_reverse]

theorem readWord_overwrite (h : data.size < UInt64.size) (hin : offset.toNat + 4 ≤ data.size)
    (word : UInt32) :
    readWord ⟨overwrite data offset.toNat (order.bytes word), order⟩ offset = .ok word :=
  readWord_eq_ok_iff_readBytes.mpr (readBytes_overwrite h (order.length_bytes word) hin)

theorem exists_readWord_iff (h : r.size < UInt64.size) :
    (∃ word, r.readWord offset = .ok word) ↔ offset.toNat + 4 ≤ r.size := by
  constructor
  · intro hx
    obtain ⟨word, hw⟩ := hx
    exact ((readBytes_eq_ok_iff h).mp (readWord_eq_ok_iff_readBytes.mp hw)).1
  · intro hin
    exact exists_readWord (Nat.lt_of_le_of_lt hin h) hin

/-! ## Numbers with a sign -/

theorem exists_readInt_iff (h : r.size < UInt64.size) :
    (∃ value, r.readInt offset = .ok value) ↔ offset.toNat + 4 ≤ r.size := by
  rw [← exists_readWord_iff h]
  simp only [readInt_eq_ok_iff]
  exact ⟨fun ⟨_, word, hw, _⟩ => ⟨word, hw⟩, fun ⟨word, hw⟩ => ⟨_, word, hw, rfl⟩⟩

theorem readInt_eq_ok_iff_toInt {value : Int32} :
    r.readInt offset = .ok value ↔ ∃ word, r.readWord offset = .ok word ∧
      value.toInt =
        if word.toNat < 0x80000000 then (word.toNat : Int) else word.toNat - 0x100000000 := by
  rw [readInt_eq_ok_iff]
  simp only [← Int32.toInt_inj, toInt_toInt32, eq_comm (a := value.toInt)]

theorem exists_readSize_iff {what : String} :
    (∃ k, r.readSize offset what = .ok k) ↔
      ∃ value, r.readInt offset = .ok value ∧ 0 ≤ value.toInt := by
  constructor
  · intro hx
    obtain ⟨k, hk⟩ := hx
    obtain ⟨value, hv, heq⟩ := readSize_eq_ok_iff_readInt.mp hk
    exact ⟨value, hv, by omega⟩
  · intro hx
    obtain ⟨value, hv, hle⟩ := hx
    rw [readSize_of_readInt hv, if_neg (Int.not_lt.mpr hle)]
    exact ⟨_, rfl⟩

/-! ## Main statement -/

/-- What is read at `offset`, with failures as a caller sees them. -/
structure ReadsExactly (r : Reader) (offset : UInt64) : Prop where
  /-- A range is read exactly if it ends inside the buffer, counted without wrapping round. -/
  bytes_eq : ∀ length, (r.readBytes offset length).mapError ReadError.toError =
    if offset.toNat + length.toNat ≤ r.size then
      .ok (r.data.extract offset.toNat (offset.toNat + length.toNat)).toList
    else .error (.outOfBounds offset.toNat length.toNat r.size)
  word_iff : (∃ word, r.readWord offset = .ok word) ↔ offset.toNat + 4 ≤ r.size
  int_iff : (∃ value, r.readInt offset = .ok value) ↔ offset.toNat + 4 ≤ r.size
  /-- A word is read where its bytes stand. -/
  word_eq_ok_iff : ∀ word,
    r.readWord offset = .ok word ↔ r.readBytes offset 4 = .ok (r.order.bytes word)
  /-- A word is read in one order as in the other once its bytes are turned round. -/
  reversed : readWord ⟨r.data, .big⟩ offset =
    readWord ⟨reverseWord r.data offset.toNat, .little⟩ offset
  /-- What is written in an order is read back in that order. -/
  written : offset.toNat + 4 ≤ r.size → ∀ (order : ByteOrder) word,
    readWord ⟨overwrite r.data offset.toNat (order.bytes word), order⟩ offset = .ok word
  /-- What does not overlap with what is written is read as before. -/
  kept : ∀ (order : ByteOrder) word start length,
    start.toNat + length.toNat ≤ offset.toNat ∨ offset.toNat + 4 ≤ start.toNat →
    readBytes ⟨overwrite r.data offset.toNat (order.bytes word), r.order⟩ start length =
      r.readBytes start length
  /-- The words from the sign bit on stand for the negative numbers. -/
  int_eq_ok_iff : ∀ value, r.readInt offset = .ok value ↔ ∃ word, r.readWord offset = .ok word ∧
    value.toInt =
      if word.toNat < 0x80000000 then (word.toNat : Int) else word.toNat - 0x100000000
  size_iff : ∀ what, (∃ k, r.readSize offset what = .ok k) ↔
    ∃ value, r.readInt offset = .ok value ∧ 0 ≤ value.toInt
  size_eq_ok_iff : ∀ what k, r.readSize offset what = .ok k ↔
    ∃ value, r.readInt offset = .ok value ∧ value.toInt = k.toNat
  /-- A negative size is told from a size that is not there. -/
  negative : ∀ what value, r.readInt offset = .ok value → value.toInt < 0 →
    (r.readSize offset what).mapError ReadError.toError =
      .error (.catalogFormat s!"{what} at byte {offset.toNat} is negative ({value.toInt})")
  outside : r.size < offset.toNat + 4 →
    (r.readWord offset).mapError ReadError.toError = .error (.outOfBounds offset.toNat 4 r.size) ∧
    (r.readInt offset).mapError ReadError.toError = .error (.outOfBounds offset.toNat 4 r.size) ∧
    ∀ what, (r.readSize offset what).mapError ReadError.toError =
      .error (.outOfBounds offset.toNat 4 r.size)

/-- In a buffer whose size is itself a number of 64 bits, what is read at any offset is what is encoded
there. A read fails exactly where it leaves the buffer, and that of a size also for the sign. -/
theorem reads_exact {r : Reader} (h : r.size < UInt64.size) (offset : UInt64) :
    r.ReadsExactly offset where
  bytes_eq _ := by
    rw [readBytes_eq_ite h]
    split <;> rfl
  word_iff := exists_readWord_iff h
  int_iff := exists_readInt_iff h
  word_eq_ok_iff _ := readWord_eq_ok_iff_readBytes
  reversed := readWord_reverseWord h
  written hin _ word := readWord_overwrite h hin word
  kept order word _ _ hd := by
    apply readBytes_overwrite_of_disjoint h
    rwa [order.length_bytes]
  int_eq_ok_iff _ := readInt_eq_ok_iff_toInt
  size_iff _ := exists_readSize_iff
  size_eq_ok_iff _ _ := readSize_eq_ok_iff_readInt
  negative what value hv hneg := by
    rw [readSize_of_readInt hv, if_pos hneg]
    rfl
  outside hout := by
    rw [readWord_eq_error hout, readInt_eq_error hout]
    refine ⟨rfl, rfl, ?_⟩
    intro what
    rw [readSize_eq_error hout]
    rfl

/-- A word with its sign bit alone. -/
def signBit : Reader :=
  ⟨#[0x80, 0, 0, 0], .big⟩

/-- The least number is no size, and the largest length does not wrap round. -/
theorem reads_signBit :
    signBit.size < UInt64.size ∧
      signBit.readInt 0 = .ok Int32.minValue ∧
      (signBit.readSize 0 "entry count").mapError ReadError.toError =
        .error (.catalogFormat "entry count at byte 0 is negative (-2147483648)") ∧
      (signBit.readBytes 1 0xffffffffffffffff).mapError ReadError.toError =
        .error (.outOfBounds 1 0xffffffffffffffff 4) := by
  have hsize : signBit.size < UInt64.size := by decide
  have hint : signBit.readInt 0 = .ok Int32.minValue := by decide +kernel
  refine ⟨hsize, hint, ?_, ?_⟩
  · exact (reads_exact hsize 0).negative "entry count" _ hint (by decide)
  · exact ((reads_exact hsize 1).bytes_eq _).trans (if_neg (by decide))

end Reader

end MessageCatalog.Bytes
