import MessageCatalog.Bytes.Reader
import Mathlib.Order.Basic

/-! # Words of a buffer

Each read is described by the number that four bytes of the buffer write, with ends of ranges
counted in unbounded arithmetic. -/

namespace MessageCatalog.Bytes

namespace ByteOrder

/-- The unsigned number that the four bytes from `offset` on write. -/
def wordAt (order : ByteOrder) (data : Array UInt8) (offset : Nat) : Nat :=
  order.value (data.extract offset (offset + 4)).toList

theorem value_lt (order : ByteOrder) {a b c d : UInt8} :
    order.value [a, b, c, d] < UInt32.size := by
  have ha := a.toNat_lt
  have hb := b.toNat_lt
  have hc := c.toNat_lt
  have hd := d.toNat_lt
  cases order <;>
    simp only [value, List.foldr_cons, List.foldr_nil, List.foldl_cons, List.foldl_nil,
      UInt32.size] <;>
    omega

end ByteOrder

theorem exists_bytes_of_length_four {bs : List UInt8} (h : bs.length = 4) :
    ∃ a b c d, bs = [a, b, c, d] := by
  match bs, h with
  | [a, b, c, d], _ => exact ⟨a, b, c, d, rfl⟩

theorem length_extract_four {data : Array UInt8} {offset : Nat} (h : offset + 4 ≤ data.size) :
    (data.extract offset (offset + 4)).toList.length = 4 := by
  rw [Array.length_toList, Array.size_extract]
  omega

theorem ByteOrder.wordAt_lt {order : ByteOrder} {data : Array UInt8} {offset : Nat}
    (h : offset + 4 ≤ data.size) : order.wordAt data offset < UInt32.size := by
  obtain ⟨a, b, c, d, hb⟩ := exists_bytes_of_length_four (length_extract_four h)
  rw [wordAt, hb]
  exact order.value_lt

/-- Four bytes write the number of a word exactly if they are the bytes of that word. -/
theorem ByteOrder.value_eq_toNat_iff {order : ByteOrder} {bs : List UInt8} (h : bs.length = 4)
    (word : UInt32) : order.value bs = word.toNat ↔ bs = order.bytes word := by
  constructor
  · intro hv
    obtain ⟨a, b, c, d, rfl⟩ := exists_bytes_of_length_four h
    have ha := a.toNat_lt
    have hb := b.toNat_lt
    have hc := c.toNat_lt
    have hd := d.toNat_lt
    cases order <;>
      simp only [value, List.foldr_cons, List.foldr_nil, List.foldl_cons, List.foldl_nil] at hv <;>
      simp only [bytes, List.map_cons, List.map_nil, List.reverse_cons, List.reverse_nil,
        List.nil_append, List.cons_append, List.cons.injEq, and_true, ← UInt8.toNat_inj,
        UInt8.toNat_ofNat'] <;>
      omega
  · rintro rfl
    exact order.value_bytes word

/-- The value of a word in two's complement. -/
theorem toInt_toInt32 (word : UInt32) :
    word.toInt32.toInt =
      if word.toNat < 0x80000000 then (word.toNat : Int) else word.toNat - 0x100000000 := by
  have h := BitVec.toInt_eq_toNat_cond word.toBitVec
  rw [UInt32.toNat_toBitVec] at h
  change word.toBitVec.toInt = _
  rw [h]
  split <;> split <;> omega

/-- Below the sign bit a word is its own value. -/
theorem toInt_toInt32_eq_natCast_iff {word : UInt32} {k : Nat} :
    word.toInt32.toInt = k ↔ word.toNat = k ∧ k < 0x80000000 := by
  have := word.toNat_lt
  rw [toInt_toInt32]
  split <;> omega

namespace Reader

variable {r : Reader} {offset length : UInt64}

/-- A range whose end is no wrapped number is read exactly if it ends inside the buffer. -/
theorem readBytes_of_lt (h : offset.toNat + length.toNat < UInt64.size) (bs : List UInt8) :
    r.readBytes offset length = .ok bs ↔
      offset.toNat + length.toNat ≤ r.size ∧
        bs = (r.data.extract offset.toNat (offset.toNat + length.toNat)).toList := by
  have hc : checkedAdd offset length = some (offset + length) := if_pos h
  have hn := toNat_of_checkedAdd hc
  simp only [readBytes, hc, hn, size]
  by_cases hle : offset.toNat + length.toNat ≤ r.data.size
  · rw [if_pos hle, Except.ok.injEq, eq_comm]
    exact (and_iff_right hle).symm
  · rw [if_neg hle]
    exact iff_of_false (by simp) fun h => hle h.1

/-- A range that does not end inside the buffer is not read, also where its end wraps round. -/
theorem readBytes_eq_error (h : r.size < offset.toNat + length.toNat) :
    r.readBytes offset length = .error (.outOfBounds offset length r.size) := by
  cases hc : checkedAdd offset length with
  | none => simp only [readBytes, hc, size]
  | some stop =>
      have hs : ¬ stop.toNat ≤ r.data.size := by
        rw [toNat_of_checkedAdd hc]
        exact Nat.not_le.mpr h
      simp only [readBytes, hc, if_neg hs, size]

theorem length_of_readBytes {bs : List UInt8} (h : r.readBytes offset length = .ok bs) :
    bs.length = length.toNat := by
  cases hc : checkedAdd offset length with
  | none => simp [readBytes, hc] at h
  | some stop =>
      have hstop := toNat_of_checkedAdd hc
      simp only [readBytes, hc] at h
      split at h
      case isTrue hle =>
        obtain rfl := Except.ok.inj h
        rw [Array.length_toList, Array.size_extract]
        omega
      case isFalse => cases h

/-- A word is read exactly where its bytes stand. -/
theorem readWord_eq_ok_iff_readBytes {word : UInt32} :
    r.readWord offset = .ok word ↔ r.readBytes offset 4 = .ok (r.order.bytes word) := by
  cases hr : r.readBytes offset 4 with
  | error e => simp [readWord, hr, bind, Except.bind]
  | ok bs =>
      have hlen : bs.length = 4 := length_of_readBytes hr
      have hlt : r.order.value bs < UInt32.size := by
        obtain ⟨a, b, c, d, rfl⟩ := exists_bytes_of_length_four hlen
        exact r.order.value_lt
      rw [readWord, hr]
      change Except.ok (UInt32.ofNat (r.order.value bs)) = .ok word ↔ _
      rw [Except.ok.injEq, Except.ok.injEq, ← UInt32.toNat_inj, UInt32.toNat_ofNat_of_lt' hlt,
        ByteOrder.value_eq_toNat_iff hlen]

theorem readWord_eq_error_iff {e : ReadError} :
    r.readWord offset = .error e ↔ r.readBytes offset 4 = .error e := by
  cases hr : r.readBytes offset 4 <;> simp [readWord, hr, bind, Except.bind, pure, Except.pure]

theorem readWord_eq_error (h : r.size < offset.toNat + 4) :
    r.readWord offset = .error (.outOfBounds offset 4 r.size) :=
  readWord_eq_error_iff.mpr (readBytes_eq_error h)

theorem readWord_eq_ok_iff (h : offset.toNat + 4 < UInt64.size) (word : UInt32) :
    r.readWord offset = .ok word ↔
      offset.toNat + 4 ≤ r.size ∧ word.toNat = r.order.wordAt r.data offset.toNat := by
  have hread : ∀ bs, r.readBytes offset 4 = .ok bs ↔ offset.toNat + 4 ≤ r.size ∧
      bs = (r.data.extract offset.toNat (offset.toNat + 4)).toList := readBytes_of_lt h
  rw [readWord_eq_ok_iff_readBytes, hread]
  apply and_congr_right
  intro hle
  rw [eq_comm, ← ByteOrder.value_eq_toNat_iff (length_extract_four hle), eq_comm]
  rfl

theorem exists_readWord (h : offset.toNat + 4 < UInt64.size) (hin : offset.toNat + 4 ≤ r.size) :
    ∃ word, r.readWord offset = .ok word :=
  ⟨_, (readWord_eq_ok_iff h (.ofNat (r.order.wordAt r.data offset.toNat))).mpr
    ⟨hin, UInt32.toNat_ofNat_of_lt' (ByteOrder.wordAt_lt hin)⟩⟩

theorem readInt_eq_ok_iff {k : Int32} :
    r.readInt offset = .ok k ↔ ∃ word, r.readWord offset = .ok word ∧ word.toInt32 = k := by
  cases hw : r.readWord offset with
  | ok word => simp [readInt, hw, bind, Except.bind, pure, Except.pure]
  | error e => simp [readInt, hw, bind, Except.bind]

theorem readInt_eq_error (h : r.size < offset.toNat + 4) :
    r.readInt offset = .error (.outOfBounds offset 4 r.size) := by
  rw [readInt, readWord_eq_error h]
  rfl

theorem readSize_of_readInt {what : String} {value : Int32} (h : r.readInt offset = .ok value) :
    r.readSize offset what =
      if value.toInt < 0 then .error (.negative what offset value)
      else .ok (.ofNat value.toInt.toNat) := by
  simp only [readSize, h, bind, Except.bind, Int32.lt_iff_toInt_lt, Int32.toInt_zero]
  rfl

/-- A size is read exactly from a number that is not negative. -/
theorem readSize_eq_ok_iff_readInt {what : String} {k : UInt64} :
    r.readSize offset what = .ok k ↔
      ∃ value, r.readInt offset = .ok value ∧ value.toInt = k.toNat := by
  cases hi : r.readInt offset with
  | error e => simp [readSize, hi, bind, Except.bind]
  | ok value =>
      have hlt := value.toInt_lt
      rw [readSize_of_readInt hi]
      simp only [Except.ok.injEq, exists_eq_left']
      split
      case isTrue hneg => exact iff_of_false (fun h => by cases h) (by omega)
      case isFalse hneg =>
        rw [Except.ok.injEq, ← UInt64.toNat_inj,
          UInt64.toNat_ofNat_of_lt' (by simp only [UInt64.size]; omega)]
        omega

/-- A size is read exactly from a word of the buffer without a sign bit. -/
theorem readSize_eq_ok_iff (h : offset.toNat + 4 < UInt64.size) {what : String} {k : UInt64} :
    r.readSize offset what = .ok k ↔
      offset.toNat + 4 ≤ r.size ∧ r.order.wordAt r.data offset.toNat = k.toNat ∧
        k.toNat < 0x80000000 := by
  simp only [readSize_eq_ok_iff_readInt, readInt_eq_ok_iff]
  constructor
  · intro hx
    obtain ⟨_, ⟨word, hw, rfl⟩, hk⟩ := hx
    obtain ⟨hle, hv⟩ := (readWord_eq_ok_iff h word).mp hw
    obtain ⟨hk, hlt⟩ := toInt_toInt32_eq_natCast_iff.mp hk
    exact ⟨hle, hv.symm.trans hk, hlt⟩
  · intro hx
    obtain ⟨hle, hk, hlt⟩ := hx
    have hword : (UInt32.ofNat k.toNat).toNat = k.toNat :=
      UInt32.toNat_ofNat_of_lt' (by simp only [UInt32.size]; omega)
    have hw := (readWord_eq_ok_iff h (.ofNat k.toNat)).mpr ⟨hle, hword.trans hk.symm⟩
    exact ⟨_, ⟨_, hw, rfl⟩, toInt_toInt32_eq_natCast_iff.mpr ⟨hword, hlt⟩⟩

theorem readSize_eq_error {what : String} (h : r.size < offset.toNat + 4) :
    r.readSize offset what = .error (.outOfBounds offset 4 r.size) := by
  rw [readSize, readInt_eq_error h]
  rfl

/-- A word inside the buffer is no size only for its sign. -/
theorem exists_negative_of_readSize_eq_error {what : String} {e : ReadError}
    (h : offset.toNat + 4 < UInt64.size) (hin : offset.toNat + 4 ≤ r.size)
    (he : r.readSize offset what = .error e) : ∃ value, e = .negative what offset value := by
  obtain ⟨word, hw⟩ := exists_readWord h hin
  rw [readSize_of_readInt (readInt_eq_ok_iff.mpr ⟨_, hw, rfl⟩)] at he
  split at he
  · cases he
    exact ⟨_, rfl⟩
  · cases he

end Reader

end MessageCatalog.Bytes
