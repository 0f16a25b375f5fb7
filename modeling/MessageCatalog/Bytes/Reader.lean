import MessageCatalog.Error

/-! Bounds-checked reads of 32-bit words and byte ranges from a buffer.

Offsets and lengths are 64-bit, and a range is inside a buffer only if its end, counted without
wrapping around, is. -/

namespace MessageCatalog.Bytes

inductive ByteOrder where
  | little
  | big
deriving DecidableEq, Repr, Inhabited

namespace ByteOrder

/-- The number that `bytes` write. -/
def value : ByteOrder → List UInt8 → Nat
  | little, bytes => bytes.foldr (fun b acc => b.toNat + 256 * acc) 0
  | big, bytes => bytes.foldl (fun acc b => 256 * acc + b.toNat) 0

/-- The four bytes of `word`. -/
def bytes (order : ByteOrder) (word : UInt32) : List UInt8 :=
  let n := word.toNat
  let little := [n, n / 0x100, n / 0x10000, n / 0x1000000].map UInt8.ofNat
  match order with
  | .little => little
  | .big => little.reverse

theorem length_bytes (order : ByteOrder) (word : UInt32) : (order.bytes word).length = 4 := by
  cases order <;> rfl

theorem value_bytes (order : ByteOrder) (word : UInt32) :
    order.value (order.bytes word) = word.toNat := by
  have := word.toNat_lt
  cases order <;> simp [value, bytes] <;> omega

/-- Turning the bytes round changes the order that they are in. -/
theorem value_reverse (bytes : List UInt8) : big.value bytes.reverse = little.value bytes := by
  simp [value, Nat.add_comm]

end ByteOrder

/-- The sum, unless it leaves 64 bits. -/
def checkedAdd (a b : UInt64) : Option UInt64 :=
  if a.toNat + b.toNat < UInt64.size then some (a + b) else none

/-- The product, unless it leaves 64 bits. -/
def checkedMul (a b : UInt64) : Option UInt64 :=
  if a.toNat * b.toNat < UInt64.size then some (a * b) else none

theorem toNat_of_checkedAdd {a b c : UInt64} (h : checkedAdd a b = some c) :
    c.toNat = a.toNat + b.toNat := by
  simp only [checkedAdd, UInt64.size] at h
  split at h
  · cases h
    rw [UInt64.toNat_add]
    omega
  · cases h

theorem toNat_of_checkedMul {a b c : UInt64} (h : checkedMul a b = some c) :
    c.toNat = a.toNat * b.toNat := by
  simp only [checkedMul, UInt64.size] at h
  split at h
  · cases h
    rw [UInt64.toNat_mul]
    omega
  · cases h

inductive ReadError where
  | outOfBounds (offset length : UInt64) (size : Nat)
  /-- The word at `offset`, which gives the size `what`, has its sign bit set. -/
  | negative (what : String) (offset : UInt64) (value : Int32)
deriving DecidableEq, Repr

def ReadError.toError : ReadError → Error
  | outOfBounds offset length size => .outOfBounds offset.toNat length.toNat size
  | negative what offset value =>
      .catalogFormat s!"{what} at byte {offset.toNat} is negative ({value.toInt})"

structure Reader where
  data : Array UInt8
  order : ByteOrder

namespace Reader

def size (r : Reader) : Nat :=
  r.data.size

def isEmpty (r : Reader) : Bool :=
  r.data.isEmpty

/-- The `length` bytes from `offset` on. -/
def readBytes (r : Reader) (offset length : UInt64) : Except ReadError (List UInt8) :=
  match checkedAdd offset length with
  | some stop =>
      if stop.toNat ≤ r.data.size then .ok (r.data.extract offset.toNat stop.toNat).toList
      else .error (.outOfBounds offset length r.data.size)
  | none => .error (.outOfBounds offset length r.data.size)

/-- A range is read exactly if it ends inside the buffer. The buffer itself is smaller than the space
of offsets. -/
theorem readBytes_eq_ok_iff {r : Reader} {offset length : UInt64} {bs : List UInt8}
    (h : r.size < UInt64.size) :
    r.readBytes offset length = .ok bs ↔
      offset.toNat + length.toNat ≤ r.size ∧
        bs = (r.data.extract offset.toNat (offset.toNat + length.toNat)).toList := by
  simp only [readBytes]
  cases hc : checkedAdd offset length with
  | none =>
      have : ¬ offset.toNat + length.toNat < UInt64.size := by
        intro hlt
        rw [checkedAdd, if_pos hlt] at hc
        cases hc
      simp only [reduceCtorEq, false_iff, not_and]
      intro hle
      omega
  | some stop =>
      rw [← toNat_of_checkedAdd hc]
      by_cases hs : stop.toNat ≤ r.data.size
      · simp [hs, size, eq_comm]
      · simp [hs, size]

def readWord (r : Reader) (offset : UInt64) : Except ReadError UInt32 := do
  return UInt32.ofNat (r.order.value (← r.readBytes offset 4))

/-- The word at `offset` in two's complement. -/
def readInt (r : Reader) (offset : UInt64) : Except ReadError Int32 := do
  return (← r.readWord offset).toInt32

/-- The word at `offset` as a size called `what` in errors. -/
def readSize (r : Reader) (offset : UInt64) (what : String) : Except ReadError UInt64 := do
  let value ← r.readInt offset
  if value < 0 then throw (.negative what offset value) else return UInt64.ofNat value.toNatClampNeg

end Reader

end MessageCatalog.Bytes
