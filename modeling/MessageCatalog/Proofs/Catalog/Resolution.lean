import MessageCatalog.Proofs.Catalog.Table

/-! # Tables of any length

A table is resolved without a bound on the number of its entries. In a buffer that half of the
offsets can address, a count that is too large is refused before an entry is read, and from then on
no sum and no product leaves 64 bits. To say so, each of them is checked here, and the checks make no
difference.
-/

namespace MessageCatalog.Layout

open Bytes Fallible

variable {r : Reader} {table : Table} {start field count : UInt64} {i : Nat}

/-! ## Counts of any size -/

theorem entrySize_toNat : entrySize.toNat = 8 :=
  rfl

/-- What the check in front of the entries establishes. -/
theorem stop_le_of_readBytes {length : UInt64} {bs : List UInt8} (h : r.size < UInt64.size)
    (hc : checkedMul count entrySize = some length) (hb : r.readBytes start length = .ok bs) :
    start.toNat + 8 * count.toNat ≤ r.size := by
  have hle := ((Reader.readBytes_eq_ok_iff h).mp hb).1
  rwa [toNat_of_checkedMul hc, entrySize_toNat, Nat.mul_comm] at hle

/-- A table that the buffer has no room for is refused, however its length is written. -/
theorem readTable_ne_ok {spans : Array Span} (h : r.size < UInt64.size)
    (hcount : r.size < 8 * count.toNat) : readTable r table field count ≠ .ok spans := by
  intro hr
  simp only [readTable, bind_eq_ok_iff] at hr
  obtain ⟨start, -, hr⟩ := hr
  cases hc : checkedMul count entrySize with
  | none =>
      rw [hc] at hr
      cases hr
  | some length =>
      simp only [hc, bind_eq_ok_iff, mapError_eq_ok_iff] at hr
      obtain ⟨bs, hb, -⟩ := hr
      have hle := stop_le_of_readBytes h hc hb
      omega

theorem readTable_eq_ok_iff_of_size_lt {spans : Array Span} (h : r.size < 0x8000000000000000) :
    readTable r table field count = .ok spans ↔
      field.toNat + 4 ≤ r.size ∧
        TableFits r.order r.data (r.order.wordAt r.data field.toNat) count.toNat ∧
        spans.toList.map Span.ends =
          (List.range count.toNat).map
            (entryEnds r.order r.data (r.order.wordAt r.data field.toNat)) := by
  have hsize : r.size < UInt64.size := Nat.lt_trans h (by decide)
  by_cases hfield : field.toNat + 4 ≤ r.size
  · by_cases hcount : 8 * count.toNat < 0x8000000000000000
    · rw [readTable_eq_ok_iff (Nat.lt_of_le_of_lt hfield hsize) hfield hcount]
      exact (and_iff_right hfield).symm
    · refine iff_of_false (readTable_ne_ok hsize (by omega)) ?_
      intro hx
      have hstop : _ ≤ r.size := hx.2.1.stop_le
      omega
  · refine iff_of_false ?_ fun hx => hfield hx.1
    simp [readTable, Reader.readSize_eq_error (Nat.lt_of_not_le hfield), bind, Except.bind]

/-! ## Reads inside a table -/

/-- No entry of a table inside the buffer is itself read outside. -/
theorem readEntry_ne_outOfBounds (h : r.size < UInt64.size)
    (hin : start.toNat + 8 * count.toNat ≤ r.size) (hi : i < count.toNat)
    (offset length : UInt64) (size : Nat) :
    readEntry r table start i ≠ .error (.read (.outOfBounds offset length size)) := by
  have hentry : (start + UInt64.ofNat i * entrySize).toNat = start.toNat + 8 * i :=
    toNat_entry (by omega)
  have hnext : (start + UInt64.ofNat i * entrySize + 4).toNat = start.toNat + 8 * i + 4 := by
    rw [UInt64.toNat_add, hentry]
    exact Nat.mod_eq_of_lt (by simp only [UInt64.size] at h; simp; omega)
  intro hr
  simp only [readEntry, bind_eq_error_iff, mapError_eq_error_iff] at hr
  rcases hr with ⟨e, he, hread⟩ | ⟨_, -, ⟨e, he, hread⟩ | ⟨_, -, hr⟩⟩
  · obtain ⟨value, rfl⟩ := Reader.exists_negative_of_readSize_eq_error (by omega) (by omega) he
    cases hread
  · obtain ⟨value, rfl⟩ := Reader.exists_negative_of_readSize_eq_error (by omega) (by omega) he
    cases hread
  · split at hr <;> cases hr

/-! ## Checked arithmetic -/

/-- A step with its sums and products checked. It has no outcome where one of them leaves 64 bits. -/
abbrev Checked := ExceptT LoadError Option

/-- The step has the outcome `y`, so that none of its checks has failed. -/
def Unwrapped {α : Type} (x : Checked α) (y : Except LoadError α) : Prop :=
  x.run = some y

section

variable {α β : Type} {x : Checked α} {y : Except LoadError α}

theorem Unwrapped.bind {f : α → Checked β} {g : α → Except LoadError β} (hx : Unwrapped x y)
    (hf : ∀ a, y = .ok a → Unwrapped (f a) (g a)) : Unwrapped (x >>= f) (y >>= g) := by
  unfold Unwrapped at hx hf ⊢
  rw [ExceptT.run_bind, hx]
  cases y with
  | ok a => exact hf a rfl
  | error e => rfl

theorem unwrapped_pure (a : α) : Unwrapped (pure a) (.ok a) :=
  rfl

theorem unwrapped_liftExcept (y : Except LoadError α) : Unwrapped (liftExcept y) y := by
  cases y <;> rfl

/-- A check that is passed changes nothing. -/
theorem unwrapped_lift_bind {o : Option α} {a : α} {f : α → Checked β} {z : Except LoadError β}
    (ho : o = some a) (hf : Unwrapped (f a) z) : Unwrapped (liftM o >>= f) z := by
  subst ho
  exact hf

theorem Unwrapped.mapM {f : α → Checked β} {g : α → Except LoadError β} {xs : List α}
    (h : ∀ a ∈ xs, Unwrapped (f a) (g a)) : Unwrapped (xs.mapM f) (xs.mapM g) := by
  induction xs with
  | nil => exact unwrapped_pure []
  | cons a xs ih =>
      rw [List.mapM_cons, List.mapM_cons]
      refine (h a (by simp)).bind ?_
      intro b _
      refine (ih fun a ha => h a (by simp [ha])).bind ?_
      intro bs _
      exact unwrapped_pure (b :: bs)

end

/-- Entry `index` of a table that starts at `start`. -/
def readEntryChecked (r : Reader) (table : Table) (start : UInt64) (index : Nat) :
    Checked Span := do
  let distance ← checkedMul (UInt64.ofNat index) entrySize
  let entry ← checkedAdd start distance
  let length ← liftExcept ((r.readSize entry "string length").mapError LoadError.read)
  let next ← checkedAdd entry 4
  let offset ← liftExcept ((r.readSize next "string offset").mapError LoadError.read)
  match r.readBytes offset length with
  | .ok _ => return ⟨offset, ← checkedAdd offset length⟩
  | .error _ => throw (.outside table index length offset r.size)

/-- The first `count` entries of a table. -/
def readTableChecked (r : Reader) (table : Table) (field count : UInt64) :
    Checked (Array Span) := do
  let start ← liftExcept ((r.readSize field "table offset").mapError LoadError.read)
  match checkedMul count entrySize with
  | none => throw (.tableOverflow table)
  | some length =>
      let _ ← liftExcept ((r.readBytes start length).mapError LoadError.read)
      let spans ← (List.range count.toNat).mapM (readEntryChecked r table start)
      return spans.toArray

theorem checkedAdd_of_lt {a b : UInt64} (h : a.toNat + b.toNat < UInt64.size) :
    checkedAdd a b = some (a + b) :=
  if_pos h

theorem checkedMul_of_lt {a b : UInt64} (h : a.toNat * b.toNat < UInt64.size) :
    checkedMul a b = some (a * b) :=
  if_pos h

/-- In a table inside the buffer every number that an entry leads to fits into 64 bits. -/
theorem unwrapped_readEntry (h : r.size < UInt64.size)
    (hin : start.toNat + 8 * count.toNat ≤ r.size) (hi : i < count.toNat) :
    Unwrapped (readEntryChecked r table start i) (readEntry r table start i) := by
  have hcount := count.toNat_lt
  have hindex : (UInt64.ofNat i).toNat = i :=
    UInt64.toNat_ofNat_of_lt' (Nat.lt_trans hi hcount)
  have hmul : (UInt64.ofNat i).toNat * entrySize.toNat = 8 * i := by
    rw [hindex, entrySize_toNat, Nat.mul_comm]
  have hdistance := checkedMul_of_lt (a := UInt64.ofNat i) (b := entrySize) (by omega)
  have hadd : (UInt64.ofNat i * entrySize).toNat = 8 * i := by
    rw [toNat_of_checkedMul hdistance, hmul]
  have hentry := checkedAdd_of_lt (a := start) (b := UInt64.ofNat i * entrySize) (by omega)
  have hnat : (start + UInt64.ofNat i * entrySize).toNat = start.toNat + 8 * i := by
    rw [toNat_of_checkedAdd hentry, hadd]
  have hnext := checkedAdd_of_lt (a := start + UInt64.ofNat i * entrySize) (b := 4)
    (by rw [hnat]; change start.toNat + 8 * i + 4 < UInt64.size; omega)
  have hnat' : (start + UInt64.ofNat i * entrySize + 4).toNat = start.toNat + 8 * i + 4 := by
    rw [toNat_of_checkedAdd hnext, hnat]
    rfl
  refine unwrapped_lift_bind hdistance (unwrapped_lift_bind hentry ?_)
  refine (unwrapped_liftExcept _).bind ?_
  intro length hlength
  refine unwrapped_lift_bind hnext ((unwrapped_liftExcept _).bind ?_)
  intro offset hoffset
  have hl := ((Reader.readSize_eq_ok_iff (by omega)).mp (mapError_eq_ok_iff.mp hlength)).2.2
  have ho := ((Reader.readSize_eq_ok_iff (by omega)).mp (mapError_eq_ok_iff.mp hoffset)).2.2
  cases r.readBytes offset length with
  | error e => rfl
  | ok bs =>
      have hstop := checkedAdd_of_lt (a := offset) (b := length)
        (by simp only [UInt64.size]; omega)
      exact unwrapped_lift_bind hstop (unwrapped_pure _)

theorem unwrapped_readTable (h : r.size < UInt64.size) (table : Table) (field count : UInt64) :
    Unwrapped (readTableChecked r table field count) (readTable r table field count) := by
  refine (unwrapped_liftExcept _).bind ?_
  intro start _
  cases hc : checkedMul count entrySize with
  | none => rfl
  | some length =>
      refine (unwrapped_liftExcept _).bind ?_
      intro bs hb
      have hin := stop_le_of_readBytes h hc (mapError_eq_ok_iff.mp hb)
      have hentries : ∀ i ∈ List.range count.toNat,
          Unwrapped (readEntryChecked r table start i) (readEntry r table start i) := by
        intro i hi
        exact unwrapped_readEntry h hin (List.mem_range.mp hi)
      refine (Unwrapped.mapM hentries).bind ?_
      intro spans _
      exact unwrapped_pure spans.toArray

/-! ## Main statement -/

/-- Whatever the offset of its field and the number of its entries, a table is resolved exactly if it
fits into the buffer with all of its strings, and then to the ends of its strings in order. No sum and
no product on the way leaves 64 bits, and once the table is known to lie inside the buffer no number of
an entry is looked for outside. -/
theorem readTable_exact {r : Reader} (h : r.size < 0x8000000000000000) (table : Table)
    (field count : UInt64) :
    ((∃ spans, readTable r table field count = .ok spans) ↔
      field.toNat + 4 ≤ r.size ∧
        TableFits r.order r.data (r.order.wordAt r.data field.toNat) count.toNat) ∧
    (∀ spans, readTable r table field count = .ok spans →
      spans.toList.map Span.ends =
        (List.range count.toNat).map
          (entryEnds r.order r.data (r.order.wordAt r.data field.toNat))) ∧
    (readTableChecked r table field count).run = some (readTable r table field count) ∧
    ∀ start length bs, checkedMul count entrySize = some length →
      r.readBytes start length = .ok bs → ∀ i < count.toNat, ∀ offset length size,
        readEntry r table start i ≠ .error (.read (.outOfBounds offset length size)) := by
  have hsize : r.size < UInt64.size := Nat.lt_trans h (by decide)
  refine ⟨?_, ?_, unwrapped_readTable hsize table field count, ?_⟩
  · constructor
    · intro hr
      obtain ⟨spans, hr⟩ := hr
      have hspans := (readTable_eq_ok_iff_of_size_lt h).mp hr
      exact ⟨hspans.1, hspans.2.1⟩
    · intro hfit
      obtain ⟨spans, hends⟩ := hfit.2.exists_spans
      exact ⟨spans, (readTable_eq_ok_iff_of_size_lt h).mpr ⟨hfit.1, hfit.2, hends⟩⟩
  · intro spans hr
    exact ((readTable_eq_ok_iff_of_size_lt h).mp hr).2.2
  · intro start length bs hc hb i hi offset length size
    exact readEntry_ne_outOfBounds hsize (stop_le_of_readBytes hsize hc hb) hi offset length size

/-- A table of one entry at the fourth byte, and its string in the last two. -/
def oneEntry : Reader :=
  ⟨#[4, 0, 0, 0, 2, 0, 0, 0, 12, 0, 0, 0, 97, 98], .little⟩

/-- The last product that fits into 64 bits is refused as a length, and not for wrapping round. -/
theorem readTable_oneEntry :
    oneEntry.size < 0x8000000000000000 ∧
      readTable oneEntry .msgids 0 1 = .ok #[⟨12, 14⟩] ∧
      TableFits .little oneEntry.data 4 1 ∧
      (readTableChecked oneEntry .msgids 0 0x1fffffffffffffff).run =
        some (.error (.read (.outOfBounds 4 0xfffffffffffffff8 14))) := by
  have hsize : oneEntry.size < 0x8000000000000000 := by decide
  have hone : readTable oneEntry .msgids 0 1 = .ok #[⟨12, 14⟩] := by decide +kernel
  have hmany : readTable oneEntry .msgids 0 0x1fffffffffffffff =
      .error (.read (.outOfBounds 4 0xfffffffffffffff8 14)) := by decide +kernel
  refine ⟨hsize, hone, ((readTable_exact hsize .msgids 0 1).1.mp ⟨_, hone⟩).2, ?_⟩
  rw [(readTable_exact hsize .msgids 0 0x1fffffffffffffff).2.2.1, hmany]

end MessageCatalog.Layout
