import MessageCatalog.Proofs.Catalog.Sorted
import MessageCatalog.Proofs.Catalog.Table

/-! # Well-formed containers

What makes a buffer a catalog, whatever its header says, in unbounded arithmetic on the bytes of the
buffer, and what the single steps of a load decide about it. -/

namespace MessageCatalog.Layout

open Bytes Header Plural Fallible

/-! ## Contents of a buffer -/

section

variable (order : ByteOrder) (data : Array UInt8)

/-- The number of entries that the buffer announces. -/
def entryCount : Nat :=
  order.wordAt data 8

/-- Where the buffer says that the table starts. -/
def tableStart (table : Table) : Nat :=
  order.wordAt data table.field.toNat

/-- The ends of the strings of the table, in the order of the entries. -/
def tableEnds (table : Table) : List (Nat × Nat) :=
  (List.range (entryCount order data)).map (entryEnds order data (tableStart order data table))

/-- The bytes between two offsets. -/
def bytesBetween (ends : Nat × Nat) : List UInt8 :=
  (data.extract ends.1 ends.2).toList

/-- The string of entry `i` of the table. -/
def stringAt (table : Table) (i : Nat) : List UInt8 :=
  bytesBetween data (entryEnds order data (tableStart order data table) i)

/-- The header, with a replacement for what is not UTF-8. -/
def headerText : String :=
  .ofList (Text.decodeLossy (stringAt order data .msgstrs 0))

end

/-- A buffer that holds a catalog in the given byte order, whatever its header says. -/
structure WellFormed (settings : Settings) (order : ByteOrder) (data : Array UInt8) : Prop where
  size_le : 20 ≤ data.size
  magic : (data.extract 0 4).toList = order.bytes magic
  accepted : order = .big → settings.acceptBigEndian = true
  revision : order.wordAt data 4 = 0
  count_pos : 1 ≤ entryCount order data
  count_lt : entryCount order data < 0x80000000
  tables : ∀ table, TableFits order data (tableStart order data table) (entryCount order data)
  nonempty : settings.verifySortOrder = true →
    ∀ i, 1 ≤ i → i < entryCount order data → leading (stringAt order data .msgids i) ≠ []
  sorted : settings.verifySortOrder = true →
    ∀ i j, 1 ≤ i → i < j → j < entryCount order data →
      leading (stringAt order data .msgids i) ≤ leading (stringAt order data .msgids j)

theorem bytes_magic_injective {order order' : ByteOrder}
    (h : order.bytes magic = order'.bytes magic) : order = order' := by
  revert h
  cases order <;> cases order' <;> decide

/-- The magic number tells the byte order. -/
theorem WellFormed.order_eq {s s' : Settings} {order order' : ByteOrder} {data : Array UInt8}
    (h : WellFormed s order data) (h' : WellFormed s' order' data) : order = order' :=
  bytes_magic_injective (h.magic.symm.trans h'.magic)

/-- The header has no plural rule, a blank one, or one that compiles. -/
def RuleCompiles (settings : Settings) (header : String) : Prop :=
  ∀ source, pluralSource? header = some source →
    (∀ c ∈ source.toList, Text.isBlank c) ∨
      ∃ e, Expr.parseWithin settings.maxExpressionDepth.toNat source = .ok e

/-! ## The steps of a load -/

theorem bytes_swappedMagic : ByteOrder.little.bytes swappedMagic = ByteOrder.big.bytes magic := by
  decide

theorem byteOrder_eq_ok_iff {settings : Settings} {data : Array UInt8} {order : ByteOrder}
    (h : 4 ≤ data.size) :
    byteOrder settings data = .ok order ↔
      (data.extract 0 4).toList = order.bytes magic ∧
        (order = .big → settings.acceptBigEndian = true) := by
  have hlen : (data.extract 0 4).toList.length = 4 := length_extract_four (by omega)
  have hlt : ByteOrder.little.wordAt data 0 < UInt32.size := ByteOrder.wordAt_lt (by omega)
  obtain ⟨word, hv⟩ : ∃ word : UInt32, word.toNat = ByteOrder.little.wordAt data 0 :=
    ⟨.ofNat _, UInt32.toNat_ofNat_of_lt' hlt⟩
  have hw : Reader.readWord ⟨data, .little⟩ 0 = .ok word :=
    (Reader.readWord_eq_ok_iff (by decide) word).mpr ⟨h, hv⟩
  have hbytes (other : UInt32) :
      word = other ↔ (data.extract 0 4).toList = ByteOrder.little.bytes other := by
    rw [← ByteOrder.value_eq_toNat_iff hlen, ← UInt32.toNat_inj, hv]
    rfl
  simp only [byteOrder, hw, mapError_ok, bind, Except.bind]
  by_cases hm : word = magic
  · rw [if_pos hm]
    cases order with
    | little => simpa [pure, Except.pure] using (hbytes _).mp hm
    | big =>
        have hne : magic ≠ swappedMagic := by decide
        rw [← bytes_swappedMagic, ← hbytes, hm]
        simp [pure, Except.pure, hne]
  · rw [if_neg hm]
    cases order with
    | little =>
        rw [← hbytes]
        refine iff_of_false ?_ fun h => hm h.1
        split
        · split <;> simp [pure, Except.pure, throw, throwThe, MonadExceptOf.throw]
        · simp [throw, throwThe, MonadExceptOf.throw]
    | big =>
        rw [← bytes_swappedMagic, ← hbytes]
        by_cases hs : word = swappedMagic
        · by_cases ha : settings.acceptBigEndian = true
          · simp [hs, ha, pure, Except.pure]
          · simp [hs, ha, throw, throwThe, MonadExceptOf.throw]
        · simp [hs, throw, throwThe, MonadExceptOf.throw]

theorem revision_eq_ok_iff {data : Array UInt8} {order : ByteOrder} (h : 8 ≤ data.size) :
    Reader.readInt ⟨data, order⟩ 4 = .ok 0 ↔ order.wordAt data 4 = 0 := by
  rw [Reader.readInt_eq_ok_iff]
  constructor
  · intro hx
    rcases hx with ⟨word, hw, h0⟩
    have hv := ((Reader.readWord_eq_ok_iff (by decide) word).mp hw).2
    obtain rfl : word = 0 := by
      rw [← UInt32.toUInt32_toInt32 word, h0]
      rfl
    exact hv.symm
  · intro h0
    exact ⟨0, (Reader.readWord_eq_ok_iff (by decide) 0).mpr ⟨h, h0.symm⟩, rfl⟩

theorem size_eq_entryCount {order : ByteOrder} {data : Array UInt8} {table : Table}
    {spans : Array Span} (h : spans.toList.map Span.ends = tableEnds order data table) :
    spans.size = entryCount order data := by
  simpa [tableEnds] using congrArg List.length h

/-- Spans with the ends of a table are as many as its entries and spell its strings. -/
theorem bytesAt_eq_stringAt {order : ByteOrder} {data : Array UInt8} {table : Table}
    {spans : Array Span} (h : spans.toList.map Span.ends = tableEnds order data table) {i : Nat}
    (hi : i < entryCount order data) : Span.bytesAt data spans i = stringAt order data table i := by
  have hget := congrArg (·[i]?) h
  simp only [tableEnds, List.getElem?_map, List.getElem?_range hi, Option.map_some,
    Array.getElem?_toList] at hget
  obtain ⟨s, hs, he⟩ := Option.map_eq_some_iff.mp hget
  rw [Span.bytesAt, hs, Option.map_some, Option.getD_some]
  change bytesBetween data s.ends = _
  rw [he, stringAt]

theorem map_bytes_eq {order : ByteOrder} {data : Array UInt8} {table : Table}
    {spans : Array Span} (h : spans.toList.map Span.ends = tableEnds order data table) :
    spans.toList.map (Span.bytes data) =
      (List.range (entryCount order data)).map (stringAt order data table) := by
  calc
    spans.toList.map (Span.bytes data) =
        (spans.toList.map Span.ends).map (bytesBetween data) := by
      rw [List.map_map]
      rfl
    _ = (List.range (entryCount order data)).map (stringAt order data table) := by
      rw [h, tableEnds, List.map_map]
      rfl

/-- The ends of spans determine the spans. -/
theorem eq_of_map_ends {spans spans' : Array Span}
    (h : spans.toList.map Span.ends = spans'.toList.map Span.ends) : spans = spans' := by
  have hinj : Function.Injective Span.ends := by
    intro s t he
    obtain ⟨hstart, hstop⟩ := Prod.mk.inj he
    cases s
    cases t
    simp_all [UInt64.toNat_inj]
  exact Array.toList_inj.mp (List.map_injective_iff.mpr hinj h)

/-- The entries of a list of values from the second on are in order exactly if the values are at
every two indices. -/
theorem ordered_drop_iff {f : Nat → List UInt8} {count : Nat} :
    Ordered (((List.range count).map f).drop 1) ↔
      (∀ i, 1 ≤ i → i < count → leading (f i) ≠ []) ∧
        ∀ i j, 1 ≤ i → i < j → j < count → leading (f i) ≤ leading (f j) := by
  have hdrop : ((List.range count).map f).drop 1 = (List.range' 1 (count - 1)).map f := by
    rw [List.range_eq_range', ← List.map_drop, List.drop_range']
  rw [hdrop]
  constructor
  · intro hx
    rcases hx with ⟨hne, hs⟩
    constructor
    · intro i hi hlt
      exact hne (f i) (List.mem_map.mpr ⟨i, List.mem_range'_1.mpr ⟨hi, by omega⟩, rfl⟩)
    · intro i j hi hij hj
      have h := List.pairwise_iff_getElem.mp hs (i - 1) (j - 1) (by simp; omega) (by simp; omega)
        (by omega)
      simp only [List.getElem_map, List.getElem_range'] at h
      rwa [show 1 + 1 * (i - 1) = i by omega, show 1 + 1 * (j - 1) = j by omega] at h
  · intro hx
    rcases hx with ⟨hne, hs⟩
    constructor
    · intro key hkey
      obtain ⟨i, hi, rfl⟩ := List.mem_map.mp hkey
      have hi := List.mem_range'_1.mp hi
      exact hne i hi.1 (by omega)
    · rw [List.pairwise_map]
      have hlt : (List.range' 1 (count - 1)).Pairwise (· < ·) := List.pairwise_lt_range'
      refine hlt.imp_of_mem ?_
      intro i j hi hj hij
      have hi := List.mem_range'_1.mp hi
      have hj := List.mem_range'_1.mp hj
      exact hs i j hi.1 hij (by omega)

end MessageCatalog.Layout
