import MessageCatalog.Catalog.Layout
import MessageCatalog.Proofs.Bytes.Words
import MessageCatalog.Proofs.Fallible

/-! # Tables of a catalog

What the tables of a buffer say, in unbounded arithmetic, and that reading a table finds exactly
that. -/

namespace MessageCatalog

open Bytes Fallible

/-- The ends of a span as plain numbers. -/
def Span.ends (s : Span) : Nat × Nat :=
  (s.start.toNat, s.stop.toNat)

namespace Layout

section

variable (order : ByteOrder) (data : Array UInt8)

/-- The length that entry `i` of the table at `start` gives. -/
def entryLength (start i : Nat) : Nat :=
  order.wordAt data (start + 8 * i)

/-- The offset that entry `i` of the table at `start` gives. -/
def entryOffset (start i : Nat) : Nat :=
  order.wordAt data (start + 8 * i + 4)

/-- Where the string of entry `i` starts and stops. -/
def entryEnds (start i : Nat) : Nat × Nat :=
  (entryOffset order data start i, entryOffset order data start i + entryLength order data start i)

/-- Neither number of the entry has a sign bit, and its string lies inside the buffer. -/
structure EntryFits (start i : Nat) : Prop where
  length_lt : entryLength order data start i < 0x80000000
  offset_lt : entryOffset order data start i < 0x80000000
  stop_le : entryOffset order data start i + entryLength order data start i ≤ data.size

/-- A table of `count` entries at `start` that lies inside the buffer, with all of its strings. -/
structure TableFits (start count : Nat) : Prop where
  start_lt : start < 0x80000000
  stop_le : start + 8 * count ≤ data.size
  entries : ∀ i < count, EntryFits order data start i

end

/-- A table that fits is described by an array of spans. -/
theorem TableFits.exists_spans {order : ByteOrder} {data : Array UInt8} {start count : Nat}
    (h : TableFits order data start count) :
    ∃ spans : Array Span,
      spans.toList.map Span.ends = (List.range count).map (entryEnds order data start) := by
  let span (ends : Nat × Nat) : Span := ⟨.ofNat ends.1, .ofNat ends.2⟩
  refine ⟨(((List.range count).map (entryEnds order data start)).map span).toArray, ?_⟩
  rw [List.map_map, List.map_map]
  apply List.map_congr_left
  intro i hi
  have hfit := h.entries i (List.mem_range.mp hi)
  have hl := hfit.length_lt
  have ho := hfit.offset_lt
  apply Prod.ext <;> apply UInt64.toNat_ofNat_of_lt' <;> simp only [entryEnds, UInt64.size] <;>
    omega

variable {r : Reader} {table : Table}

theorem exists_toNat_eq {k : Nat} (h : k < UInt64.size) : ∃ word : UInt64, word.toNat = k :=
  ⟨.ofNat k, UInt64.toNat_ofNat_of_lt' h⟩

theorem toNat_entry {start : UInt64} {i : Nat} (h : start.toNat + 8 * i < UInt64.size) :
    (start + UInt64.ofNat i * entrySize).toNat = start.toNat + 8 * i := by
  have h8 : entrySize.toNat = 8 := rfl
  simp only [UInt64.size] at h
  rw [UInt64.toNat_add, UInt64.toNat_mul, h8, UInt64.toNat_ofNat_of_lt' (by
    simp only [UInt64.size]; omega)]
  omega

/-- The last step of reading an entry: its string has to lie inside the buffer. -/
theorem checkEnds_eq_ok_iff {length offset : UInt64} {error : LoadError} {s : Span}
    (hl : length.toNat < 0x80000000) (ho : offset.toNat < 0x80000000) :
    (match r.readBytes offset length with
      | .ok _ => (.ok ⟨offset, offset + length⟩ : Except LoadError Span)
      | .error _ => .error error) = .ok s ↔
      offset.toNat + length.toNat ≤ r.size ∧
        s.ends = (offset.toNat, offset.toNat + length.toNat) := by
  have hlt : offset.toNat + length.toNat < UInt64.size := by
    simp only [UInt64.size]
    omega
  have hadd : (offset + length).toNat = offset.toNat + length.toNat := by
    rw [UInt64.toNat_add]
    exact Nat.mod_eq_of_lt hlt
  cases hr : r.readBytes offset length with
  | ok bs =>
      have hle := ((Reader.readBytes_of_lt hlt bs).mp hr).1
      obtain ⟨start, stop⟩ := s
      simp only [Except.ok.injEq, Span.mk.injEq, Span.ends, Prod.mk.injEq, ← UInt64.toNat_inj, hadd]
      exact ⟨fun h => ⟨hle, h.1.symm, h.2.symm⟩, fun h => ⟨h.2.1.symm, h.2.2.symm⟩⟩
  | error e =>
      refine iff_of_false (by simp) ?_
      intro hx
      rcases hx with ⟨hle, -⟩
      rw [(Reader.readBytes_of_lt hlt _).mpr ⟨hle, rfl⟩] at hr
      cases hr

/-- An entry that stands inside the buffer is read exactly if it fits. -/
theorem readEntry_eq_ok_iff {start : UInt64} {i : Nat} {s : Span}
    (h : start.toNat + 8 * i + 8 < UInt64.size) (hin : start.toNat + 8 * i + 8 ≤ r.size) :
    readEntry r table start i = .ok s ↔
      EntryFits r.order r.data start.toNat i ∧ s.ends = entryEnds r.order r.data start.toNat i := by
  have hentry : (start + UInt64.ofNat i * entrySize).toNat = start.toNat + 8 * i :=
    toNat_entry (by omega)
  have hnext : (start + UInt64.ofNat i * entrySize + 4).toNat = start.toNat + 8 * i + 4 := by
    rw [UInt64.toNat_add, hentry]
    exact Nat.mod_eq_of_lt (by simp only [UInt64.size] at h; simp; omega)
  have hin₁ : (start + UInt64.ofNat i * entrySize).toNat + 4 < UInt64.size := by omega
  have hin₂ : (start + UInt64.ofNat i * entrySize + 4).toNat + 4 < UInt64.size := by omega
  simp only [readEntry, bind_eq_ok_iff, mapError_eq_ok_iff, Reader.readSize_eq_ok_iff hin₁,
    Reader.readSize_eq_ok_iff hin₂, hentry, hnext]
  constructor
  · intro hx
    rcases hx with ⟨length, ⟨-, hl, hlt⟩, offset, ⟨-, ho, hot⟩, hend⟩
    obtain ⟨hle, hs⟩ := (checkEnds_eq_ok_iff hlt hot).mp hend
    refine ⟨⟨?_, ?_, ?_⟩, ?_⟩
    · rwa [entryLength, hl]
    · rwa [entryOffset, ho]
    · rw [entryLength, entryOffset, hl, ho]
      exact hle
    · rw [hs, entryEnds, entryLength, entryOffset, hl, ho]
  · intro hx
    rcases hx with ⟨⟨hlt, hot, hle⟩, hs⟩
    obtain ⟨length, hl⟩ := exists_toNat_eq (Nat.lt_trans hlt (by decide))
    obtain ⟨offset, ho⟩ := exists_toNat_eq (Nat.lt_trans hot (by decide))
    rw [entryEnds] at hs
    rw [← hl] at hlt hle hs
    rw [← ho] at hot hle hs
    exact ⟨length, ⟨by omega, hl.symm, hlt⟩, offset, ⟨by omega, ho.symm, hot⟩,
      (checkEnds_eq_ok_iff hlt hot).mpr ⟨hle, hs⟩⟩

/-- Entries read one after the other are the entries of the table. -/
theorem readEntries_eq_ok_iff {start : UInt64} {count : Nat} {spans : List Span}
    (h : start.toNat + 8 * count < UInt64.size) (hin : start.toNat + 8 * count ≤ r.size) :
    (List.range count).mapM (readEntry r table start) = .ok spans ↔
      (∀ i < count, EntryFits r.order r.data start.toNat i) ∧
        spans.map Span.ends = (List.range count).map (entryEnds r.order r.data start.toNat) := by
  have hentry : ∀ i ∈ List.range count, ∀ s, readEntry r table start i = .ok s ↔
      EntryFits r.order r.data start.toNat i ∧ entryEnds r.order r.data start.toNat i = s.ends := by
    intro i hi s
    have hi := List.mem_range.mp hi
    rw [readEntry_eq_ok_iff (by omega) (by omega), eq_comm (a := s.ends)]
  rw [mapM_eq_ok_iff hentry, List.forall₂_and_left, eq_comm (a := spans.map Span.ends),
    ← List.forall₂_eq_eq_eq, List.forall₂_map_left_iff, List.forall₂_map_right_iff]
  simp only [List.mem_range]

/-- A table is read exactly if it fits, and then its spans are those of its entries in order. -/
theorem readTable_eq_ok_iff {field count : UInt64} {spans : Array Span}
    (hfield : field.toNat + 4 < UInt64.size) (hin : field.toNat + 4 ≤ r.size)
    (hcount : 8 * count.toNat < 0x8000000000000000) :
    readTable r table field count = .ok spans ↔
      TableFits r.order r.data (r.order.wordAt r.data field.toNat) count.toNat ∧
        spans.toList.map Span.ends =
          (List.range count.toNat).map
            (entryEnds r.order r.data (r.order.wordAt r.data field.toNat)) := by
  have hmul : checkedMul count entrySize = some (count * entrySize) :=
    if_pos (by change count.toNat * 8 < 18446744073709551616; omega)
  have hlength : (count * entrySize).toNat = 8 * count.toNat := by
    rw [toNat_of_checkedMul hmul, Nat.mul_comm]
    rfl
  simp only [readTable, hmul, bind_eq_ok_iff, mapError_eq_ok_iff, Reader.readSize_eq_ok_iff hfield]
  constructor
  · intro h
    rcases h with ⟨start, ⟨-, hs, hlt⟩, bs, hbytes, entries, hentries, hspans⟩
    obtain rfl := Except.ok.inj hspans
    have hsum : start.toNat + (count * entrySize).toNat < UInt64.size := by
      simp only [UInt64.size]
      omega
    obtain ⟨hle, -⟩ := (Reader.readBytes_of_lt hsum bs).mp hbytes
    rw [hlength] at hsum hle
    obtain ⟨hfit, hends⟩ := (readEntries_eq_ok_iff hsum hle).mp hentries
    rw [hs]
    exact ⟨⟨hlt, hle, hfit⟩, hends⟩
  · intro h
    rcases h with ⟨⟨hlt, hle, hfit⟩, hends⟩
    obtain ⟨start, hs⟩ := exists_toNat_eq (Nat.lt_trans hlt (by decide))
    rw [← hs] at hlt hle hfit hends
    have hsum : start.toNat + (count * entrySize).toNat < UInt64.size := by
      simp only [UInt64.size]
      omega
    refine ⟨start, ⟨hin, hs.symm, hlt⟩, _,
      (Reader.readBytes_of_lt hsum _).mpr ⟨by rw [hlength]; exact hle, rfl⟩, spans.toList, ?_, rfl⟩
    rw [hlength] at hsum
    exact (readEntries_eq_ok_iff hsum hle).mpr ⟨hfit, hends⟩

end Layout

end MessageCatalog
