import MessageCatalog.Proofs.Catalog.Image
import MessageCatalog.Proofs.Catalog.Lookup
import MessageCatalog.Proofs.Text.Utf8

/-! # Catalogs that are written and loaded

What a writer lays out in either byte order loads with the same strings, provided that they are in
order.
-/

namespace MessageCatalog

open Bytes Layout

namespace Writer

/-! ## Messages in order -/

def column (msgids msgstrs : List (List UInt8)) : Table → List (List UInt8)
  | .msgids => msgids
  | .msgstrs => msgstrs

section

variable {order : ByteOrder} {msgids msgstrs : List (List UInt8)} {settings : Settings}
  (hlen : msgstrs.length = msgids.length)
  (hsize : (image order msgids msgstrs).length < 0x80000000)

include hlen hsize

/-- The words in front of the tables. -/
theorem preamble_image :
    order.wordAt (image order msgids msgstrs).toArray 0 = magic.toNat ∧
      order.wordAt (image order msgids msgstrs).toArray 4 = 0 ∧
      entryCount order (image order msgids msgstrs).toArray = msgids.length ∧
      tableStart order (image order msgids msgstrs).toArray .msgids = 28 ∧
      tableStart order (image order msgids msgstrs).toArray .msgstrs = 28 + 8 * msgids.length := by
  have hcount : 28 + 16 * msgids.length < 0x80000000 := by
    rw [length_image hlen] at hsize
    omega
  have hword (j : Nat) {w : Nat} (h : (words msgids msgstrs)[j]? = some w) (hw : w < UInt32.size) :
      order.wordAt (image order msgids msgstrs).toArray (4 * j) = w :=
    wordAt_wordBytes h hw
  refine ⟨hword 0 rfl (by decide), hword 1 rfl (by decide), hword 2 rfl ?_, hword 3 rfl (by decide),
    hword 4 rfl ?_⟩
  · simp only [UInt32.size]
    omega
  · simp only [UInt32.size]
    omega

/-- Entry `i` of the table for the strings `part`, which stand behind the strings `front`. -/
theorem entry_image (front part back : List (List UInt8)) {i : Nat} {s : List UInt8}
    (hall : msgids ++ msgstrs = front ++ part ++ back) (h : part[i]? = some s) :
    EntryFits order (image order msgids msgstrs).toArray (28 + 8 * front.length) i ∧
      bytesBetween (image order msgids msgstrs).toArray
        (entryEnds order (image order msgids msgstrs).toArray (28 + 8 * front.length) i) = s := by
  have hi := (List.getElem?_eq_some_iff.mp h).1
  have hs : (msgids ++ msgstrs)[front.length + i]? = some s := by
    rw [hall, List.append_assoc, List.getElem?_append_right (Nat.le_add_right _ _),
      Nat.add_sub_cancel_left, List.getElem?_append_left hi, h]
  obtain ⟨o, hlength, hoffset, hfit, hbytes⟩ := string_image hlen hsize hs
  rw [show 28 + 8 * (front.length + i) = 28 + 8 * front.length + 8 * i by omega] at hlength hoffset
  refine ⟨⟨?_, ?_, ?_⟩, ?_⟩
  · rw [entryLength, hlength]
    omega
  · rw [entryOffset, hoffset]
    omega
  · rw [entryLength, entryOffset, hlength, hoffset, List.size_toArray]
    omega
  · rw [entryEnds, entryLength, entryOffset, hlength, hoffset, hbytes]

/-- Either table fits and holds its strings. -/
theorem table_image (table : Table) :
    TableFits order (image order msgids msgstrs).toArray
        (tableStart order (image order msgids msgstrs).toArray table) msgids.length ∧
      ∀ i s, (column msgids msgstrs table)[i]? = some s →
        stringAt order (image order msgids msgstrs).toArray table i = s := by
  obtain ⟨-, -, -, hids, hstrs⟩ := preamble_image hlen hsize
  have hbytes : (image order msgids msgstrs).length = _ := length_image hlen
  cases table with
  | msgids =>
      have hentry {i : Nat} {s : List UInt8} (h : msgids[i]? = some s) :=
        entry_image hlen hsize [] msgids msgstrs rfl h
      rw [hids]
      refine ⟨⟨by omega, ?_, ?_⟩, ?_⟩
      · rw [List.size_toArray]
        omega
      · intro i hi
        exact (hentry (List.getElem?_eq_getElem hi)).1
      · intro i s hs
        rw [stringAt, hids]
        exact (hentry hs).2
  | msgstrs =>
      have hentry {i : Nat} {s : List UInt8} (h : msgstrs[i]? = some s) :=
        entry_image hlen hsize msgids msgstrs [] (List.append_nil _).symm h
      rw [hstrs]
      refine ⟨⟨by omega, ?_, ?_⟩, ?_⟩
      · rw [List.size_toArray]
        omega
      · intro i hi
        exact (hentry (List.getElem?_eq_getElem (hlen ▸ hi))).1
      · intro i s hs
        rw [stringAt, hstrs]
        exact (hentry hs).2

theorem map_stringAt_image :
    (List.range (entryCount order (image order msgids msgstrs).toArray)).map
      (stringAt order (image order msgids msgstrs).toArray .msgids) = msgids := by
  obtain ⟨-, -, hcount, -⟩ := preamble_image hlen hsize
  rw [hcount]
  apply List.ext_getElem (by simp)
  intro i hi hi'
  rw [List.getElem_map, List.getElem_range]
  exact (table_image hlen hsize .msgids).2 i _ (List.getElem?_eq_getElem hi')

/-- A catalog that is written is well-formed as far as its settings let it be. -/
theorem wellFormed_image_iff (hpos : 0 < msgids.length) :
    WellFormed settings order (image order msgids msgstrs).toArray ↔
      (order = .big → settings.acceptBigEndian = true) ∧
        (settings.verifySortOrder = true → Ordered (msgids.drop 1)) := by
  obtain ⟨hmagic, hrevision, hcount, -⟩ := preamble_image hlen hsize
  have hbytes : (image order msgids msgstrs).length = _ := length_image hlen
  have hordered : Ordered (msgids.drop 1) ↔ _ := map_stringAt_image hlen hsize ▸ ordered_drop_iff
  constructor
  · intro h
    exact ⟨h.accepted, fun hv => hordered.mpr ⟨h.nonempty hv, h.sorted hv⟩⟩
  · rintro ⟨haccept, hsorted⟩
    have h20 : 20 ≤ (image order msgids msgstrs).toArray.size := by
      rw [List.size_toArray]
      omega
    refine ⟨h20, ?_, haccept, hrevision, by omega, by omega, ?_, ?_, ?_⟩
    · exact (ByteOrder.value_eq_toNat_iff (length_extract_four (by omega)) magic).mp hmagic
    · intro table
      rw [hcount]
      exact (table_image hlen hsize table).1
    · intro hv
      exact (hordered.mp (hsorted hv)).1
    · intro hv
      exact (hordered.mp (hsorted hv)).2

end

/-! ## Messages that are written and loaded -/

section

variable {order : ByteOrder} {header : String} {messages : List Message}

theorem write_eq_image (order : ByteOrder) (header : List UInt8) (messages : List Message) :
    write order header messages =
      image order ([] :: messages.map Message.msgid) (header :: messages.map Message.msgstr) :=
  rfl

theorem wellFormed_write_iff {settings : Settings} {header : List UInt8}
    (hsize : (write order header messages).length < 0x80000000) :
    WellFormed settings order (write order header messages).toArray ↔
      (order = .big → settings.acceptBigEndian = true) ∧
        (settings.verifySortOrder = true → Ordered (messages.map Message.msgid)) := by
  rw [write_eq_image] at hsize ⊢
  exact wellFormed_image_iff (by simp) hsize (by simp)

/-- With no messages behind the header there is nothing to be out of order. -/
theorem wellFormed_write_nil {header : List UInt8}
    (hsize : (write order header []).length < 0x80000000) :
    WellFormed {} order (write order header []).toArray :=
  (wellFormed_write_iff hsize).mpr ⟨fun _ => rfl, fun _ => ⟨by simp, by simp⟩⟩

theorem stringAt_write {header : List UInt8}
    (hsize : (write order header messages).length < 0x80000000) :
    stringAt order (write order header messages).toArray .msgstrs 0 = header := by
  rw [write_eq_image] at hsize ⊢
  exact (table_image (by simp) hsize .msgstrs).2 0 header rfl

theorem headerText_write (hsize : (write order (Text.encode header) messages).length < 0x80000000) :
    headerText order (write order (Text.encode header) messages).toArray = header := by
  rw [headerText, stringAt_write hsize, Text.decodeLossy_encode, String.ofList_toList]

variable (hrule : RuleCompiles {} header) (hne : ∀ m ∈ messages, leading m.msgid ≠ [])
  (hsize : (write order (Text.encode header) messages).length < 0x80000000)

end

def pluralHeader : String :=
  "Plural-Forms: nplurals=2; plural=n != 1;\n"

theorem ruleCompiles_pluralHeader : RuleCompiles {} pluralHeader := by
  intro source hs
  right
  have hsource : Header.pluralSource? pluralHeader = some "n != 1" := by decide +kernel
  obtain rfl := Option.some.inj (hsource.symm.trans hs)
  exact ⟨.binary .ne .count (.literal 1), by decide +kernel⟩

end Writer

end MessageCatalog
