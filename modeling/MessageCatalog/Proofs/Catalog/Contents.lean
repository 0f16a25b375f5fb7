import MessageCatalog.Proofs.Catalog.Bounds
import MessageCatalog.Proofs.Catalog.Settings

/-! # What answers depend on

Where a buffer keeps its tables and strings, in which byte order, and what else it holds has no
bearing on a query. Two catalogs whose slots hold the same bytes tell nobody which of them is asked.
-/

namespace MessageCatalog.Catalog

open Bytes Layout

/-- The slots of every entry hold the same bytes in both catalogs. A slot that does not exist holds
none. -/
def SameStrings (c d : Catalog) : Prop :=
  ∀ i, c.msgid i = d.msgid i ∧ c.msgstr i = d.msgstr i

/-! ## Catalogs that are alike -/

/-- All that queries go by. -/
structure Alike (c d : Catalog) : Prop where
  msgids_size : c.layout.msgids.size = d.layout.msgids.size
  msgstrs_size : c.layout.msgstrs.size = d.layout.msgstrs.size
  msgid : ∀ i, c.msgid i = d.msgid i
  msgstr : ∀ i, c.msgstr i = d.msgstr i
  metadata : c.metadata = d.metadata
  rule : c.rule = d.rule

namespace Alike

variable {c d : Catalog}

/-- A search sees of either catalog only the answers to its probes, and these are the same. -/
theorem findBy_eq (h : Alike c d) (s : (Nat → Ordering) → Nat → Nat → Option Nat)
    (msgid : List UInt8) : c.findBy s msgid = d.findBy s msgid := by
  have hempty : c.layout.msgstrs.isEmpty = d.layout.msgstrs.isEmpty := by
    simp only [Array.isEmpty, h.msgstrs_size]
  simp only [findBy, hempty, h.msgids_size, h.msgid]

theorem cluster?_eq (h : Alike c d) (msgid : List UInt8) : c.cluster? msgid = d.cluster? msgid := by
  simp only [cluster?, ← findBy_search, h.findBy_eq, h.msgstr]

theorem headerBytes_eq (h : Alike c d) : c.headerBytes = d.headerBytes :=
  h.msgstr 0

theorem found?_eq (h : Alike c d) (q : Query) : c.found? q = d.found? q := by
  rw [found?, found?]
  cases q.msgid? with
  | none => rw [h.headerBytes_eq]
  | some msgid => exact h.cluster?_eq msgid

theorem answer_eq (h : Alike c d) (q : Query) : c.answer q = d.answer q := by
  rw [Catalog.answer_eq, Catalog.answer_eq, h.rule, h.found?_eq]

end Alike

/-! ## Catalogs that are loaded -/

variable {s s' : Settings} {data data' : Array UInt8} {c d : Catalog}

theorem header_eq_headerText (h : loadWith s data = .ok c) :
    c.header = headerText c.layout.order data := by
  obtain ⟨rfl, hl⟩ := layout_of_loadWith h
  obtain ⟨hw, -, hstrs, -⟩ := load_eq_ok_iff.mp hl
  rw [header, headerText, headerBytes, msgstr, bytesAt_eq_stringAt hstrs hw.count_pos]

/-- Metadata and rule come from the header alone. -/
theorem header_of_loadWith (h : loadWith s data = .ok c) :
    c.metadata = .parse c.header ∧ ruleOfHeader s c.header = .ok c.rule := by
  rw [header_eq_headerText h]
  exact (load_eq_ok_iff.mp (layout_of_loadWith h).2).2.2.2

theorem msgids_size_pos (h : loadWith s data = .ok c) : 1 ≤ c.layout.msgids.size := by
  obtain ⟨hw, hids, -⟩ := load_eq_ok_iff.mp (layout_of_loadWith h).2
  rw [size_eq_entryCount hids]
  exact hw.count_pos

theorem msgid_of_size_le {i : Nat} (h : c.layout.msgids.size ≤ i) : c.msgid i = [] := by
  simp [msgid, Span.bytesAt, Array.getElem?_eq_none h]

/-- Every entry behind the header has a msgid that is not empty, which shows where the entries end. -/
theorem SameStrings.size_le (hsame : c.SameStrings d) (h : loadWith s data = .ok c)
    (h' : loadWith s' data' = .ok d) (hv' : s'.verifySortOrder = true) :
    d.layout.msgids.size ≤ c.layout.msgids.size := by
  by_contra hlt
  have hne := leading_ne_nil_of_loadWith h' hv' (msgids_size_pos h) (Nat.not_le.mp hlt)
  rw [← (hsame _).1, msgid_of_size_le (Nat.le_refl _)] at hne
  exact hne rfl

theorem SameStrings.symm (hsame : c.SameStrings d) : d.SameStrings c :=
  fun i => ⟨(hsame i).1.symm, (hsame i).2.symm⟩

theorem SameStrings.alike (hsame : c.SameStrings d) (h : loadWith s data = .ok c)
    (h' : loadWith s' data' = .ok d) (hv : s.verifySortOrder = true)
    (hv' : s'.verifySortOrder = true) : Alike c d := by
  have hsize : c.layout.msgids.size = d.layout.msgids.size :=
    Nat.le_antisymm (hsame.symm.size_le h' h hv) (hsame.size_le h h' hv')
  have hheader : c.header = d.header := by
    rw [header, header, headerBytes, headerBytes, (hsame 0).2]
  obtain ⟨hmeta, hrule⟩ := header_of_loadWith h
  obtain ⟨hmeta', hrule'⟩ := header_of_loadWith h'
  refine ⟨hsize, ?_, fun i => (hsame i).1, fun i => (hsame i).2, ?_, ?_⟩
  · rw [← (inBounds_of_loadWith h).size_eq, ← (inBounds_of_loadWith h').size_eq, hsize]
  · rw [hmeta, hmeta', hheader]
  · rw [hheader] at hrule
    exact ruleOfHeader_unique hrule hrule'

/-- Answers depend on the messages and not on how a buffer lays them out. If the slots of two catalogs
whose order was checked hold the same bytes, then all that the catalogs tell of themselves is the
same, every search ends at the same entry, and so is the answer to every query. -/
theorem answers_layout_independent (h : loadWith s data = .ok c) (h' : loadWith s' data' = .ok d)
    (hv : s.verifySortOrder = true) (hv' : s'.verifySortOrder = true) (hsame : c.SameStrings d) :
    c.size = d.size ∧ c.isEmpty = d.isEmpty ∧ c.headerBytes = d.headerBytes ∧
      c.metadata = d.metadata ∧ c.charset? = d.charset? ∧ c.pluralCount? = d.pluralCount? ∧
      c.rule = d.rule ∧
      (∀ search msgid, c.findBy search msgid = d.findBy search msgid) ∧
      ∀ q : Query, c.answer q = d.answer q := by
  have ha : Alike c d := hsame.alike h h' hv hv'
  have hsize : c.size = d.size := by rw [size, size, ha.msgids_size]
  refine ⟨hsize, ?_, ha.headerBytes_eq, ha.metadata, ?_, ?_, ha.rule, ha.findBy_eq, ha.answer_eq⟩
  · rw [isEmpty, isEmpty, hsize]
  · rw [charset?, charset?, ha.metadata]
  · rw [pluralCount?, pluralCount?, ha.metadata]

/-- The messages of `twoMessages` in little-endian order. Their strings stand in front of the tables,
one straight after the other, and those of the header inside the second word and at the end. -/
def packedMessages : Array UInt8 :=
  let words (ws : List Nat) := ws.flatMap fun w => ByteOrder.little.bytes (.ofNat w)
  (words [magic.toNat, 0, 3, 52, 28] ++ [97, 120, 98, 0, 99, 121, 0, 122] ++
    words [0, 5, 1, 21, 3, 25] ++ words [0, 76, 1, 20, 3, 22]).toArray

def packedMessagesCatalog : Catalog :=
  ⟨packedMessages, .little, #[⟨76, 76⟩, ⟨20, 21⟩, ⟨22, 25⟩], #[⟨5, 5⟩, ⟨21, 22⟩, ⟨25, 28⟩], ⟨[]⟩, none⟩

theorem answers_layout_independent_packed :
    loadWith {} twoMessages = .ok twoMessagesCatalog ∧
      loadWith {} packedMessages = .ok packedMessagesCatalog ∧
      twoMessagesCatalog.SameStrings packedMessagesCatalog ∧
      twoMessagesCatalog.order ≠ packedMessagesCatalog.order ∧
      ∀ q : Query, twoMessagesCatalog.answer q = packedMessagesCatalog.answer q := by
  have hload : loadWith {} twoMessages = .ok twoMessagesCatalog := rfl
  have hload' : loadWith {} packedMessages = .ok packedMessagesCatalog := rfl
  have hsame : twoMessagesCatalog.SameStrings packedMessagesCatalog
    | 0 => by decide +kernel
    | 1 => by decide +kernel
    | 2 => by decide +kernel
    | i + 3 => by simp [msgid, msgstr, Span.bytesAt, twoMessagesCatalog, packedMessagesCatalog]
  exact ⟨hload, hload', hsame, by decide,
    (answers_layout_independent hload hload' rfl rfl hsame).2.2.2.2.2.2.2.2⟩

end MessageCatalog.Catalog
