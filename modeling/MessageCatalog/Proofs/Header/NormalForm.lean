import Mathlib.Data.List.DropRight
import Mathlib.Data.List.Forall2
import MessageCatalog.Proofs.Header.Lines
import MessageCatalog.Proofs.Text.LineBreaks

/-! # The normal form of a header

What the lines of a header say is a list of trimmed keys and values. A list of this kind can be written
as one line for each entry, and is read back from there with nothing added, lost or moved. So a header
that is read and written out again says the same as before.
-/

namespace MessageCatalog

/-! ## Trimmed texts -/

namespace Text

theorem mem_of_mem_trim {c : Char} {cs : List Char} (h : c ∈ trim cs) : c ∈ cs := by
  obtain ⟨front, back, hcs, -, -⟩ := exists_trim cs
  rw [hcs]
  exact List.mem_append_left back (List.mem_append_right front h)

theorem trimEnd_trimEnd (cs : List Char) : trimEnd (trimEnd cs) = trimEnd cs := by
  rw [trimEnd, trimEnd, List.reverse_reverse, List.dropWhile_idempotent]

theorem trim_trim (cs : List Char) : trim (trim cs) = trim cs := by
  cases hstart : trimStart cs with
  | nil =>
      have htrim : trim cs = [] := by
        rw [trim, hstart]
        rfl
      rw [htrim]
      rfl
  | cons c ds =>
      have hhead := List.head?_dropWhile_not isBlank cs
      rw [← trimStart, hstart] at hhead
      have hc : isBlank c = false := by simpa using hhead
      have htrim : trim cs = c :: trimEnd ds := by
        rw [trim, hstart]
        exact trimEnd_append_cons hc [] ds
      calc trim (trim cs)
          = trimEnd (c :: trimEnd ds) := by
            rw [htrim, trim, trimStart, List.dropWhile_cons_of_neg (by simp [hc])]
        _ = trimEnd (trim cs) := by rw [htrim]
        _ = trim cs := by rw [trim, trimEnd_trimEnd]

end Text

namespace Header

/-! ## Entries -/

/-- An entry that a line of a header can say. -/
structure Normal (e : String × String) : Prop where
  key_ne : e.1 ≠ ""
  key_trim : Text.trim e.1.toList = e.1.toList
  key_colon : ':' ∉ e.1.toList
  key_line : '\n' ∉ e.1.toList
  value_trim : Text.trim e.2.toList = e.2.toList
  value_line : '\n' ∉ e.2.toList

theorem normal_iff {e : String × String} :
    Normal e ↔ e.1 ≠ "" ∧ Text.trim e.1.toList = e.1.toList ∧ ':' ∉ e.1.toList ∧
      '\n' ∉ e.1.toList ∧ Text.trim e.2.toList = e.2.toList ∧ '\n' ∉ e.2.toList :=
  ⟨fun h => ⟨h.1, h.2, h.3, h.4, h.5, h.6⟩, fun h => ⟨h.1, h.2.1, h.2.2.1, h.2.2.2.1, h.2.2.2.2.1,
    h.2.2.2.2.2⟩⟩

instance (e : String × String) : Decidable (Normal e) :=
  decidable_of_iff' _ normal_iff

/-- The line that an entry is written in. -/
def lineOf (e : String × String) : Line :=
  ⟨fieldLine e.1 e.2.toList, false⟩

theorem toList_lineOf (e : String × String) :
    (s!"{e.1}: {e.2}\n").toList = (lineOf e).body ++ ['\n'] := by
  simp [lineOf, Line.body, Line.ending, fieldLine, toString]

theorem render_eq_ofLines (m : Metadata) : m.render = ofLines (m.entries.map lineOf) := by
  rw [← String.toList_inj, Metadata.render, ofLines, String.toList_ofList, String.toList_join,
    List.flatMap_map, List.flatMap_map]
  exact congrArg (List.flatMap · m.entries) (funext toList_lineOf)

theorem Normal.entry?_lineOf {e : String × String} (h : Normal e) :
    Metadata.entry? (lineOf e).body = some e := by
  have hentry := entry?_fieldLine h.key_ne h.key_colon h.key_trim e.2.toList []
  rw [List.append_nil e.2.toList, h.value_trim, String.ofList_toList] at hentry
  exact hentry

theorem Normal.notMem_lineOf {e : String × String} (h : Normal e) : '\n' ∉ (lineOf e).text := by
  simp [lineOf, fieldLine, h.key_line, h.value_line]

/-- Normal entries are read back as they were written, in their order and with repeated keys. -/
theorem parse_render_of_normal {m : Metadata} (h : ∀ e ∈ m.entries, Normal e) :
    Metadata.parse m.render = m := by
  have hlines : ∀ l ∈ m.entries.map lineOf, '\n' ∉ l.text := by
    intro l hl
    obtain ⟨e, he, rfl⟩ := List.mem_map.mp hl
    exact (h e he).notMem_lineOf
  have hread : ((m.entries.map lineOf).map Line.body).filterMap Metadata.entry? = m.entries := by
    rw [List.map_map, List.filterMap_map]
    exact (List.filterMap_congr fun e he => (h e he).entry?_lineOf).trans List.filterMap_some
  have hempty : [[]].filterMap Metadata.entry? = [] := rfl
  rw [render_eq_ofLines, Metadata.parse, splitOn_ofLines hlines, List.filterMap_append, hread, hempty,
    List.append_nil]

/-- Every line says a normal entry. -/
theorem normal_of_entry? {line : List Char} (hline : '\n' ∉ line) {e : String × String}
    (h : Metadata.entry? line = some e) : Normal e := by
  obtain ⟨key, value⟩ := e
  obtain ⟨name, rest, rfl, hname, hne, rfl, rfl⟩ := Metadata.entry?_eq_some_iff.mp h
  rw [List.mem_append, List.mem_cons, not_or, not_or] at hline
  refine ⟨?_, ?_, ?_, ?_, ?_, ?_⟩
  · exact fun he => hne (by simpa using congrArg String.toList he)
  · simp only [String.toList_ofList, Text.trim_trim]
  · exact fun hm => hname (Text.mem_of_mem_trim (by simpa using hm))
  · exact fun hm => hline.1 (Text.mem_of_mem_trim (by simpa using hm))
  · simp only [String.toList_ofList, Text.trim_trim]
  · exact fun hm => hline.2.2 (Text.mem_of_mem_trim (by simpa using hm))

theorem normal_of_mem_parse {header : String} {e : String × String}
    (h : e ∈ (Metadata.parse header).entries) : Normal e := by
  obtain ⟨line, hline, he⟩ := List.mem_filterMap.mp h
  exact normal_of_entry? (Text.notMem_of_mem_splitOn hline) he

/-! ## Keys -/

/-- One character, or the small and the capital form of one ASCII letter. -/
def SameLetter (a b : Char) : Prop :=
  a = b ∨ (65 ≤ a.toNat ∧ a.toNat ≤ 90 ∧ b.toNat = a.toNat + 32) ∨
    (65 ≤ b.toNat ∧ b.toNat ≤ 90 ∧ a.toNat = b.toNat + 32)

theorem toNat_toLower (c : Char) :
    c.toLower.toNat = if 65 ≤ c.toNat ∧ c.toNat ≤ 90 then c.toNat + 32 else c.toNat := by
  have hiff : c.val ≥ 'A'.val ∧ c.val ≤ 'Z'.val ↔ 65 ≤ c.toNat ∧ c.toNat ≤ 90 :=
    and_congr UInt32.le_iff_toNat_le UInt32.le_iff_toNat_le
  by_cases h : c.val ≥ 'A'.val ∧ c.val ≤ 'Z'.val
  · have hc := hiff.mp h
    have hlower : c.toLower = ⟨c.val + ('a'.val - 'A'.val), _⟩ := dif_pos h
    have hsum : (c.val + ('a'.val - 'A'.val)).toNat = (c.toNat + 32) % 2 ^ 32 := UInt32.toNat_add _ _
    rw [if_pos hc, hlower]
    exact hsum.trans (Nat.mod_eq_of_lt (by omega))
  · have hlower : c.toLower = c := dif_neg h
    rw [if_neg (hiff.not.mp h), hlower]

theorem toLower_eq_iff {a b : Char} : a.toLower = b.toLower ↔ SameLetter a b := by
  rw [SameLetter, ← Char.toNat_inj, ← Char.toNat_inj, toNat_toLower, toNat_toLower]
  split <;> split <;> omega

/-- The keys are spelled with the same letters, small or capital. -/
def SameSpelling (a b : String) : Prop :=
  List.Forall₂ SameLetter a.toList b.toList

theorem sameKey_iff {a b : String} : Metadata.sameKey a b = true ↔ SameSpelling a b := by
  rw [Metadata.sameKey, beq_iff_eq, ← List.forall₂_eq_eq_eq, List.forall₂_map_left_iff,
    List.forall₂_map_right_iff]
  exact ⟨fun h => h.imp fun _ _ => toLower_eq_iff.mp, fun h => h.imp fun _ _ => toLower_eq_iff.mpr⟩

theorem get?_eq_some_iff {m : Metadata} {key value : String} :
    m.get? key = some value ↔ ∃ before e after, m.entries = before ++ e :: after ∧ e.2 = value ∧
      SameSpelling e.1 key ∧ ∀ e' ∈ before, ¬ SameSpelling e'.1 key := by
  simp only [← sameKey_iff, Metadata.get?, Option.map_eq_some_iff, List.find?_eq_some_iff_append]
  constructor
  · rintro ⟨e, ⟨hkey, before, after, hentries, hbefore⟩, hvalue⟩
    exact ⟨before, e, after, hentries, hvalue, hkey, by simpa using hbefore⟩
  · rintro ⟨before, e, after, hentries, hvalue, hkey, hbefore⟩
    exact ⟨e, ⟨hkey, before, after, hentries, by simpa using hbefore⟩, hvalue⟩

theorem get?_eq_none_iff {m : Metadata} {key : String} :
    m.get? key = none ↔ ∀ e ∈ m.entries, ¬ SameSpelling e.1 key := by
  simp only [← sameKey_iff, Metadata.get?, Option.map_eq_none_iff, List.find?_eq_none]

/-- Lists of normal entries are what headers say: each of them is read back from its lines, and no
header says anything else. A key is looked up as the first one that is spelled with its letters. -/
theorem metadata_normal_form :
    (∀ m : Metadata, (∀ e ∈ m.entries, Normal e) → Metadata.parse m.render = m) ∧
    (∀ header, (∀ e ∈ (Metadata.parse header).entries, Normal e) ∧
      Metadata.parse (Metadata.parse header).render = Metadata.parse header) ∧
    ∀ (m : Metadata) (key : String),
      (∀ value, m.get? key = some value ↔ ∃ before e after, m.entries = before ++ e :: after ∧
        e.2 = value ∧ SameSpelling e.1 key ∧ ∀ e' ∈ before, ¬ SameSpelling e'.1 key) ∧
      (m.get? key = none ↔ ∀ e ∈ m.entries, ¬ SameSpelling e.1 key) := by
  refine ⟨fun m => parse_render_of_normal, fun header => ⟨fun e => normal_of_mem_parse, ?_⟩,
    fun m key => ⟨fun value => get?_eq_some_iff, get?_eq_none_iff⟩⟩
  exact parse_render_of_normal fun e => normal_of_mem_parse

/-- Values may hold colons, blanks and carriage returns, or nothing, and keys may come again. -/
theorem metadata_normal_form_repeated :
    let m : Metadata := ⟨[("X\rKey", "a: b\r c"), ("Language", ""), ("x\rkEY", "\u200B"),
      ("X\rKey", "a: b\r c")]⟩
    (∀ e ∈ m.entries, Normal e) ∧ Metadata.parse m.render = m ∧
      m.get? "LANGUAGE" = some "" ∧ m.get? "Lang" = none := by
  intro m
  have hnormal : ∀ e ∈ m.entries, Normal e := by decide +kernel
  refine ⟨hnormal, metadata_normal_form.1 m hnormal, ?_, ?_⟩
  · exact ((metadata_normal_form.2.2 m "LANGUAGE").1 "").mpr
      ⟨[("X\rKey", "a: b\r c")], ("Language", ""), _, rfl, rfl, sameKey_iff.mp (by decide),
        by simp [← sameKey_iff]; decide⟩
  · exact (metadata_normal_form.2.2 m "Lang").2.mpr (by simp only [← sameKey_iff]; decide)

end Header

end MessageCatalog
