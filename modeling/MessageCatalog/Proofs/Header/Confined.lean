import Mathlib.Data.List.Forall2
import MessageCatalog.Proofs.Header.Complete
import MessageCatalog.Proofs.Header.Readers
import MessageCatalog.Proofs.Text.LineBreaks

/-! # Lines in another character set

Catalogs in older character sets have bytes in their headers that are no UTF-8. Such bytes stay in the
line that they stand in. What is read off a header comes from the lines for the content type and the
plural forms, so that it does not matter what bytes the other lines hold.
-/

namespace MessageCatalog

namespace Header

/-- The line has neither of the keys that are looked up. It does not start with `Plural-Forms:` either,
because it would have that key. -/
structure Bystander (line : List UInt8) : Prop where
  contentType : ¬ HasKey "Content-Type" (Text.decodeLossy line)
  pluralForms : ¬ HasKey "Plural-Forms" (Text.decodeLossy line)

/-- The headers have as many lines, and where two of these differ, both are bystanders. -/
def SameButBystanders (a b : List UInt8) : Prop :=
  List.Forall₂ (fun x y => x = y ∨ Bystander x ∧ Bystander y) (a.splitOn 0x0A) (b.splitOn 0x0A)

/-! ## Searches -/

/-- A search that passes over all that differs ends at the same place. -/
theorem find?_map_eq_of_forall₂ {α β : Type} {p : β → Bool} {f : α → β} {xs ys : List α}
    (h : List.Forall₂ (fun x y => x = y ∨ p (f x) = false ∧ p (f y) = false) xs ys) :
    (xs.map f).find? p = (ys.map f).find? p := by
  induction h with
  | nil => rfl
  | cons hxy _ ih =>
      rw [List.map_cons, List.map_cons, List.find?_cons, List.find?_cons, ih]
      rcases hxy with rfl | ⟨hx, hy⟩
      · rfl
      · rw [hx, hy]

namespace SameButBystanders

variable {a b : List UInt8}

theorem find?_eq (h : SameButBystanders a b) {p : List Char → Bool}
    (hp : ∀ line, Bystander line → p (Text.decodeLossy line) = false) :
    ((Text.decodeLossy a).splitOn '\n').find? p = ((Text.decodeLossy b).splitOn '\n').find? p := by
  rw [Text.splitOn_decodeLossy, Text.splitOn_decodeLossy]
  apply find?_map_eq_of_forall₂
  exact h.imp fun x y hxy => hxy.imp_right fun hboth => ⟨hp x hboth.1, hp y hboth.2⟩

theorem get?_eq (h : SameButBystanders a b) (key : String) (hkey : key ≠ "")
    (hnone : ∀ line, Bystander line → ¬ HasKey key (Text.decodeLossy line)) :
    (Metadata.parse (.ofList (Text.decodeLossy a))).get? key =
      (Metadata.parse (.ofList (Text.decodeLossy b))).get? key := by
  rw [get?_parse_eq_bind, get?_parse_eq_bind, String.toList_ofList, String.toList_ofList, h.find?_eq]
  intro line hline
  rw [← Bool.not_eq_true, any_entry?_iff hkey]
  exact hnone line hline

theorem charset?_eq (h : SameButBystanders a b) :
    (Metadata.parse (.ofList (Text.decodeLossy a))).charset? =
      (Metadata.parse (.ofList (Text.decodeLossy b))).charset? := by
  rw [Metadata.charset?, Metadata.charset?,
    h.get?_eq "Content-Type" (by decide) fun _ hline => hline.contentType]

theorem pluralCount?_eq (h : SameButBystanders a b) :
    (Metadata.parse (.ofList (Text.decodeLossy a))).pluralCount? =
      (Metadata.parse (.ofList (Text.decodeLossy b))).pluralCount? := by
  rw [Metadata.pluralCount?, Metadata.pluralCount?,
    h.get?_eq "Plural-Forms" (by decide) fun _ hline => hline.pluralForms]

theorem pluralSource?_eq (h : SameButBystanders a b) :
    pluralSource? (.ofList (Text.decodeLossy a)) = pluralSource? (.ofList (Text.decodeLossy b)) := by
  rw [pluralSource?_eq_bind, pluralSource?_eq_bind, @String.toList_ofList (Text.decodeLossy a),
    @String.toList_ofList (Text.decodeLossy b), h.find?_eq]
  intro line hline
  rw [← Bool.not_eq_true, List.isPrefixOf_iff_prefix]
  intro hstart
  have hkey := hasKey_of_prefix hstart
  exact hline.pluralForms hkey

end SameButBystanders

end Header

namespace Catalog

open Bytes Layout Header

variable {settings : Settings} {order order' : ByteOrder} {data data' : Array UInt8}

theorem ruleOfHeader_eq_of_sameButBystanders
    (h : SameButBystanders (stringAt order data .msgstrs 0) (stringAt order' data' .msgstrs 0)) :
    ruleOfHeader settings (headerText order data) =
      ruleOfHeader settings (headerText order' data') := by
  rw [ruleOfHeader, ruleOfHeader, headerText, headerText, h.pluralSource?_eq]

/-- Decoding has the lines of the bytes, whatever these are. So two catalogs load with the same rule,
character set and number of plural forms, or fail at the same fault of the rule, if their headers are
the same but for bystanders. -/
theorem foreign_bytes_confined :
    (∀ bytes, (Text.decodeLossy bytes).splitOn '\n' =
      (bytes.splitOn 0x0A).map Text.decodeLossy) ∧
    ∀ settings order order' data data', WellFormed settings order data →
      WellFormed settings order' data' →
      SameButBystanders (stringAt order data .msgstrs 0) (stringAt order' data' .msgstrs 0) →
      (∃ cause, loadWith settings data = .error (.rule cause) ∧
        loadWith settings data' = .error (.rule cause)) ∨
      ∃ c c', loadWith settings data = .ok c ∧ loadWith settings data' = .ok c' ∧
        c.rule = c'.rule ∧ c.charset? = c'.charset? ∧ c.pluralCount? = c'.pluralCount? := by
  refine ⟨Text.splitOn_decodeLossy, ?_⟩
  intro settings order order' data data' hw hw' h
  have hsame : ruleOfHeader settings (headerText order data) =
      ruleOfHeader settings (headerText order' data') := ruleOfHeader_eq_of_sameButBystanders h
  cases hrule : ruleOfHeader settings (headerText order data) with
  | error cause =>
      left
      refine ⟨cause, ?_, ?_⟩
      · rw [loadWith, load_eq_error_of_rule hw hrule]
        rfl
      · rw [loadWith, load_eq_error_of_rule hw' (hsame ▸ hrule)]
        rfl
  | ok rule =>
      right
      obtain ⟨c, hc, hmeta, hcrule⟩ := exists_loadWith_of_header hw hrule
      obtain ⟨c', hc', hmeta', hcrule'⟩ := exists_loadWith_of_header hw' (hsame ▸ hrule)
      refine ⟨c, c', hc, hc', hcrule.trans hcrule'.symm, ?_, ?_⟩
      · rw [charset?, charset?, hmeta, hmeta', headerText, headerText, h.charset?_eq]
      · rw [pluralCount?, pluralCount?, hmeta, hmeta', headerText, headerText, h.pluralCount?_eq]

/-- A line that ends with the bytes, which may break off in the middle of a sequence. -/
def brokenLine (bytes : List UInt8) : List UInt8 :=
  Text.encode "Author: Jos" ++ bytes

/-- A header with such a line in front of what is read off it. -/
def brokenHeader (bytes : List UInt8) : List UInt8 :=
  brokenLine bytes ++ 0x0A :: Text.encode
    "Plural-Forms: nplurals=2; plural=n != 1;\nContent-Type: charset=L1\n"

theorem sameButBystanders_brokenHeader :
    SameButBystanders (brokenHeader [0xE9]) (brokenHeader [0xF0, 0x9F, 0x8C]) := by
  rw [SameButBystanders, brokenHeader, brokenHeader,
    List.splitOn_append_cons_self_of_not_mem (by decide +kernel),
    List.splitOn_append_cons_self_of_not_mem (by decide +kernel)]
  refine .cons (.inr ⟨⟨?_, ?_⟩, ⟨?_, ?_⟩⟩) (List.forall₂_same.mpr fun _ _ => .inl rfl)
  all_goals
    rw [← any_entry?_iff (by decide)]
    decide +kernel

theorem ruleCompiles_brokenHeader :
    RuleCompiles {} (.ofList (Text.decodeLossy (brokenHeader [0xE9]))) := by
  have hsource : pluralSource? (.ofList (Text.decodeLossy (brokenHeader [0xE9]))) =
      pluralSource? Writer.pluralHeader := by
    decide +kernel
  intro source hs
  exact Writer.ruleCompiles_pluralHeader source (hsource.symm.trans hs)

theorem foreign_bytes_confined_broken :
    let data := (Writer.write .little (brokenHeader [0xE9]) []).toArray
    let data' := (Writer.write .big (brokenHeader [0xF0, 0x9F, 0x8C]) []).toArray
    WellFormed {} .little data ∧ WellFormed {} .big data' ∧
      SameButBystanders (stringAt .little data .msgstrs 0) (stringAt .big data' .msgstrs 0) ∧
      ∃ c, loadWith {} data' = .ok c ∧ c.charset? = some "L1" ∧ c.pluralCount? = some 2 := by
  intro data data'
  have hsize : (Writer.write .little (brokenHeader [0xE9]) []).length < 0x80000000 := by
    decide +kernel
  have hsize' : (Writer.write .big (brokenHeader [0xF0, 0x9F, 0x8C]) []).length < 0x80000000 := by
    decide +kernel
  have hw : WellFormed {} .little data := Writer.wellFormed_write_nil hsize
  have hw' : WellFormed {} .big data' := Writer.wellFormed_write_nil hsize'
  have hsame : SameButBystanders (stringAt .little data .msgstrs 0)
      (stringAt .big data' .msgstrs 0) := by
    rw [Writer.stringAt_write hsize, Writer.stringAt_write hsize']
    exact sameButBystanders_brokenHeader
  have hheader : headerText .little data = .ofList (Text.decodeLossy (brokenHeader [0xE9])) := by
    rw [headerText, Writer.stringAt_write hsize]
  obtain ⟨rule, hrule⟩ := exists_ruleOfHeader_iff.mpr (hheader ▸ ruleCompiles_brokenHeader)
  obtain ⟨c, hc, hmeta, -⟩ := exists_loadWith_of_header hw hrule
  have hcharset : c.charset? = some "L1" := by
    rw [charset?, hmeta, hheader]
    decide +kernel
  have hcount : c.pluralCount? = some 2 := by
    rw [pluralCount?, hmeta, hheader]
    decide +kernel
  refine ⟨hw, hw', hsame, ?_⟩
  rcases foreign_bytes_confined.2 {} _ _ data data' hw hw' hsame with
    ⟨cause, hfail, -⟩ | ⟨c₁, c', hc₁, hc', -, hcharset', hcount'⟩
  · cases hc.symm.trans hfail
  · obtain rfl := Except.ok.inj (hc.symm.trans hc₁)
    exact ⟨c', hc', hcharset'.symm.trans hcharset, hcount'.symm.trans hcount⟩

end Catalog

end MessageCatalog
