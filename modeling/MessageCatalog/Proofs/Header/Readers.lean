import MessageCatalog.Proofs.Catalog.Contents
import MessageCatalog.Proofs.Catalog.Writing
import MessageCatalog.Proofs.Header.Lines

/-! # Two readers of one field

The field for plural forms is read twice, once as an entry of the metadata and once for its rule. One
reader goes by the key that is left when blanks are trimmed, in small or capital letters, the other by
how the line starts, letter for letter. They come to the same line unless an earlier one has the key in
another spelling.
-/

namespace MessageCatalog

namespace Header

variable {header key : String} {P Q : List Char → Prop} {line : List Char}
  {lines after : List (List Char)}

/-! ## The first line -/

/-- The line is the first with `P`, and `after` are those behind it. -/
def FirstLine (P : List Char → Prop) (lines : List (List Char)) (line : List Char)
    (after : List (List Char)) : Prop :=
  ∃ before, lines = before ++ line :: after ∧ (∀ l ∈ before, ¬ P l) ∧ P line

namespace FirstLine

theorem find?_eq {p : List Char → Bool} (hp : ∀ l, p l = true ↔ P l)
    (h : FirstLine P lines line after) : lines.find? p = some line := by
  obtain ⟨before, hlines, hbefore, hline⟩ := h
  have hnot : ∀ l ∈ before, (!p l) = true := by
    simpa only [Bool.not_eq_true', ← Bool.not_eq_true, hp] using hbefore
  rw [List.find?_eq_some_iff_append]
  exact ⟨(hp line).mpr hline, before, after, hlines, hnot⟩

/-- The first line with a weaker property is the first with a stronger one that it has. -/
theorem of_imp (h : FirstLine P lines line after) (himp : ∀ l, Q l → P l) (hQ : Q line) :
    FirstLine Q lines line after := by
  obtain ⟨before, hlines, hbefore, -⟩ := h
  exact ⟨before, hlines, fun l hl hQ => hbefore l hl (himp l hQ), hQ⟩

/-- What the first line with a weaker property lacks is looked for behind it. -/
theorem find?_eq_find?_after {q : List Char → Bool} (h : FirstLine P lines line after)
    (himp : ∀ l, q l = true → P l) (hq : q line = false) : lines.find? q = after.find? q := by
  obtain ⟨before, rfl, hbefore, -⟩ := h
  have hnone : before.find? q = none :=
    List.find?_eq_none.mpr fun l hl hql => hbefore l hl (himp l hql)
  rw [List.find?_append, hnone, Option.none_or, List.find?_cons_of_neg (by simp [hq])]

end FirstLine

theorem exists_firstLine_of_find? {p : List Char → Bool} (hp : ∀ l, p l = true ↔ P l)
    (h : lines.find? p = some line) : ∃ after, FirstLine P lines line after := by
  obtain ⟨hline, before, after, hlines, hbefore⟩ := List.find?_eq_some_iff_append.mp h
  have hnot : ∀ l ∈ before, ¬ P l := by
    simpa only [Bool.not_eq_true', ← Bool.not_eq_true, hp] using hbefore
  exact ⟨after, before, hlines, hnot, (hp line).mp hline⟩

/-! ## The line that each reader takes -/

theorem any_entry?_iff (hkey : key ≠ "") (line : List Char) :
    (Metadata.entry? line).any (fun e => Metadata.sameKey e.1 key) = true ↔ HasKey key line := by
  rw [Option.any_eq_true]
  constructor
  · rintro ⟨e, he, hsame⟩
    obtain ⟨name, value, rfl, hname, -, hk, -⟩ := Metadata.entry?_eq_some_iff.mp he
    exact ⟨name, value, rfl, hname, hk ▸ hsame⟩
  · rintro ⟨name, value, rfl, hname, hsame⟩
    have hne : Text.trim name ≠ [] := by
      intro he
      rw [he] at hsame
      have hlower : key.toList.map Char.toLower = [] :=
        (beq_iff_eq.mp hsame).symm.trans (by simp)
      exact hkey (String.toList_eq_nil_iff.mp (List.map_eq_nil_iff.mp hlower))
    exact ⟨_, Metadata.entry?_eq_some_iff.mpr ⟨name, value, rfl, hname, hne, rfl, rfl⟩, hsame⟩

theorem get?_parse_eq_bind (key : String) : (Metadata.parse header).get? key =
    ((header.toList.splitOn '\n').find? fun l =>
      (Metadata.entry? l).any fun e => Metadata.sameKey e.1 key).bind fun l =>
        (Metadata.entry? l).map Prod.snd := by
  rw [Metadata.get?, Metadata.parse, List.find?_filterMap, Option.map_bind]
  rfl

/-- The metadata has the value of the first line with the key. -/
theorem FirstLine.get?_eq (hkey : key ≠ "")
    (h : FirstLine (HasKey key) (header.toList.splitOn '\n') line after) :
    (Metadata.parse header).get? key = (Metadata.entry? line).map Prod.snd := by
  rw [get?_parse_eq_bind, h.find?_eq (any_entry?_iff hkey)]
  rfl

theorem pluralSource?_eq_bind (header : String) : pluralSource? header =
    ((header.toList.splitOn '\n').find? fun l => "Plural-Forms:".toList.isPrefixOf l).bind fun l =>
      (ruleOfLine? l).map .ofList := by
  simp only [pluralSource?, Option.map_eq_bind]
  rfl

/-- The rule is read off the first line that starts with the name of the field, letter for letter. -/
theorem FirstLine.pluralSource?_eq
    (h : FirstLine ("Plural-Forms:".toList <+: ·) (header.toList.splitOn '\n') line after) :
    pluralSource? header = (ruleOfLine? line).map .ofList := by
  rw [pluralSource?_eq_bind, h.find?_eq fun l => List.isPrefixOf_iff_prefix]
  rfl

/-! ## What they read -/

theorem fieldName_append (rest : List Char) :
    "Plural-Forms:".toList ++ rest = "Plural-Forms".toList ++ ':' :: rest := by
  have hname : "Plural-Forms:".toList = "Plural-Forms".toList ++ [':'] := by decide
  rw [hname, List.append_assoc, List.singleton_append]

theorem trim_fieldName : Text.trim "Plural-Forms".toList = "Plural-Forms".toList := by
  decide

theorem hasKey_of_prefix (h : "Plural-Forms:".toList <+: line) : HasKey "Plural-Forms" line := by
  obtain ⟨rest, rfl⟩ := h
  rw [fieldName_append, hasKey_append_iff (by decide), trim_fieldName, String.ofList_toList]
  exact Metadata.sameKey_refl _

theorem ruleMarker_eq_cons : "plural=".toList = 'p' :: "lural=".toList := by
  decide

theorem ruleOfLine?_append_of_notMem {front : List Char} (h : 'p' ∉ front) (rest : List Char) :
    ruleOfLine? (front ++ rest) = ruleOfLine? rest := by
  rw [ruleOfLine?, ruleOfLine?, ruleMarker_eq_cons, Text.after?_append_of_notMem h]

/-- Blanks at the end of a line are blanks at the end of the rule. -/
theorem trim_ruleOfLine?_append {back : List Char} (h : ∀ c ∈ back, Text.isBlank c)
    (line : List Char) :
    (ruleOfLine? (line ++ back)).map Text.trim = (ruleOfLine? line).map Text.trim := by
  -- No character of the marker is blank, so that the blanks take no part in an occurrence of it.
  have hmarker : ('p' :: "lural=".toList).all (fun c => !Text.isBlank c) = true := by decide
  have hdisjoint : ∀ c ∈ back, c ∉ 'p' :: "lural=".toList := by
    intro c hc hm
    have hplain := List.all_eq_true.mp hmarker c hm
    rw [h c hc] at hplain
    cases hplain
  rw [ruleOfLine?, ruleOfLine?, ruleMarker_eq_cons, Text.after?_append_of_disjoint hdisjoint]
  cases Text.after? ('p' :: "lural=".toList) line with
  | none => rfl
  | some rest => exact congrArg some (Text.trim_takeWhile_append h _ rest)

/-- A text has the same rule when it is trimmed, up to blanks around the rule. -/
theorem trim_ruleOfLine?_trim (cs : List Char) :
    (ruleOfLine? (Text.trim cs)).map Text.trim = (ruleOfLine? cs).map Text.trim := by
  obtain ⟨front, back, hcs, hfront, hback⟩ := Text.exists_trim cs
  have hp : 'p' ∉ front := fun hp => absurd (hfront 'p' hp) (by decide)
  calc (ruleOfLine? (Text.trim cs)).map Text.trim
      = (ruleOfLine? (Text.trim cs ++ back)).map Text.trim := (trim_ruleOfLine?_append hback _).symm
    _ = (ruleOfLine? (front ++ (Text.trim cs ++ back))).map Text.trim := by
        rw [ruleOfLine?_append_of_notMem hp]
    _ = (ruleOfLine? cs).map Text.trim := by rw [← List.append_assoc, ← hcs]

/-- The value of a line that starts with the name of the field has the same rule as the line. -/
theorem exists_value_of_prefix (h : "Plural-Forms:".toList <+: line) :
    ∃ value : String, Metadata.entry? line = some ("Plural-Forms", value) ∧
      (ruleOfLine? value.toList).map Text.trim = (ruleOfLine? line).map Text.trim := by
  obtain ⟨rest, rfl⟩ := h
  refine ⟨.ofList (Text.trim rest), ?_, ?_⟩
  · rw [fieldName_append, Metadata.entry?_eq_some_iff]
    refine ⟨"Plural-Forms".toList, rest, rfl, by decide, ?_, ?_, rfl⟩
    · rw [trim_fieldName]
      decide
    · rw [trim_fieldName, String.ofList_toList]
  · rw [String.toList_ofList, trim_ruleOfLine?_trim, ruleOfLine?_append_of_notMem (by decide)]

/-! ## Agreement -/

/-- The first line with the key of the field, if there is one, starts with its name letter for
letter. -/
def WrittenOut (header : String) : Prop :=
  ∀ line after, FirstLine (HasKey "Plural-Forms") (header.toList.splitOn '\n') line after →
    "Plural-Forms:".toList <+: line

/-- Either both readers come to a rule or none does, and it is the same up to blanks around it. -/
structure ReadersAgree (header : String) : Prop where
  found : (∃ value, (Metadata.parse header).get? "Plural-Forms" = some value ∧
      "plural=".toList <:+: value.toList) ↔ ∃ source, pluralSource? header = some source
  source : ∀ value source, (Metadata.parse header).get? "Plural-Forms" = some value →
    pluralSource? header = some source → ∃ rest, Text.after? "plural=".toList value.toList = some rest ∧
      Text.trim source.toList = Text.trim (rest.takeWhile fun c => c != ';' && c != '\r')

theorem trim_pluralSource?_eq (h : WrittenOut header) :
    (pluralSource? header).map (fun source => Text.trim source.toList) =
      ((Metadata.parse header).get? "Plural-Forms").bind fun value =>
        (ruleOfLine? value.toList).map Text.trim := by
  -- The line of the metadata decides: without one no line starts with the name of the field, and the
  -- one that there is starts with it, so that both readers take it.
  cases hget : (header.toList.splitOn '\n').find? fun l =>
      (Metadata.entry? l).any fun e => Metadata.sameKey e.1 "Plural-Forms" with
  | none =>
      have hplain : (header.toList.splitOn '\n').find?
          (fun l => "Plural-Forms:".toList.isPrefixOf l) = none := by
        rw [List.find?_eq_none] at hget ⊢
        intro l hl hprefix
        apply hget l hl
        rw [any_entry?_iff (by decide)]
        exact hasKey_of_prefix (List.isPrefixOf_iff_prefix.mp hprefix)
      rw [get?_parse_eq_bind, hget, pluralSource?, hplain]
      rfl
  | some line =>
      obtain ⟨after, hfirst⟩ := exists_firstLine_of_find? (any_entry?_iff (by decide)) hget
      have hprefix : "Plural-Forms:".toList <+: line := h line after hfirst
      obtain ⟨value, hentry, hrule⟩ := exists_value_of_prefix hprefix
      rw [hfirst.get?_eq (by decide), hentry,
        (hfirst.of_imp (fun l => hasKey_of_prefix) hprefix).pluralSource?_eq]
      simpa [Function.comp_def] using hrule.symm

theorem ruleOfLine?_eq_some_iff {rule : List Char} : ruleOfLine? line = some rule ↔
    ∃ rest, Text.after? "plural=".toList line = some rest ∧
      rest.takeWhile (fun c => c != ';' && c != '\r') = rule := by
  rw [← Option.map_eq_some_iff, Option.map_eq_bind]
  rfl

theorem exists_source_of_value {value : String} {rest : List Char} (h : WrittenOut header)
    (hvalue : (Metadata.parse header).get? "Plural-Forms" = some value)
    (hrest : Text.after? "plural=".toList value.toList = some rest) :
    ∃ source, pluralSource? header = some source ∧
      Text.trim source.toList = Text.trim (rest.takeWhile fun c => c != ';' && c != '\r') := by
  have heq := trim_pluralSource?_eq h
  rw [hvalue, Option.bind_some, ruleOfLine?_eq_some_iff.mpr ⟨rest, hrest, rfl⟩] at heq
  exact Option.map_eq_some_iff.mp heq

theorem exists_value_of_source {source : String} (h : WrittenOut header)
    (hsource : pluralSource? header = some source) :
    ∃ value rest, (Metadata.parse header).get? "Plural-Forms" = some value ∧
      Text.after? "plural=".toList value.toList = some rest ∧
      Text.trim source.toList = Text.trim (rest.takeWhile fun c => c != ';' && c != '\r') := by
  have heq := trim_pluralSource?_eq h
  rw [hsource] at heq
  obtain ⟨value, hvalue, hrule⟩ := Option.bind_eq_some_iff.mp heq.symm
  obtain ⟨rule, hline, htrim⟩ := Option.map_eq_some_iff.mp hrule
  obtain ⟨rest, hrest, rfl⟩ := ruleOfLine?_eq_some_iff.mp hline
  exact ⟨value, rest, hvalue, hrest, htrim.symm⟩

theorem WrittenOut.readersAgree (h : WrittenOut header) : ReadersAgree header := by
  refine ⟨⟨?_, ?_⟩, ?_⟩
  · rintro ⟨value, hvalue, hmarker⟩
    obtain ⟨rest, hrest⟩ := Option.isSome_iff_exists.mp (Text.isSome_after?_iff.mpr hmarker)
    obtain ⟨source, hsource, -⟩ := exists_source_of_value h hvalue hrest
    exact ⟨source, hsource⟩
  · rintro ⟨source, hsource⟩
    obtain ⟨value, rest, hvalue, hrest, -⟩ := exists_value_of_source h hsource
    exact ⟨value, hvalue, Text.isSome_after?_iff.mp (by rw [hrest, Option.isSome_some])⟩
  · intro value source hvalue hsource
    obtain ⟨value', rest, hvalue', hrest, htrim⟩ := exists_value_of_source h hsource
    obtain rfl := Option.some.inj (hvalue.symm.trans hvalue')
    exact ⟨rest, hrest, htrim⟩

/-- A line with the key in another spelling is passed over in favour of one behind it. -/
theorem FirstLine.pluralSource?_eq_some_iff {source : String}
    (h : FirstLine (HasKey "Plural-Forms") (header.toList.splitOn '\n') line after)
    (hline : ¬ "Plural-Forms:".toList <+: line) :
    pluralSource? header = some source ↔ ∃ l later,
      FirstLine ("Plural-Forms:".toList <+: ·) after l later ∧
        ruleOfLine? l = some source.toList := by
  have hnot : "Plural-Forms:".toList.isPrefixOf line = false := by
    rw [← Bool.not_eq_true, List.isPrefixOf_iff_prefix]
    exact hline
  have hkey (l : List Char) (hl : "Plural-Forms:".toList.isPrefixOf l = true) :
      HasKey "Plural-Forms" l :=
    hasKey_of_prefix (List.isPrefixOf_iff_prefix.mp hl)
  rw [pluralSource?_eq_bind, h.find?_eq_find?_after hkey hnot, Option.bind_eq_some_iff]
  constructor
  · rintro ⟨l, hl, hrule⟩
    obtain ⟨later, hfirst⟩ := exists_firstLine_of_find? (fun l => List.isPrefixOf_iff_prefix) hl
    obtain ⟨rule, hline, rfl⟩ := Option.map_eq_some_iff.mp hrule
    exact ⟨l, later, hfirst, by rw [hline, String.toList_ofList]⟩
  · rintro ⟨l, later, hfirst, hrule⟩
    refine ⟨l, hfirst.find?_eq fun l => List.isPrefixOf_iff_prefix, ?_⟩
    rw [hrule, Option.map_some, String.ofList_toList]

open Catalog

/-- Both readers of the field for plural forms come to the same rule, up to blanks around it, unless the
first line with the key of the field spells it otherwise. The metadata has the value of such a line
all the same, and the rule comes from the first line behind it that starts with the name of the field
letter for letter. For a catalog this means that the rule which it compiles is the one in the value
that it counts the plural forms by. -/
theorem plural_forms_readers (header : String) :
    (WrittenOut header → ReadersAgree header) ∧
    (∀ line after, FirstLine (HasKey "Plural-Forms") (header.toList.splitOn '\n') line after →
      ¬ "Plural-Forms:".toList <+: line →
      (Metadata.parse header).get? "Plural-Forms" = (Metadata.entry? line).map Prod.snd ∧
      ∀ source, pluralSource? header = some source ↔ ∃ l later,
        FirstLine ("Plural-Forms:".toList <+: ·) after l later ∧
          ruleOfLine? l = some source.toList) ∧
    ∀ settings data c, loadWith settings data = .ok c → c.header = header → WrittenOut header →
      ∀ value rest, c.metadata.get? "Plural-Forms" = some value →
        Text.after? "plural=".toList value.toList = some rest →
        ∃ source, Plural.Expr.parseOptional settings.maxExpressionDepth.toNat source = .ok c.rule ∧
          Text.trim source.toList = Text.trim (rest.takeWhile fun c => c != ';' && c != '\r') := by
  refine ⟨WrittenOut.readersAgree, ?_, ?_⟩
  · intro line after hfirst hline
    exact ⟨hfirst.get?_eq (by decide), fun source => hfirst.pluralSource?_eq_some_iff hline⟩
  · rintro settings data c hload rfl hwritten value rest hvalue hrest
    obtain ⟨hmetadata, hrule⟩ := header_of_loadWith hload
    rw [hmetadata] at hvalue
    obtain ⟨source, hsource, htrim⟩ := exists_source_of_value hwritten hvalue hrest
    refine ⟨source, ?_, htrim⟩
    rwa [Layout.ruleOfHeader, hsource] at hrule

/-- A catalog with no messages but the header. -/
def headerOnly (header : String) : Array UInt8 :=
  (Writer.write .little (Text.encode header) []).toArray

theorem writtenOut_pluralHeader : WrittenOut Writer.pluralHeader := by
  have hfind : (Writer.pluralHeader.toList.splitOn '\n').find? (fun l =>
      (Metadata.entry? l).any fun e => Metadata.sameKey e.1 "Plural-Forms") =
        some "Plural-Forms: nplurals=2; plural=n != 1;".toList := by
    decide +kernel
  intro line after hfirst
  rw [hfirst.find?_eq (any_entry?_iff (by decide))] at hfind
  obtain rfl := Option.some.inj hfind
  decide

theorem exists_load_headerOnly :
    ∃ c, loadWith {} (headerOnly Writer.pluralHeader) = .ok c ∧ c.header = Writer.pluralHeader ∧
      c.metadata.get? "Plural-Forms" = some "nplurals=2; plural=n != 1;" := by
  have h : (loadWith {} (headerOnly Writer.pluralHeader)).map (fun c =>
      (c.header, c.metadata.get? "Plural-Forms")) =
        .ok (Writer.pluralHeader, some "nplurals=2; plural=n != 1;") := by
    decide +kernel
  obtain ⟨c, hc, hall⟩ := Fallible.map_eq_ok_iff.mp h
  obtain ⟨hheader, hvalue⟩ := Prod.mk.inj hall
  exact ⟨c, hc, hheader, hvalue⟩

theorem plural_forms_readers_headerOnly :
    (∃ c source, loadWith {} (headerOnly Writer.pluralHeader) = .ok c ∧
      c.header = Writer.pluralHeader ∧ WrittenOut Writer.pluralHeader ∧
      Plural.Expr.parseOptional (Settings.maxExpressionDepth {}).toNat source = .ok c.rule ∧
      Text.trim source.toList = "n != 1".toList) ∧
    ∃ line after, FirstLine (HasKey "Plural-Forms")
        ("plural-forms: 2\nPlural-Forms: plural=n\n".toList.splitOn '\n') line after ∧
      ¬ "Plural-Forms:".toList <+: line ∧
      (Metadata.parse "plural-forms: 2\nPlural-Forms: plural=n\n").get? "Plural-Forms" = some "2" ∧
      pluralSource? "plural-forms: 2\nPlural-Forms: plural=n\n" = some "n" := by
  constructor
  · obtain ⟨c, hc, hheader, hvalue⟩ := exists_load_headerOnly
    obtain ⟨source, hrule, htrim⟩ := (plural_forms_readers _).2.2 {} _ c hc hheader
      writtenOut_pluralHeader _ "n != 1;".toList hvalue (by decide +kernel)
    exact ⟨c, source, hc, hheader, writtenOut_pluralHeader, hrule, htrim⟩
  · have hfirst : FirstLine (HasKey "Plural-Forms")
        ("plural-forms: 2\nPlural-Forms: plural=n\n".toList.splitOn '\n')
        "plural-forms: 2".toList ["Plural-Forms: plural=n".toList, []] :=
      ⟨[], by decide +kernel, by simp, (any_entry?_iff (by decide) _).mp (by decide)⟩
    have hline : ¬ "Plural-Forms:".toList <+: "plural-forms: 2".toList := by decide
    have hreaders := (plural_forms_readers _).2.1 _ _ hfirst hline
    refine ⟨_, _, hfirst, hline, hreaders.1, (hreaders.2 "n").mpr ?_⟩
    exact ⟨"Plural-Forms: plural=n".toList, [[]], ⟨[], rfl, by simp, by decide⟩, by decide +kernel⟩

/-- With the key in small letters, the plural forms are counted and there is no rule. -/
theorem lowercase_plural_forms :
    let header := "plural-forms: nplurals=2; plural=n != 1;\n"
    (Metadata.parse header).get? "Plural-Forms" = some "nplurals=2; plural=n != 1;" ∧
      "plural=".toList <:+: "nplurals=2; plural=n != 1;".toList ∧ pluralSource? header = none ∧
      (loadWith {} (headerOnly header)).map (fun c => (c.pluralCount?, c.rule)) =
        .ok (some 2, none) := by
  refine ⟨?_, ?_, ?_, ?_⟩
  all_goals decide +kernel

end Header

end MessageCatalog
