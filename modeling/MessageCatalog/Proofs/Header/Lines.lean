import MessageCatalog.Header.Metadata
import MessageCatalog.Header.PluralForms

/-! # Lines of a header

A header is taken as its lines, and what is looked up in it as one of them. The entries and the plural
rule are looked for in different ways, but both end at a line with the key in question.
-/

namespace MessageCatalog.Header

/-- A line and its end: a line feed, with or without a carriage return in front of it. -/
structure Line where
  text : List Char
  carriageReturn : Bool

namespace Line

def ending (l : Line) : List Char :=
  if l.carriageReturn then ['\r'] else []

/-- All of the line in front of its line feed. -/
def body (l : Line) : List Char :=
  l.text ++ l.ending

theorem isBlank_of_mem_ending {l : Line} {c : Char} (h : c ∈ l.ending) : Text.isBlank c := by
  rw [ending] at h
  split at h
  · obtain rfl := List.mem_singleton.mp h
    decide
  · cases h

theorem notMem_ending {l : Line} {c : Char} (h : c ≠ '\r') : c ∉ l.ending := by
  rw [ending]
  split <;> simp [h]

end Line

def ofLines (lines : List Line) : String :=
  .ofList (lines.flatMap fun l => l.body ++ ['\n'])

/-- Behind the last line feed stands an empty line. -/
theorem splitOn_ofLines {lines : List Line} (h : ∀ l ∈ lines, '\n' ∉ l.text) :
    (ofLines lines).toList.splitOn '\n' = lines.map Line.body ++ [[]] := by
  rw [ofLines, String.toList_ofList]
  induction lines with
  | nil => rfl
  | cons l lines ih =>
      have hl : '\n' ∉ l.body := by
        rw [Line.body, List.mem_append, not_or]
        exact ⟨h l List.mem_cons_self, Line.notMem_ending (by decide)⟩
      rw [List.flatMap_cons, List.append_assoc, List.singleton_append,
        List.splitOn_append_cons_self_of_not_mem hl, ih fun l' hl' => h l' (List.mem_cons_of_mem _ hl')]
      rfl

/-! ## Keys -/

/-- What stands in front of the line's first colon is the key, up to blanks around it and to small and
capital letters. -/
def HasKey (key : String) (line : List Char) : Prop :=
  ∃ name value, line = name ++ ':' :: value ∧ ':' ∉ name ∧
    Metadata.sameKey (.ofList (Text.trim name)) key = true

theorem Metadata.sameKey_refl (key : String) : sameKey key key = true := by
  simp [sameKey]

theorem hasKey_append_iff {key : String} {name value : List Char} (hname : ':' ∉ name) :
    HasKey key (name ++ ':' :: value) ↔ Metadata.sameKey (.ofList (Text.trim name)) key = true := by
  constructor
  · rintro ⟨name', value', hline, hname', hkey⟩
    have hcut : Text.cut? ':' (name ++ ':' :: value) = some (name, value) :=
      Text.cut?_eq_some_iff.mpr ⟨hname, rfl⟩
    rw [Text.cut?_eq_some_iff.mpr ⟨hname', hline⟩] at hcut
    obtain ⟨rfl, -⟩ := Prod.mk.inj (Option.some.inj hcut)
    exact hkey
  · exact fun hkey => ⟨name, value, rfl, hname, hkey⟩

theorem Metadata.entry?_eq_some_iff {line : List Char} {key value : String} :
    entry? line = some (key, value) ↔
      ∃ name rest, line = name ++ ':' :: rest ∧ ':' ∉ name ∧ Text.trim name ≠ [] ∧
        key = .ofList (Text.trim name) ∧ value = .ofList (Text.trim rest) := by
  constructor
  · intro h
    unfold entry? at h
    simp only [Option.bind_eq_bind, Option.bind_eq_some_iff, Prod.exists] at h
    obtain ⟨name, rest, hcut, he⟩ := h
    obtain ⟨hname, rfl⟩ := Text.cut?_eq_some_iff.mp hcut
    split at he
    · cases he
    · next hne =>
        obtain ⟨rfl, rfl⟩ := Prod.mk.inj (Option.some.inj he)
        exact ⟨name, rest, rfl, hname, hne, rfl, rfl⟩
  · rintro ⟨name, rest, rfl, hname, hne, rfl, rfl⟩
    unfold entry?
    simp [Text.cut?_eq_some_iff.mpr ⟨hname, rfl⟩, hne]

def fieldLine (key : String) (value : List Char) : List Char :=
  key.toList ++ ':' :: ' ' :: value

theorem entry?_fieldLine {key : String} (hne : key ≠ "") (hcolon : ':' ∉ key.toList)
    (htrim : Text.trim key.toList = key.toList) (value back : List Char) :
    Metadata.entry? (fieldLine key value ++ back) = some (key, .ofList (Text.trim (value ++ back))) := by
  have hlist : key.toList ≠ [] := fun he => hne (String.toList_eq_nil_iff.mp he)
  rw [Metadata.entry?_eq_some_iff]
  refine ⟨key.toList, ' ' :: (value ++ back), ?_, hcolon, htrim.symm ▸ hlist, ?_, ?_⟩
  · rw [fieldLine, List.append_assoc, List.cons_append, List.cons_append]
  · rw [htrim, String.ofList_toList]
  · rw [Text.trim_cons_of_blank rfl]

theorem hasKey_fieldLine_iff {key key' : String} (hcolon : ':' ∉ key'.toList)
    (htrim : Text.trim key'.toList = key'.toList) (value : List Char) :
    HasKey key (fieldLine key' value) ↔ Metadata.sameKey key' key = true := by
  rw [fieldLine, hasKey_append_iff hcolon, htrim, String.ofList_toList]

/-- The end of a line is no part of its key. -/
theorem hasKey_of_body {l : Line} {key : String} (h : HasKey key l.body) : HasKey key l.text := by
  obtain ⟨name, value, hline, hname, hkey⟩ := h
  have hcolon : ':' ∉ l.ending := Line.notMem_ending (by decide)
  rcases List.append_eq_append_iff.mp hline with ⟨back, -, hback⟩ | ⟨back, hback, hvalue⟩
  · exact absurd (by simp [hback]) hcolon
  · cases back with
    | nil =>
        rw [List.nil_append] at hvalue
        exact absurd (hvalue ▸ List.mem_cons_self) hcolon
    | cons c back =>
        obtain ⟨rfl, -⟩ := List.cons.inj hvalue
        exact ⟨name, back, hback, hname, hkey⟩

theorem hasKey_of_entry {l : Line} {key : String} {e : String × String}
    (h : Metadata.entry? l.body = some e) (hkey : Metadata.sameKey e.1 key = true) :
    HasKey key l.text := by
  obtain ⟨name, rest, hline, hname, -, hk, -⟩ := Metadata.entry?_eq_some_iff.mp h
  rw [hk] at hkey
  exact hasKey_of_body ⟨name, rest, hline, hname, hkey⟩

/-- A line that starts with a key and a colon has the key. -/
theorem hasKey_of_isPrefixOf {l : Line} (name : List Char) (hname : ':' ∉ name)
    (htrim : Text.trim name = name) (h : (name ++ [':']).isPrefixOf l.body = true) :
    HasKey (.ofList name) l.text := by
  obtain ⟨rest, hrest⟩ := List.isPrefixOf_iff_prefix.mp h
  apply hasKey_of_body
  refine ⟨name, rest, by simp [← hrest], hname, ?_⟩
  rw [htrim]
  exact Metadata.sameKey_refl _

/-! ## The line that is found -/

variable {lines : List Line}

/-- Whatever is found has what all have that could be found. -/
theorem exists_find?_of_forall {α : Type} {p : α → Bool} {P : α → Prop} {xs : List α}
    (hex : ∃ x ∈ xs, p x = true) (h : ∀ x ∈ xs, p x = true → P x) :
    ∃ x, xs.find? p = some x ∧ P x := by
  obtain ⟨x, hx⟩ := Option.isSome_iff_exists.mp (List.find?_isSome.mpr hex)
  exact ⟨x, hx, h x (List.mem_of_find?_eq_some hx) (List.find?_some hx)⟩

theorem mem_entries_parse_ofLines (h : ∀ l ∈ lines, '\n' ∉ l.text) {e : String × String} :
    e ∈ (Metadata.parse (ofLines lines)).entries ↔
      ∃ l ∈ lines, Metadata.entry? l.body = some e := by
  have hempty : Metadata.entry? [] = none := rfl
  simp [Metadata.parse, splitOn_ofLines h, hempty]

/-- The value of a key that some line has, if all lines with the key agree on `P`. -/
theorem exists_get?_ofLines {key : String} {P : String → Prop}
    (h : ∀ l ∈ lines, '\n' ∉ l.text)
    (hex : ∃ l ∈ lines, ∃ e, Metadata.entry? l.body = some e ∧ Metadata.sameKey e.1 key = true)
    (hP : ∀ l ∈ lines, HasKey key l.text → ∀ e, Metadata.entry? l.body = some e → P e.2) :
    ∃ value, (Metadata.parse (ofLines lines)).get? key = some value ∧ P value := by
  have hfound : ∃ e, (Metadata.parse (ofLines lines)).entries.find?
      (fun e => Metadata.sameKey e.1 key) = some e ∧ P e.2 := by
    apply exists_find?_of_forall
    · obtain ⟨l, hl, e, he, hkey⟩ := hex
      exact ⟨e, (mem_entries_parse_ofLines h).mpr ⟨l, hl, he⟩, hkey⟩
    · intro e hmem hkey
      obtain ⟨l, hl, he⟩ := (mem_entries_parse_ofLines h).mp hmem
      exact hP l hl (hasKey_of_entry he hkey) e he
  obtain ⟨e, hfind, he⟩ := hfound
  exact ⟨e.2, by rw [Metadata.get?, hfind, Option.map_some], he⟩

/-- The plural rule of a header in which all lines for plural forms have the same. -/
theorem pluralSource?_ofLines {source : String} (h : ∀ l ∈ lines, '\n' ∉ l.text)
    (hex : ∃ l ∈ lines, "Plural-Forms:".toList.isPrefixOf l.body = true)
    (hsource : ∀ l ∈ lines, HasKey "Plural-Forms" l.text →
      ruleOfLine? l.body = some source.toList) :
    pluralSource? (ofLines lines) = some source := by
  have hfound : ∃ line, (lines.map Line.body ++ [[]]).find?
      (fun line => "Plural-Forms:".toList.isPrefixOf line) = some line ∧
        ruleOfLine? line = some source.toList := by
    apply exists_find?_of_forall
    · obtain ⟨l, hl, hprefix⟩ := hex
      exact ⟨l.body, List.mem_append_left _ (List.mem_map_of_mem hl), hprefix⟩
    · intro line hline hprefix
      rcases List.mem_append.mp hline with hline | hline
      · obtain ⟨l, hl, rfl⟩ := List.mem_map.mp hline
        exact hsource l hl
          (hasKey_of_isPrefixOf "Plural-Forms".toList (by decide) (by decide) hprefix)
      · obtain rfl := List.mem_singleton.mp hline
        cases hprefix
  obtain ⟨line, hfind, hrule⟩ := hfound
  rw [pluralSource?, splitOn_ofLines h, hfind]
  simp [hrule]

end MessageCatalog.Header
