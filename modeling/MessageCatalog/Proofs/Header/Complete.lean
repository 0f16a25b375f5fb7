import MessageCatalog.Proofs.Catalog.Writing
import MessageCatalog.Proofs.Header.Lines
import MessageCatalog.Proofs.Plural.Recompiling

/-! # Headers that are read back

A header that names its character set, its number of plural forms and its rule, each of them once, is
read as it was written: wherever these lines stand and however lines end, the three searches that go
over the header come to the right places in it.
-/

namespace MessageCatalog

open Plural

/-! ## Characters of a rule -/

namespace Plural

/-- The characters that rules are printed with. -/
def isRuleChar (c : Char) : Bool :=
  c.isDigit || "n()?: !~-+*/%<>=&|^".toList.contains c

theorem all_isRuleChar_toDigits (k : Nat) : (Nat.toDigits 10 k).all isRuleChar = true := by
  rw [List.all_eq_true]
  intro c hc
  rw [isRuleChar, Nat.isDigit_of_mem_toDigits (by decide) (by decide) hc, Bool.true_or]

theorem all_isRuleChar_literalText (v : Int32) : (literalText v).all isRuleChar = true := by
  unfold literalText
  split
  · exact all_isRuleChar_toDigits _
  · rw [List.all_cons, all_isRuleChar_toDigits]
    rfl

namespace Expr

theorem all_isRuleChar_renderOnto (e : Expr) (rest : List Char) :
    (e.renderOnto rest).all isRuleChar = rest.all isRuleChar := by
  induction e generalizing rest with
  | literal value => simp [renderOnto, all_isRuleChar_literalText]
  | count => rfl
  | unary op e ih =>
      have hop : op.text.toList.all isRuleChar = true := by cases op <;> decide
      simp [renderOnto, ih, hop, isRuleChar]
  | binary op l r hl hr =>
      have hop : op.text.toList.all isRuleChar = true := by cases op <;> decide
      simp [renderOnto, hl, hr, hop, isRuleChar]
  | division op l r hl hr =>
      have hop : op.text.toList.all isRuleChar = true := by cases op <;> decide
      simp [renderOnto, hl, hr, hop, isRuleChar]
  | conditional c t e hc ht he =>
      simp [renderOnto, hc, ht, he, isRuleChar]

theorem isRuleChar_of_mem_render {e : Expr} {c : Char} (h : c ∈ e.render.toList) :
    isRuleChar c = true := by
  rw [render, String.toList_ofList] at h
  exact List.all_eq_true.mp (e.all_isRuleChar_renderOnto []) c h

/-- No rule is printed as blanks only. -/
theorem all_isBlank_render (e : Expr) : e.render.toList.all Text.isBlank = false := by
  rw [render, String.toList_ofList]
  cases e with
  | literal value =>
      unfold renderOnto literalText
      split
      · next k _ =>
          obtain ⟨c, digits, hs, hc, -⟩ := exists_toDigits k
          simp [hs, Text.isBlank_of_isDigit hc]
      · rfl
  | _ => rfl

end Expr

end Plural

namespace Header

/-! ## The line of the content type -/

/-- A name that a content type can end with: nothing in it ends a parameter. -/
structure CharsetName (charset : String) : Prop where
  nonempty : charset ≠ ""
  unbroken : ∀ c ∈ charset.toList, c ≠ ';' ∧ Text.isBlank c = false

theorem CharsetName.toList_ne_nil {charset : String} (h : CharsetName charset) :
    charset.toList ≠ [] :=
  fun he => h.nonempty (String.toList_eq_nil_iff.mp he)

def contentTypeLine (charset : String) : List Char :=
  fieldLine "Content-Type" ("text/plain; charset=".toList ++ charset.toList)

theorem trim_contentType {charset : String} (h : CharsetName charset) (l : Line) :
    Text.trim ("text/plain; charset=".toList ++ charset.toList ++ l.ending) =
      "text/plain; charset=".toList ++ charset.toList := by
  obtain ⟨init, last, hlast⟩ :=
    (List.eq_nil_or_concat' charset.toList).resolve_left h.toList_ne_nil
  have hblank : Text.isBlank last = false := (h.unbroken last (by simp [hlast])).2
  rw [List.append_assoc, Text.trim_append (by decide), hlast, List.append_assoc,
    ← List.append_assoc, List.singleton_append, Text.trimEnd_append_cons hblank,
    Text.trimEnd_of_blank fun c hc => Line.isBlank_of_mem_ending hc, List.append_assoc]
  rfl

theorem entry?_contentType {charset : String} (h : CharsetName charset) {l : Line}
    (hl : l.text = contentTypeLine charset) :
    Metadata.entry? l.body =
      some ("Content-Type", .ofList ("text/plain; charset=".toList ++ charset.toList)) := by
  rw [Line.body, hl, contentTypeLine, entry?_fieldLine (by decide) (by decide) (by decide),
    trim_contentType h]

theorem charset?_eq_some {m : Metadata} {charset : String} (h : CharsetName charset)
    (hm : m.get? "Content-Type" =
      some (.ofList ("text/plain; charset=".toList ++ charset.toList))) :
    m.charset? = some charset := by
  have hafter : Text.after? "charset=".toList
      ("text/plain; charset=".toList ++ charset.toList) = some charset.toList := by
    have hmarker : "charset=".toList = 'c' :: "harset=".toList := by decide
    have hvalue : "text/plain; charset=".toList = "text/plain; ".toList ++ "charset=".toList := by
      decide
    rw [hvalue, List.append_assoc, hmarker, Text.after?_append_of_notMem (by decide)]
    exact Text.after?_append_self _ _
  have htake : (charset.toList.takeWhile fun c => c != ';' && !Text.isBlank c) =
      charset.toList := by
    rw [← List.append_nil charset.toList, List.takeWhile_append_of_pos, List.takeWhile_nil]
    intro c hc
    simpa using h.unbroken c hc
  simp only [Metadata.charset?, hm, Option.bind_eq_bind, Option.bind_some, String.toList_ofList,
    hafter, htake, h.toList_ne_nil, if_false, String.ofList_toList]

/-! ## The line of the plural forms -/

def pluralFormsLine (count : UInt64) (e : Expr) (semicolon : Bool) : List Char :=
  fieldLine "Plural-Forms" ("nplurals=".toList ++ Nat.toDigits 10 count.toNat ++
    "; plural=".toList ++ e.render.toList ++ if semicolon then [';'] else [])

variable {count : UInt64} {e : Expr} {semicolon : Bool}

theorem isDigit_of_mem_count {c : Char} (h : c ∈ Nat.toDigits 10 count.toNat) : c.isDigit = true :=
  Nat.isDigit_of_mem_toDigits (by decide) (by decide) h

/-- The number ends at a semicolon, whatever trimming leaves behind that. -/
theorem entry?_pluralForms {l : Line} (hl : l.text = pluralFormsLine count e semicolon) :
    ∃ rest, Metadata.entry? l.body = some ("Plural-Forms",
      .ofList ("nplurals=".toList ++ (Nat.toDigits 10 count.toNat ++ ';' :: rest))) := by
  have hmark : "; plural=".toList = ';' :: " plural=".toList := by decide
  rw [Line.body, hl, pluralFormsLine, entry?_fieldLine (by decide) (by decide) (by decide), hmark]
  simp only [List.append_assoc, List.cons_append]
  rw [Text.trim_append (by decide), ← List.append_assoc, Text.trimEnd_append_cons (by decide),
    List.append_assoc]
  exact ⟨_, rfl⟩

theorem pluralCount?_eq_some {m : Metadata} {rest : List Char}
    (hm : m.get? "Plural-Forms" =
      some (.ofList ("nplurals=".toList ++ (Nat.toDigits 10 count.toNat ++ ';' :: rest)))) :
    m.pluralCount? = some count := by
  have htake : (Nat.toDigits 10 count.toNat ++ ';' :: rest).takeWhile Char.isDigit =
      Nat.toDigits 10 count.toNat :=
    takeWhile_digits (fun _ => isDigit_of_mem_count) (noDigit_cons (by decide) rest)
  simp only [Metadata.pluralCount?, hm, Option.bind_eq_bind, Option.bind_some, String.toList_ofList,
    Text.after?_append_self, htake]
  exact Text.unsigned?_toDigits count

/-- The marker of the rule is not found in that of the number, which only lacks the right end. -/
theorem after?_pluralForms (rest : List Char) :
    Text.after? "plural=".toList
      (fieldLine "Plural-Forms" ("nplurals=".toList ++ Nat.toDigits 10 count.toNat ++
        "; plural=".toList ++ rest)) = some rest := by
  have hmarker : "plural=".toList = 'p' :: "lural=".toList := by decide
  have hcount : "nplurals=".toList = 'n' :: 'p' :: "lurals=".toList := by decide
  have hrule : "; plural=".toList = "; ".toList ++ "plural=".toList := by decide
  -- No marker starts between the one that fails at its last letter and the right one.
  have hp : 'p' ∉ "lurals=".toList ++ Nat.toDigits 10 count.toNat ++ "; ".toList := by
    simp only [List.mem_append, not_or]
    refine ⟨⟨by decide, fun h => ?_⟩, by decide⟩
    exact absurd (isDigit_of_mem_count h) (by decide)
  have hline : fieldLine "Plural-Forms" ("nplurals=".toList ++ Nat.toDigits 10 count.toNat ++
        "; plural=".toList ++ rest) =
      ("Plural-Forms".toList ++ [':', ' ', 'n']) ++ 'p' :: ("lurals=".toList ++
        Nat.toDigits 10 count.toNat ++ "; ".toList ++ ("plural=".toList ++ rest)) := by
    rw [fieldLine, hcount, hrule]
    simp only [List.append_assoc, List.cons_append, List.nil_append]
  rw [hline, hmarker, Text.after?_append_of_notMem (by decide), Text.after?_cons_of_not_prefix rfl,
    Text.after?_append_of_notMem hp]
  exact Text.after?_append_self _ _

theorem ruleOfLine?_pluralForms {l : Line} (hl : l.text = pluralFormsLine count e semicolon) :
    ruleOfLine? l.body = some e.render.toList := by
  have hinside : ∀ c ∈ e.render.toList, (c != ';' && c != '\r') = true := by
    intro c hc
    have hrule := Expr.isRuleChar_of_mem_render hc
    have hne : c ≠ ';' ∧ c ≠ '\r' := by
      constructor <;> rintro rfl <;> cases hrule
    simpa using hne
  have hstop : ((if semicolon then [';'] else []) ++ l.ending).takeWhile
      (fun c => c != ';' && c != '\r') = [] := by
    rw [Line.ending]
    cases semicolon <;> cases l.carriageReturn <;> rfl
  have hbody : l.body = fieldLine "Plural-Forms" ("nplurals=".toList ++
      Nat.toDigits 10 count.toNat ++ "; plural=".toList ++
        (e.render.toList ++ ((if semicolon then [';'] else []) ++ l.ending))) := by
    rw [Line.body, hl, pluralFormsLine, fieldLine, fieldLine]
    simp only [List.append_assoc, List.cons_append]
  simp only [ruleOfLine?, hbody, after?_pluralForms, Option.bind_eq_bind, Option.bind_some,
    List.takeWhile_append_of_pos hinside, hstop, List.append_nil, Option.pure_def]

/-! ## Complete headers -/

/-- A line that has nothing to do with character sets and plural forms. This rules out in particular
that it starts with `Plural-Forms:`. -/
structure Unrelated (line : List Char) : Prop where
  noBreak : '\n' ∉ line
  contentType : ¬ HasKey "Content-Type" line
  pluralForms : ¬ HasKey "Plural-Forms" line

/-- The lines name a character set, a number of plural forms and a rule, each of them once, in any
place among lines that have nothing to do with these. -/
structure Complete (charset : String) (count : UInt64) (e : Expr) (lines : List Line) : Prop where
  name : CharsetName charset
  arranged : ∃ others semicolon, (∀ line ∈ others, Unrelated line) ∧
    (lines.map Line.text).Perm
      (contentTypeLine charset :: pluralFormsLine count e semicolon :: others)

namespace Complete

variable {charset : String} {lines : List Line}

theorem exists_lines (h : Complete charset count e lines) :
    ∃ semicolon, (∃ l ∈ lines, l.text = contentTypeLine charset) ∧
      (∃ l ∈ lines, l.text = pluralFormsLine count e semicolon) ∧
      ∀ l ∈ lines, l.text = contentTypeLine charset ∨
        l.text = pluralFormsLine count e semicolon ∨ Unrelated l.text := by
  obtain ⟨others, semicolon, hothers, hperm⟩ := h.arranged
  have hmem (text : List Char) : (∃ l ∈ lines, l.text = text) ↔
      text = contentTypeLine charset ∨ text = pluralFormsLine count e semicolon ∨ text ∈ others := by
    rw [← List.mem_map, hperm.mem_iff, List.mem_cons, List.mem_cons]
  refine ⟨semicolon, (hmem _).mpr (.inl rfl), (hmem _).mpr (.inr (.inl rfl)), ?_⟩
  intro l hl
  exact ((hmem l.text).mp ⟨l, hl, rfl⟩).imp_right (Or.imp_right (hothers l.text))

theorem noBreak (h : Complete charset count e lines) : ∀ l ∈ lines, '\n' ∉ l.text := by
  obtain ⟨semicolon, -, -, hall⟩ := h.exists_lines
  intro l hl hbreak
  rcases hall l hl with hl | hl | hl
  · rw [hl, contentTypeLine, fieldLine] at hbreak
    have hcharset : '\n' ∈ charset.toList := by simpa using hbreak
    exact absurd (h.name.unbroken _ hcharset).2 (by decide)
  · have hbreak : '\n' ∈ Nat.toDigits 10 count.toNat ∨ '\n' ∈ e.render.toList := by
      rw [hl, pluralFormsLine, fieldLine] at hbreak
      cases semicolon <;> simpa using hbreak
    rcases hbreak with hdigit | hrule
    · cases isDigit_of_mem_count hdigit
    · cases Expr.isRuleChar_of_mem_render hrule
  · exact hl.noBreak hbreak

theorem charset? (h : Complete charset count e lines) :
    (Metadata.parse (ofLines lines)).charset? = some charset := by
  obtain ⟨semicolon, ⟨l, hl, htext⟩, -, hall⟩ := h.exists_lines
  have hget : ∃ value, (Metadata.parse (ofLines lines)).get? "Content-Type" = some value ∧
      value = .ofList ("text/plain; charset=".toList ++ charset.toList) := by
    apply exists_get?_ofLines h.noBreak
    · exact ⟨l, hl, _, entry?_contentType h.name htext, Metadata.sameKey_refl _⟩
    · intro l hl hkey value hvalue
      rcases hall l hl with hl | hl | hl
      · rw [entry?_contentType h.name hl] at hvalue
        obtain rfl := Option.some.inj hvalue
        rfl
      · rw [hl, pluralFormsLine, hasKey_fieldLine_iff (by decide) (by decide)] at hkey
        exact absurd hkey (by decide)
      · exact absurd hkey hl.contentType
  obtain ⟨value, hget, rfl⟩ := hget
  exact charset?_eq_some h.name hget

theorem pluralCount? (h : Complete charset count e lines) :
    (Metadata.parse (ofLines lines)).pluralCount? = some count := by
  obtain ⟨semicolon, -, ⟨l, hl, htext⟩, hall⟩ := h.exists_lines
  have hget : ∃ value, (Metadata.parse (ofLines lines)).get? "Plural-Forms" = some value ∧
      ∃ rest, value =
        .ofList ("nplurals=".toList ++ (Nat.toDigits 10 count.toNat ++ ';' :: rest)) := by
    apply exists_get?_ofLines h.noBreak
    · obtain ⟨rest, hentry⟩ := entry?_pluralForms htext
      exact ⟨l, hl, _, hentry, Metadata.sameKey_refl _⟩
    · intro l hl hkey value hvalue
      rcases hall l hl with hl | hl | hl
      · rw [hl, contentTypeLine, hasKey_fieldLine_iff (by decide) (by decide)] at hkey
        exact absurd hkey (by decide)
      · obtain ⟨rest, hentry⟩ := entry?_pluralForms hl
        rw [hentry] at hvalue
        obtain rfl := Option.some.inj hvalue
        exact ⟨rest, rfl⟩
      · exact absurd hkey hl.pluralForms
  obtain ⟨value, hget, rest, rfl⟩ := hget
  exact pluralCount?_eq_some hget

theorem pluralSource? (h : Complete charset count e lines) :
    pluralSource? (ofLines lines) = some e.render := by
  obtain ⟨semicolon, -, ⟨l, hl, htext⟩, hall⟩ := h.exists_lines
  apply pluralSource?_ofLines h.noBreak
  · refine ⟨l, hl, ?_⟩
    rw [Line.body, htext, pluralFormsLine, fieldLine]
    rfl
  · intro l hl hkey
    rcases hall l hl with hl | hl | hl
    · rw [hl, contentTypeLine, hasKey_fieldLine_iff (by decide) (by decide)] at hkey
      exact absurd hkey (by decide)
    · exact ruleOfLine?_pluralForms hl
    · exact absurd hkey hl.pluralForms

end Complete

end Header

namespace Catalog

open Bytes Layout Header

/-- A well-formed container whose rule compiles loads with what is read off its header. -/
theorem exists_loadWith_of_header {settings : Settings} {order : ByteOrder} {data : Array UInt8}
    {rule : Option Expr} (h : WellFormed settings order data)
    (hrule : ruleOfHeader settings (headerText order data) = .ok rule) :
    ∃ c, loadWith settings data = .ok c ∧ c.metadata = .parse (headerText order data) ∧
      c.rule = rule := by
  obtain ⟨l, rfl, hl⟩ := exists_load_eq_ok h (exists_ruleOfHeader_iff.mp ⟨rule, hrule⟩)
  obtain ⟨-, -, -, hmeta, hrule'⟩ := load_eq_ok_iff.mp hl
  exact ⟨⟨data, l⟩, by rw [loadWith, hl]; rfl, hmeta, Except.ok.inj (hrule'.symm.trans hrule)⟩

/-- A complete header is read back as it was written, with the rule that its text was printed from. -/
theorem complete_header_read_back {settings : Settings} {order : ByteOrder} {data : Array UInt8}
    {lines : List Line} {charset : String} {count : UInt64} {e : Expr}
    (hw : WellFormed settings order data) (hheader : headerText order data = ofLines lines)
    (hlines : Complete charset count e lines) (hliterals : ∀ v ∈ e.literals, 0 ≤ v)
    (hcompiles : ∃ e', Expr.parseWithin settings.maxExpressionDepth.toNat e.render = .ok e') :
    ∃ c, loadWith settings data = .ok c ∧ c.charset? = some charset ∧
      c.pluralCount? = some count ∧ c.rule = some e := by
  obtain ⟨e', he⟩ := hcompiles
  obtain rfl : e' = e := ((Expr.parseWithin_render_iff_of_nonneg hliterals).mp he).2.2
  have hrule : ruleOfHeader settings (headerText order data) = .ok (some e') := by
    rw [hheader, ruleOfHeader, hlines.pluralSource?]
    simp only [Expr.parseOptional, e'.all_isBlank_render, Bool.false_eq_true, if_false, he]
    rfl
  obtain ⟨c, hc, hmeta, hc'⟩ := exists_loadWith_of_header hw hrule
  rw [hheader] at hmeta
  refine ⟨c, hc, ?_, ?_, hc'⟩
  · rw [charset?, hmeta, hlines.charset?]
  · rw [pluralCount?, hmeta, hlines.pluralCount?]

def germanicRule : Expr :=
  .binary .ne .count (.literal 1)

/-- Lines with either end, and an empty one among them. -/
def germanicLines : List Line :=
  [⟨fieldLine "Language" "de".toList, false⟩, ⟨pluralFormsLine 2 germanicRule true, true⟩,
    ⟨[], true⟩, ⟨contentTypeLine "UTF-8", false⟩]

theorem complete_germanicLines : Complete "UTF-8" 2 germanicRule germanicLines where
  name := by
    have hall : ("UTF-8".toList.all fun c => c != ';' && !Text.isBlank c) = true := by decide
    exact ⟨by decide, fun c hc => by simpa using List.all_eq_true.mp hall c hc⟩
  arranged := by
    refine ⟨[fieldLine "Language" "de".toList, []], true, ?_, ?_⟩
    · intro line hline
      rcases List.mem_cons.mp hline with rfl | hline
      · refine ⟨by decide, ?_, ?_⟩ <;>
        · rw [hasKey_fieldLine_iff (by decide) (by decide)]
          decide
      · obtain rfl := List.mem_singleton.mp hline
        exact ⟨by decide, by simp [HasKey], by simp [HasKey]⟩
    · decide +kernel

theorem complete_header_read_back_germanic :
    let data := (Writer.write .big (Text.encode (ofLines germanicLines)) []).toArray
    WellFormed {} .big data ∧ headerText .big data = ofLines germanicLines ∧
      ∃ c, loadWith {} data = .ok c ∧ c.charset? = some "UTF-8" ∧ c.pluralCount? = some 2 ∧
        c.rule = some germanicRule := by
  intro data
  have hsize : (Writer.write .big (Text.encode (ofLines germanicLines)) []).length < 0x80000000 := by
    decide +kernel
  have hw : WellFormed {} .big data :=
    (Writer.wellFormed_write_iff hsize).mpr ⟨fun _ => rfl, fun _ => ⟨by simp, by simp⟩⟩
  have hheader : headerText .big data = ofLines germanicLines := Writer.headerText_write hsize
  have hliterals : ∀ v ∈ germanicRule.literals, 0 ≤ v := by
    intro v hv
    obtain rfl := List.mem_singleton.mp hv
    decide
  have hcompiles : ∃ e', Expr.parseWithin 64 germanicRule.render = .ok e' := by
    refine ⟨germanicRule, (Expr.parseWithin_render_iff_of_nonneg hliterals).mpr ?_⟩
    exact ⟨by decide, by decide, rfl⟩
  exact ⟨hw, hheader,
    complete_header_read_back hw hheader complete_germanicLines hliterals hcompiles⟩

end Catalog

end MessageCatalog
