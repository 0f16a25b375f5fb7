import MessageCatalog.Proofs.Catalog.Families
import MessageCatalog.Proofs.Catalog.Writing

/-! # What is displayed

Every answer is a text that the catalog supplies or else the caller's own. A message counts as
translated by its first string, which is therefore never empty when it is shown. The rule may select
another string, and that one is shown as it is.
-/

namespace MessageCatalog.Catalog

open Bytes Plural

variable {c : Catalog} {context msgid plural text fallback : String} {n : Int32}
  {key cluster : List UInt8}

/-! ## Texts that a catalog supplies -/

/-- The first string of a translated message, if it is a text. -/
def text? (c : Catalog) (msgid : String) : Option String :=
  (c.singular? (Text.encode msgid)).bind Text.decode?

/-- The string that the rule selects for `n`, if there is one and it is a text. -/
def pluralText? (c : Catalog) (msgid : String) (n : Int32) : Option String :=
  (c.variant? (Text.encode msgid) n).toOption.join.bind Text.decode?

theorem gettext_eq_getD (c : Catalog) (msgid : String) :
    c.gettext msgid = (c.text? msgid).getD msgid :=
  rfl

theorem pgettext_eq_getD (c : Catalog) (context msgid : String) :
    c.pgettext context msgid = (c.text? (contextKey context msgid)).getD msgid :=
  rfl

theorem npgettext_eq_getD (c : Catalog) (context msgid plural : String) (n : Int32) :
    c.npgettext context msgid plural n =
      (c.pluralText? (contextKey context msgid) n).getD (defaultForm msgid plural n) :=
  rfl

theorem ngettext_eq_getD (c : Catalog) (msgid plural : String) (n : Int32) :
    c.ngettext msgid plural n = (c.pluralText? msgid n).getD (defaultForm msgid plural n) := by
  rw [ngettext, tryNgettext, pluralText?]
  cases c.variant? (Text.encode msgid) n <;> rfl

/-- A query that reports no failure answers as the one that never does. -/
theorem ngettext_of_tryNgettext (h : c.tryNgettext msgid plural n = .ok text) :
    c.ngettext msgid plural n = text := by
  rw [ngettext, h]
  rfl

theorem text?_eq_some_iff :
    c.text? msgid = some text ↔ ∃ cluster, c.Translates (Text.encode msgid) cluster ∧
      IsSegment cluster 0 (Text.encode text) := by
  simp only [text?, singular?, Option.bind_eq_some_iff, Option.map_eq_some_iff,
    cluster?_eq_some_iff, Text.decode?_eq_some_iff, isSegment_zero_iff]
  constructor
  · rintro ⟨first, ⟨cluster, hm, hfirst⟩, htext⟩
    exact ⟨cluster, hm, htext.trans hfirst.symm⟩
  · rintro ⟨cluster, hm, htext⟩
    exact ⟨leading cluster, ⟨cluster, hm, rfl⟩, htext⟩

theorem pluralText?_eq_some_iff :
    c.pluralText? msgid n = some text ↔ c.Selects (Text.encode msgid) n (Text.encode text) := by
  rw [← variant?_eq_ok_some_iff, pluralText?]
  simp only [Option.bind_eq_some_iff, Option.join_eq_some_iff, Text.decode?_eq_some_iff]
  cases c.variant? (Text.encode msgid) n <;> simp [Except.toOption]

/-! ## Empty answers -/

theorem Translates.first_ne_nil (h : c.Translates key cluster) : ¬ IsSegment cluster 0 [] := by
  obtain ⟨i, -, -, first, hfirst, hne⟩ := h
  rw [isSegment_zero_iff] at hfirst ⊢
  rw [← hfirst]
  exact hne.symm

/-- The first string of a translated message is not empty. -/
theorem text?_ne_empty (c : Catalog) (msgid : String) : c.text? msgid ≠ some "" := by
  intro h
  obtain ⟨cluster, hm, hfirst⟩ := text?_eq_some_iff.mp h
  exact hm.first_ne_nil hfirst

/-- The rule selects an empty string of a message that is found and translated. It stands behind the
first one, which is not empty. -/
def SelectsBlank (c : Catalog) (msgid : List UInt8) (n : Int32) : Prop :=
  ∃ cluster rule k, ∃ i : Nat, c.Translates msgid cluster ∧ c.rule = some rule ∧
    rule.eval n = .ok k ∧ k.toInt = i ∧ 0 < i ∧ IsSegment cluster i []

theorem selects_nil_iff : c.Selects key n [] ↔ c.SelectsBlank key n := by
  constructor
  · rintro ⟨cluster, rule, k, i, hm, hr, hk, hi, hs⟩
    have hpos : 0 < i := by
      rcases Nat.eq_zero_or_pos i with rfl | hpos
      · exact absurd hs hm.first_ne_nil
      · exact hpos
    exact ⟨cluster, rule, k, i, hm, hr, hk, hi, hpos, hs⟩
  · rintro ⟨cluster, rule, k, i, hm, hr, hk, hi, -, hs⟩
    exact ⟨cluster, rule, k, i, hm, hr, hk, hi, hs⟩

theorem pluralText?_eq_empty_iff :
    c.pluralText? msgid n = some "" ↔ c.SelectsBlank (Text.encode msgid) n := by
  rw [pluralText?_eq_some_iff, ← selects_nil_iff]
  rfl

/-- A caller with words of his own shows nothing only if nothing is supplied as a text. -/
theorem getD_eq_empty_iff {supplied : Option String} (h : fallback ≠ "") :
    supplied.getD fallback = "" ↔ supplied = some "" := by
  cases supplied with
  | none => simp [h]
  | some text => simp

theorem defaultForm_ne_empty (hmsgid : msgid ≠ "") (hplural : plural ≠ "") (n : Int32) :
    defaultForm msgid plural n ≠ "" := by
  rw [defaultForm]
  split
  · exact hmsgid
  · exact hplural

theorem tryNgettext_eq_empty_iff (hmsgid : msgid ≠ "") (hplural : plural ≠ "") :
    c.tryNgettext msgid plural n = .ok "" ↔ c.pluralText? msgid n = some "" := by
  have hdefault := defaultForm_ne_empty hmsgid hplural n
  rw [← getD_eq_empty_iff hdefault, ← ngettext_eq_getD]
  refine ⟨ngettext_of_tryNgettext, ?_⟩
  intro h
  cases ht : c.tryNgettext msgid plural n with
  | ok text => rw [← ngettext_of_tryNgettext ht, h]
  | error e =>
      rw [ngettext, ht] at h
      exact absurd h hdefault

/-- A caller with words of his own is shown something, unless the rule selects an empty string. The
answers for a single message are never empty. Those for a count are empty exactly if the message is
found and translated, so that its first string is not empty, and the rule gives the place of an empty
string behind that. Where no string is selected that is a text, the caller's own words are shown. -/
theorem blank_answer_iff (c : Catalog) {msgid plural : String} (hmsgid : msgid ≠ "")
    (hplural : plural ≠ "") (context : String) (n : Int32) :
    let key := Text.encode (context ++ "\x04" ++ msgid)
    let fallback := if n = 1 then msgid else plural
    c.gettext msgid ≠ "" ∧ c.pgettext context msgid ≠ "" ∧
    (c.ngettext msgid plural n = "" ↔ c.SelectsBlank (Text.encode msgid) n) ∧
    (c.tryNgettext msgid plural n = .ok "" ↔ c.SelectsBlank (Text.encode msgid) n) ∧
    (c.npgettext context msgid plural n = "" ↔ c.SelectsBlank key n) ∧
    ((∀ text, ¬ c.Selects (Text.encode msgid) n (Text.encode text)) →
      c.ngettext msgid plural n = fallback ∧
        ∀ text, c.tryNgettext msgid plural n = .ok text → text = fallback) ∧
    ((∀ text, ¬ c.Selects key n (Text.encode text)) →
      c.npgettext context msgid plural n = fallback) := by
  intro key fallback
  have hdefault : defaultForm msgid plural n ≠ "" := defaultForm_ne_empty hmsgid hplural n
  have hsingle (msgid' : String) : (c.text? msgid').getD msgid ≠ "" := by
    rw [Ne, getD_eq_empty_iff hmsgid]
    exact c.text?_ne_empty msgid'
  have hnone {msgid' : String} (h : ∀ text, ¬ c.Selects (Text.encode msgid') n (Text.encode text)) :
      (c.pluralText? msgid' n).getD (defaultForm msgid plural n) = fallback := by
    rw [Option.eq_none_iff_forall_ne_some.mpr fun text ht => h text (pluralText?_eq_some_iff.mp ht)]
    rfl
  refine ⟨?_, ?_, ?_, ?_, ?_, ?_, hnone⟩
  · rw [gettext_eq_getD]
    exact hsingle msgid
  · rw [pgettext_eq_getD]
    exact hsingle (contextKey context msgid)
  · rw [ngettext_eq_getD, getD_eq_empty_iff hdefault, pluralText?_eq_empty_iff]
  · rw [tryNgettext_eq_empty_iff hmsgid hplural, pluralText?_eq_empty_iff]
  · rw [npgettext_eq_getD, getD_eq_empty_iff hdefault, pluralText?_eq_empty_iff, contextKey]
  · intro h
    have hanswer : c.ngettext msgid plural n = fallback := by rw [ngettext_eq_getD, hnone h]
    refine ⟨hanswer, ?_⟩
    intro text ht
    rw [← hanswer, ngettext_of_tryNgettext ht]

/-- A catalog with one message that has a singular and an empty plural. -/
def halfTranslated : Array UInt8 :=
  (Writer.write .little (Text.encode Writer.pluralHeader) [⟨[97], [65, 0]⟩]).toArray

theorem exists_load_halfTranslated :
    ∃ c, loadWith {} halfTranslated = .ok c ∧ c.SelectsBlank (Text.encode "a") 2 := by
  have h : (loadWith {} halfTranslated).map (fun c => c.variant? (Text.encode "a") 2) =
      .ok (.ok (some [])) := by
    decide +kernel
  obtain ⟨c, hc, hvariant⟩ := Fallible.map_eq_ok_iff.mp h
  exact ⟨c, hc, selects_nil_iff.mp (variant?_eq_ok_some_iff.mp hvariant)⟩

theorem blank_answer_halfTranslated :
    ∃ c, loadWith {} halfTranslated = .ok c ∧ "a" ≠ "" ∧ "as" ≠ "" ∧ c.gettext "a" ≠ "" ∧
      c.tryNgettext "a" "as" 2 = .ok "" := by
  obtain ⟨c, hc, hblank⟩ := exists_load_halfTranslated
  have hanswers := c.blank_answer_iff (by decide : "a" ≠ "") (by decide : "as" ≠ "") "" 2
  exact ⟨c, hc, by decide, by decide, hanswers.1, hanswers.2.2.2.1.mpr hblank⟩

/-- A plural that was left empty is shown as it is, and not as the caller's own words. -/
theorem ngettext_halfTranslated :
    ∃ c, loadWith {} halfTranslated = .ok c ∧ c.ngettext "a" "as" 2 = "" := by
  obtain ⟨c, hc, hblank⟩ := exists_load_halfTranslated
  refine ⟨c, hc, ?_⟩
  rw [ngettext_eq_getD, pluralText?_eq_empty_iff.mpr hblank]
  rfl

end MessageCatalog.Catalog
