import MessageCatalog.Proofs.Catalog.Selection

/-! # Families of queries

Queries come for bytes and for text, with failures reported or not, and with or without a context.
All of them look up the same strings. What is asked for as text is the text that those bytes spell,
and where they spell none, or none are found, the caller's own words stand in, without the context
that the message was looked up under.
-/

namespace MessageCatalog

open Bytes Plural

namespace Text

variable {bytes : List UInt8} {fallback text : String}

/-- `text` is the text that the bytes spell, or `fallback` if they are not UTF-8. -/
def ShownAs (bytes : List UInt8) (fallback text : String) : Prop :=
  (∀ t, encode t = bytes → text = t) ∧ ((∀ t, encode t ≠ bytes) → text = fallback)

theorem shownAs_getD (bytes : List UInt8) (fallback : String) :
    ShownAs bytes fallback ((decode? bytes).getD fallback) := by
  constructor
  · rintro t rfl
    simp [decode?_encode]
  · intro h
    have hnone : decode? bytes = none := by
      simpa [Option.eq_none_iff_forall_ne_some, decode?_eq_some_iff] using h
    simp [hnone]

end Text

namespace Catalog

variable {c : Catalog} {msgid plural cluster first s : List UInt8} {n k : Int32}

/-! ## Strings that are selected -/

/-- The rule, asked about a message that is found and translated, gives the place of `s` in its
msgstr. -/
def Selects (c : Catalog) (msgid : List UInt8) (n : Int32) (s : List UInt8) : Prop :=
  ∃ cluster rule k, ∃ i : Nat, c.Translates msgid cluster ∧ c.rule = some rule ∧
    rule.eval n = .ok k ∧ k.toInt = i ∧ IsSegment cluster i s

theorem variantAt?_eq_some_iff :
    variantAt? cluster k = some s ↔ ∃ i : Nat, k.toInt = i ∧ IsSegment cluster i s := by
  constructor
  · intro h
    rw [variantAt?] at h
    split at h
    · cases h
    · next hk =>
        exact ⟨k.toNatClampNeg, Int32.toInt_eq_toNatClampNeg (Int32.not_lt.mp hk),
          getElem?_segments_eq_some_iff.mp h⟩
  · rintro ⟨i, hi, hs⟩
    exact variantAt?_of_isSegment hi hs

theorem Selects.variant? (h : c.Selects msgid n s) : c.variant? msgid n = .ok (some s) := by
  rcases h with ⟨cluster, rule, k, i, hm, hr, hk, hi, hs⟩
  rw [variant?_of_translates hm hr, hk, Except.map, variantAt?_of_isSegment hi hs]

theorem variant?_eq_ok_some_iff : c.variant? msgid n = .ok (some s) ↔ c.Selects msgid n s := by
  refine ⟨?_, Selects.variant?⟩
  intro h
  cases hm : c.cluster? msgid with
  | none => simp [variant?_of_cluster?_eq_none hm] at h
  | some cluster =>
      cases hr : c.rule with
      | none => simp [variant?_of_rule_eq_none hr] at h
      | some rule =>
          have ht := cluster?_eq_some_iff.mp hm
          rw [variant?_of_translates ht hr] at h
          cases hk : rule.eval n with
          | error e => simp [hk, Except.map] at h
          | ok k =>
              rw [hk] at h
              obtain ⟨i, hi, hs⟩ := variantAt?_eq_some_iff.mp (Except.ok.inj h)
              exact ⟨cluster, rule, k, i, ht, hr, hk, hi, hs⟩

/-- Nothing is selected either where the rule fails. -/
theorem join_variant?_eq_none (h : ¬ ∃ s, c.Selects msgid n s) :
    (c.variant? msgid n).toOption.join = none := by
  cases hv : c.variant? msgid n with
  | error e => rfl
  | ok found =>
      cases found with
      | none => rfl
      | some s => exact absurd ⟨s, variant?_eq_ok_some_iff.mp hv⟩ h

theorem ngettextBytes_eq (c : Catalog) (msgid plural : List UInt8) (n : Int32) :
    c.ngettextBytes msgid plural n =
      (c.variant? msgid n).toOption.join.getD (defaultForm msgid plural n) := by
  rw [ngettextBytes, tryNgettextBytes]
  cases c.variant? msgid n <;> rfl

/-! ## Text and bytes -/

theorem encode_defaultForm (msgid plural : String) (n : Int32) :
    defaultForm (Text.encode msgid) (Text.encode plural) n =
      Text.encode (defaultForm msgid plural n) := by
  simp only [defaultForm]
  split <;> rfl

theorem gettext_eq (c : Catalog) (msgid : String) :
    c.gettext msgid = (Text.decode? (c.gettextBytes (Text.encode msgid))).getD msgid := by
  rw [gettext, gettextBytes]
  cases c.singular? (Text.encode msgid) with
  | none => simp [Text.decode?_encode]
  | some s => rfl

theorem tryNgettext_eq (c : Catalog) (msgid plural : String) (n : Int32) :
    c.tryNgettext msgid plural n =
      (c.tryNgettextBytes (Text.encode msgid) (Text.encode plural) n).map fun s =>
        (Text.decode? s).getD (defaultForm msgid plural n) := by
  rw [tryNgettext, tryNgettextBytes, encode_defaultForm]
  cases c.variant? (Text.encode msgid) n with
  | error e => rfl
  | ok found =>
      cases found with
      | none => simp [Except.map, Text.decode?_encode]
      | some s => rfl

/-! ## Messages in a context -/

theorem singular?_of_translates (hm : c.Translates msgid cluster) (hs : IsSegment cluster 0 first) :
    c.singular? msgid = some first := by
  rw [singular?, cluster?_eq_some_iff.mpr hm, isSegment_zero_iff.mp hs, Option.map_some]

theorem singular?_eq_none (h : ¬ ∃ cluster, c.Translates msgid cluster) :
    c.singular? msgid = none := by
  rw [singular?, cluster?_eq_none_iff.mpr h, Option.map_none]

/-! ## Agreement -/

/-- How the answers to the queries about `msgid` and `plural` hang together. -/
structure FamiliesAgree (c : Catalog) (context msgid plural : String) (n : Int32) : Prop where
  gettext : Text.ShownAs (c.gettextBytes (Text.encode msgid)) msgid (c.gettext msgid)
  failure : ∀ e, c.tryNgettext msgid plural n = .error e ↔
    c.tryNgettextBytes (Text.encode msgid) (Text.encode plural) n = .error e
  tryNgettext : ∀ s, c.tryNgettextBytes (Text.encode msgid) (Text.encode plural) n = .ok s →
    ∃ text, c.tryNgettext msgid plural n = .ok text ∧
      Text.ShownAs s (if n = 1 then msgid else plural) text
  ngettext_ok : ∀ text, c.tryNgettext msgid plural n = .ok text → c.ngettext msgid plural n = text
  ngettext_error : ∀ e, c.tryNgettext msgid plural n = .error e →
    c.ngettext msgid plural n = if n = 1 then msgid else plural
  /-- A message in a context is filed under the context, U+0004 and the msgid. -/
  pgettext : ∀ cluster first, c.Translates (Text.encode (context ++ "\x04" ++ msgid)) cluster →
    IsSegment cluster 0 first → Text.ShownAs first msgid (c.pgettext context msgid)
  pgettext_fallback :
    (¬ ∃ cluster, c.Translates (Text.encode (context ++ "\x04" ++ msgid)) cluster) →
      c.pgettext context msgid = msgid
  npgettext : ∀ s, c.Selects (Text.encode (context ++ "\x04" ++ msgid)) n s →
    Text.ShownAs s (if n = 1 then msgid else plural) (c.npgettext context msgid plural n)
  npgettext_fallback : (¬ ∃ s, c.Selects (Text.encode (context ++ "\x04" ++ msgid)) n s) →
    c.npgettext context msgid plural n = if n = 1 then msgid else plural

theorem familiesAgree (c : Catalog) (context msgid plural : String) (n : Int32) :
    c.FamiliesAgree context msgid plural n where
  gettext := by
    rw [gettext_eq]
    exact Text.shownAs_getD _ _
  failure := by
    intro e
    rw [tryNgettext_eq]
    cases c.tryNgettextBytes (Text.encode msgid) (Text.encode plural) n <;> simp [Except.map]
  tryNgettext := by
    intro s hs
    refine ⟨(Text.decode? s).getD (defaultForm msgid plural n), ?_, Text.shownAs_getD _ _⟩
    rw [tryNgettext_eq, hs]
    rfl
  ngettext_ok := by
    intro text ht
    rw [Catalog.ngettext, ht]
    rfl
  ngettext_error := by
    intro e he
    rw [Catalog.ngettext, he]
    rfl
  pgettext := by
    intro cluster first hm hs
    rw [Catalog.pgettext, contextKey, singular?_of_translates hm hs]
    exact Text.shownAs_getD _ _
  pgettext_fallback := by
    intro h
    rw [Catalog.pgettext, contextKey, singular?_eq_none h]
    rfl
  npgettext := by
    intro s h
    rw [Catalog.npgettext, contextKey, h.variant?]
    exact Text.shownAs_getD _ _
  npgettext_fallback := by
    intro h
    rw [Catalog.npgettext, contextKey, join_variant?_eq_none h]
    rfl

/-- The families of queries agree in every catalog. Text is what the bytes spell for the same
arguments, and failures are the same. The queries that report no failures answer as those that do,
and fall back where these fail. In a context the answers are the strings of the context's own key, of
which those for a count are the ones that the query for bytes selects, while all fallbacks are to the
words without the context. -/
theorem query_families_agree (c : Catalog) :
    (∀ context msgid plural n, c.FamiliesAgree context msgid plural n) ∧
    ∀ (msgid plural : List UInt8) (n : Int32),
      (∀ s, c.tryNgettextBytes msgid plural n = .ok s → c.ngettextBytes msgid plural n = s) ∧
      (∀ e, c.tryNgettextBytes msgid plural n = .error e →
        c.ngettextBytes msgid plural n = if n = 1 then msgid else plural) ∧
      (∀ s, c.Selects msgid n s → c.ngettextBytes msgid plural n = s) ∧
      ((¬ ∃ s, c.Selects msgid n s) →
        c.ngettextBytes msgid plural n = if n = 1 then msgid else plural) := by
  refine ⟨c.familiesAgree, ?_⟩
  intro msgid plural n
  refine ⟨?_, ?_, ?_, ?_⟩
  · intro s hs
    rw [ngettextBytes, hs]
    rfl
  · intro e he
    rw [ngettextBytes, he]
    rfl
  · intro s h
    rw [ngettextBytes_eq, h.variant?]
    rfl
  · intro h
    rw [ngettextBytes_eq, join_variant?_eq_none h]
    rfl

end Catalog

end MessageCatalog
