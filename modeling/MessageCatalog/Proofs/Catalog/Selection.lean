import MessageCatalog.Catalog.Query
import MessageCatalog.Proofs.Bytes.Segments

/-! # Plural forms that are selected

The rule of a catalog is asked only about a message that is found and translated. What it answers is
the place of a string in the msgstr, and where there is no such string the caller's own words serve.
-/

namespace MessageCatalog.Catalog

open Bytes Plural

variable {c : Catalog} {msgid plural cluster s : List UInt8} {n k : Int32} {i : Nat}

/-! ## Translated messages -/

/-- A lookup of `msgid` finds an entry whose msgstr is `cluster`, and the first string of that is not
empty. -/
def Translates (c : Catalog) (msgid cluster : List UInt8) : Prop :=
  ∃ i, c.find? msgid = some i ∧ c.msgstr i = cluster ∧ ∃ first, IsSegment cluster 0 first ∧ first ≠ []

theorem exists_first_iff : (∃ first, IsSegment cluster 0 first ∧ first ≠ []) ↔ leading cluster ≠ [] := by
  simp [isSegment_zero_iff]

theorem cluster?_eq_some_iff : c.cluster? msgid = some cluster ↔ c.Translates msgid cluster := by
  rw [cluster?, Translates]
  cases hf : c.find? msgid with
  | none => simp
  | some i =>
      change (if leading (c.msgstr i) = [] then none else some (c.msgstr i)) = some cluster ↔ _
      simp only [exists_first_iff, Option.some.injEq, exists_eq_left']
      by_cases he : leading (c.msgstr i) = []
      · rw [if_pos he]
        refine iff_of_false (by simp) ?_
        rintro ⟨rfl, hne⟩
        exact hne he
      · rw [if_neg he, Option.some.injEq]
        refine ⟨?_, And.left⟩
        rintro rfl
        exact ⟨rfl, he⟩

theorem cluster?_eq_none_iff : c.cluster? msgid = none ↔ ¬ ∃ cluster, c.Translates msgid cluster := by
  simp only [Option.eq_none_iff_forall_ne_some, ne_eq, cluster?_eq_some_iff, not_exists]

/-! ## The string at an index -/

theorem variantAt?_of_isSegment (hk : k.toInt = i) (h : IsSegment cluster i s) :
    variantAt? cluster k = some s := by
  have hnonneg : ¬ k < 0 := by
    rw [Int32.lt_iff_toInt_lt, Int32.toInt_zero]
    omega
  have hindex : k.toNatClampNeg = i := by
    rw [Int32.toNatClampNeg, hk, Int.toNat_natCast]
  rw [variantAt?, if_neg hnonneg, hindex, h.getElem?_segments]

/-- No string stands at a negative index or behind the last one. -/
theorem variantAt?_eq_none (h : k.toInt < 0 ∨ (cluster.count 0 + 1 : Nat) ≤ k.toInt) :
    variantAt? cluster k = none := by
  by_cases hk : k < 0
  · rw [variantAt?, if_pos hk]
  · rw [variantAt?, if_neg hk, List.getElem?_eq_none_iff, length_segments, Int32.toNatClampNeg]
    rw [Int32.lt_iff_toInt_lt, Int32.toInt_zero] at hk
    omega

/-! ## The rule of a catalog -/

/-- The same catalog with another rule. -/
def withRule (c : Catalog) (rule : Option Expr) : Catalog :=
  { c with layout := { c.layout with rule := rule } }

/-- Lookups know nothing of the rule. -/
@[simp] theorem cluster?_withRule (rule : Option Expr) :
    (c.withRule rule).cluster? msgid = c.cluster? msgid :=
  rfl

theorem variant?_of_cluster?_eq_none (h : c.cluster? msgid = none) : c.variant? msgid n = .ok none := by
  rw [variant?, h]

theorem variant?_of_rule_eq_none (h : c.rule = none) : c.variant? msgid n = .ok none := by
  rw [variant?, h]
  cases c.cluster? msgid <;> rfl

theorem variant?_of_translates {rule : Expr} (hm : c.Translates msgid cluster)
    (hr : c.rule = some rule) :
    c.variant? msgid n = (rule.eval n).map (variantAt? cluster) := by
  rw [variant?, cluster?_eq_some_iff.mpr hm, hr]

/-! ## Queries -/

theorem tryNgettextBytes_of_ok {found : Option (List UInt8)} (h : c.variant? msgid n = .ok found) :
    c.tryNgettextBytes msgid plural n = .ok (found.getD (defaultForm msgid plural n)) := by
  rw [tryNgettextBytes, h]
  rfl

theorem tryNgettextBytes_eq_error_iff {e : EvalError} :
    c.tryNgettextBytes msgid plural n = .error e ↔ c.variant? msgid n = .error e := by
  rw [tryNgettextBytes]
  cases c.variant? msgid n <;> simp [Except.map]

/-- A failure is one of the rule, about a message that is translated. -/
theorem variant?_eq_error_iff {e : EvalError} :
    c.variant? msgid n = .error e ↔ ∃ cluster rule,
      c.Translates msgid cluster ∧ c.rule = some rule ∧ rule.eval n = .error e := by
  constructor
  · intro h
    cases hm : c.cluster? msgid with
    | none =>
        rw [variant?_of_cluster?_eq_none hm] at h
        cases h
    | some cluster =>
        cases hr : c.rule with
        | none =>
            rw [variant?_of_rule_eq_none hr] at h
            cases h
        | some rule =>
            have ht := cluster?_eq_some_iff.mp hm
            refine ⟨cluster, rule, ht, rfl, ?_⟩
            rw [variant?_of_translates ht hr] at h
            cases hv : rule.eval n with
            | ok k =>
                rw [hv] at h
                cases h
            | error e' =>
                rw [hv] at h
                obtain rfl := Except.error.inj h
                rfl
  · rintro ⟨cluster, rule, hm, hr, he⟩
    rw [variant?_of_translates hm hr, he]
    rfl

/-- Plural forms are selected as the rule says, and a failure is reported exactly where the rule of
the catalog fails for a message that is found and translated. If the rule gives `k`, the answer is
string `k` of the msgstr. Where there is no such string, no rule or no translation, the answer is
`msgid` for one and `plural` otherwise, and without a translation it is that whatever the rule. The
query that reports no failures answers the same, and falls back where a failure would be
reported. -/
theorem plural_selection (c : Catalog) (msgid plural : List UInt8) (n : Int32) :
    let fallback := if n = 1 then msgid else plural
    (∀ e, c.tryNgettextBytes msgid plural n = .error e ↔ ∃ cluster rule,
      c.Translates msgid cluster ∧ c.rule = some rule ∧ rule.eval n = .error e) ∧
    (∀ cluster rule k, c.Translates msgid cluster → c.rule = some rule → rule.eval n = .ok k →
      (∀ i : Nat, k.toInt = i → i < cluster.count 0 + 1 →
        ∃ s, (∀ t, IsSegment cluster i t ↔ t = s) ∧ c.tryNgettextBytes msgid plural n = .ok s) ∧
      (k.toInt < 0 ∨ (cluster.count 0 + 1 : Nat) ≤ k.toInt →
        c.tryNgettextBytes msgid plural n = .ok fallback)) ∧
    (c.rule = none → c.tryNgettextBytes msgid plural n = .ok fallback) ∧
    ((¬ ∃ cluster, c.Translates msgid cluster) →
      ∀ rule, (c.withRule rule).tryNgettextBytes msgid plural n = .ok fallback) ∧
    (∀ s, c.tryNgettextBytes msgid plural n = .ok s → c.ngettextBytes msgid plural n = s) ∧
    (∀ e, c.tryNgettextBytes msgid plural n = .error e →
      c.ngettextBytes msgid plural n = fallback) := by
  intro fallback
  refine ⟨?_, ?_, ?_, ?_, ?_, ?_⟩
  · intro e
    rw [tryNgettextBytes_eq_error_iff, variant?_eq_error_iff]
  · intro cluster rule k hm hr hk
    have hv : c.variant? msgid n = .ok (variantAt? cluster k) := by
      rw [variant?_of_translates hm hr, hk]
      rfl
    constructor
    · intro i hi hlt
      obtain ⟨s, hs⟩ := exists_isSegment hlt
      refine ⟨s, ?_, ?_⟩
      · intro t
        rw [← getElem?_segments_eq_some_iff, hs.getElem?_segments, Option.some.injEq, eq_comm]
      · rw [tryNgettextBytes_of_ok hv, variantAt?_of_isSegment hi hs]
        rfl
    · intro hout
      rw [tryNgettextBytes_of_ok hv, variantAt?_eq_none hout]
      rfl
  · intro hr
    exact tryNgettextBytes_of_ok (variant?_of_rule_eq_none hr)
  · intro hm rule
    have hnone := cluster?_eq_none_iff.mpr hm
    exact tryNgettextBytes_of_ok (variant?_of_cluster?_eq_none (by rwa [cluster?_withRule]))
  · intro s hs
    rw [ngettextBytes, hs]
    rfl
  · intro e he
    rw [ngettextBytes, he]
    rfl

end MessageCatalog.Catalog
