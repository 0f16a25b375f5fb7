import MessageCatalog.Proofs.Catalog.Lookup
import MessageCatalog.Proofs.Plural.Limits
import MessageCatalog.Settings.Environment

/-! # What settings decide

Settings are asked only whether to go on with a load, so that two loads of a buffer that both succeed
find the same. The environment has no say in the check of the sort order.
-/

namespace MessageCatalog

open Bytes Header Plural

/-- No check of `s'` is stricter than that of `s`. -/
structure Settings.Laxer (s s' : Settings) : Prop where
  sortOrder : s'.verifySortOrder = false ∨ s'.verifySortOrder = s.verifySortOrder
  bigEndian : s'.acceptBigEndian = true ∨ s'.acceptBigEndian = s.acceptBigEndian
  depth : s.maxExpressionDepth ≤ s'.maxExpressionDepth

theorem Settings.Laxer.verifySortOrder {s s' : Settings} (h : s.Laxer s')
    (hv : s'.verifySortOrder = true) : s.verifySortOrder = true := by
  rcases h.sortOrder with hoff | hsame
  · rw [hv] at hoff
    cases hoff
  · exact hsame ▸ hv

theorem Settings.Laxer.acceptBigEndian {s s' : Settings} (h : s.Laxer s')
    (ha : s.acceptBigEndian = true) : s'.acceptBigEndian = true := by
  rcases h.bigEndian with hon | hsame
  · exact hon
  · exact hsame ▸ ha

namespace Layout

variable {s s' : Settings} {order : ByteOrder} {data : Array UInt8} {header : String}

/-! ## Two loads of one buffer -/

theorem ruleOfHeader_mono {rule : Option Expr} (h : s.maxExpressionDepth ≤ s'.maxExpressionDepth)
    (hr : ruleOfHeader s header = .ok rule) : ruleOfHeader s' header = .ok rule := by
  unfold ruleOfHeader at hr ⊢
  cases hs : pluralSource? header with
  | none => rwa [hs] at hr
  | some source =>
      rw [hs] at hr
      exact Expr.parseOptional_mono (UInt64.le_iff_toNat_le.mp h) hr

theorem ruleOfHeader_unique {rule rule' : Option Expr} (h : ruleOfHeader s header = .ok rule)
    (h' : ruleOfHeader s' header = .ok rule') : rule = rule' := by
  rcases UInt64.le_total s.maxExpressionDepth s'.maxExpressionDepth with hle | hle
  · exact Except.ok.inj ((ruleOfHeader_mono hle h).symm.trans h')
  · exact Except.ok.inj (h.symm.trans (ruleOfHeader_mono hle h'))

theorem load_unique {l l' : Layout} (h : load s data = .ok l) (h' : load s' data = .ok l') :
    l = l' := by
  rcases load_eq_ok_iff.mp h with ⟨hw, hids, hstrs, hmeta, hrule⟩
  rcases load_eq_ok_iff.mp h' with ⟨hw', hids', hstrs', hmeta', hrule'⟩
  obtain ⟨order, msgids, msgstrs, metadata, rule⟩ := l
  obtain ⟨order', msgids', msgstrs', metadata', rule'⟩ := l'
  obtain rfl : order = order' := hw.order_eq hw'
  obtain rfl : msgids = msgids' := eq_of_map_ends (hids.trans hids'.symm)
  obtain rfl : msgstrs = msgstrs' := eq_of_map_ends (hstrs.trans hstrs'.symm)
  obtain rfl : metadata = metadata' := hmeta.trans hmeta'.symm
  obtain rfl : rule = rule' := ruleOfHeader_unique hrule hrule'
  rfl

/-! ## Acceptance -/

theorem WellFormed.of_laxer (h : WellFormed s order data) (hlax : s.Laxer s') :
    WellFormed s' order data where
  size_le := h.size_le
  magic := h.magic
  accepted := fun ho => hlax.acceptBigEndian (h.accepted ho)
  revision := h.revision
  count_pos := h.count_pos
  count_lt := h.count_lt
  tables := h.tables
  nonempty := fun hv => h.nonempty (hlax.verifySortOrder hv)
  sorted := fun hv => h.sorted (hlax.verifySortOrder hv)

theorem load_of_laxer {l : Layout} (hlax : s.Laxer s') (h : load s data = .ok l) :
    load s' data = .ok l := by
  rcases load_eq_ok_iff.mp h with ⟨hw, hids, hstrs, hmeta, hrule⟩
  apply load_eq_ok_iff.mpr
  exact ⟨hw.of_laxer hlax, hids, hstrs, hmeta, ruleOfHeader_mono hlax.depth hrule⟩

end Layout

/-! ## Environments -/

theorem Catalog.leading_ne_nil_of_loadWith {settings : Settings} {data : Array UInt8} {c : Catalog}
    (h : loadWith settings data = .ok c) (hv : settings.verifySortOrder = true) {i : Nat}
    (hi : 1 ≤ i) (hlt : i < c.layout.msgids.size) : leading (c.msgid i) ≠ [] := by
  obtain ⟨rfl, hl⟩ := layout_of_loadWith h
  obtain ⟨hw, hends, -⟩ := Layout.load_eq_ok_iff.mp hl
  have hn := Layout.size_eq_entryCount hends
  rw [msgid, Layout.bytesAt_eq_stringAt hends (by omega)]
  exact hw.nonempty hv i hi (by omega)

theorem Settings.verifySortOrder_ofEnvironment (env : Environment) :
    (ofEnvironment env).verifySortOrder = true :=
  verifySortOrder_override {} env

/-- Settings decide whether a buffer loads and nothing else. Two loads that succeed give the same
layout, and what loads goes on loading under laxer settings. A rule within one limit is the same rule
within every larger one, and of the failures a larger limit undoes only that of nesting too deep. No
environment turns off the check of the sort order, so that in every environment the messages of a
loaded catalog are not empty and in order. -/
theorem settings_decide_acceptance_only :
    (∀ data s s' l l', Layout.load s data = .ok l → Layout.load s' data = .ok l' → l = l') ∧
    (∀ data s s' l, s.Laxer s' → Layout.load s data = .ok l → Layout.load s' data = .ok l) ∧
    (∀ source limit limit', limit ≤ limit' →
      (∀ e, Expr.parseWithin limit source = .ok e → Expr.parseWithin limit' source = .ok e) ∧
      (∀ cause, Expr.parseWithin limit source = .error cause →
        (∀ l, cause ≠ .nestedTooDeep l) → Expr.parseWithin limit' source = .error cause)) ∧
    (∀ (s : Settings) env, (s.override env).verifySortOrder = s.verifySortOrder) ∧
    (∀ env data c, Catalog.loadWith (.ofEnvironment env) data = .ok c →
      (∀ i, 1 ≤ i → i < c.layout.msgids.size → leading (c.msgid i) ≠ []) ∧
      ∀ i j, 1 ≤ i → i < j → j < c.layout.msgids.size →
        leading (c.msgid i) ≤ leading (c.msgid j)) := by
  refine ⟨?_, ?_, ?_, Settings.verifySortOrder_override, ?_⟩
  · intro data s s' l l' h h'
    exact Layout.load_unique h h'
  · intro data s s' l hlax h
    exact Layout.load_of_laxer hlax h
  · intro source limit limit' hle
    constructor
    · intro e he
      exact Expr.parseWithin_mono hle he
    · intro cause he hc
      exact Expr.parseWithin_eq_error_of_le hle he hc
  · intro env data c h
    have hv := Settings.verifySortOrder_ofEnvironment env
    constructor
    · intro i hi hlt
      exact Catalog.leading_ne_nil_of_loadWith h hv hi hlt
    · intro i j hi hij hj
      exact Catalog.leading_le_of_loadWith h hv hi hij hj

end MessageCatalog
