import MessageCatalog.Proofs.Catalog.WellFormed

/-! # Which buffers load

A buffer loads exactly if its container is well-formed and the plural rule of its header compiles.
The kind of the error tells which of the two went wrong. -/

namespace MessageCatalog.Layout

open Bytes Header Plural Fallible

/-! ## The steps in sequence -/

/-- The last step of a load, which is about the header alone. -/
def conclude (settings : Settings) (data : Array UInt8) (order : ByteOrder)
    (msgids msgstrs : Array Span) : Except LoadError Layout := do
  let header := String.ofList (Text.decodeLossy (Span.bytesAt data msgstrs 0))
  let rule ← (ruleOfHeader settings header).mapError .rule
  return ⟨order, msgids, msgstrs, .parse header, rule⟩

theorem load_eq (settings : Settings) (data : Array UInt8) :
    load settings data =
      (if data.size < headerSize then .error (.tooShort data.size) else do
        let order ← byteOrder settings data
        let revision ← (Reader.readInt ⟨data, order⟩ 4).mapError .read
        if revision ≠ 0 then .error (.badRevision revision) else do
          let count ← (Reader.readSize ⟨data, order⟩ 8 "entry count").mapError .read
          if count = 0 then .error .noEntries else do
            let msgids ← readTable ⟨data, order⟩ .msgids Table.msgids.field count
            let msgstrs ← readTable ⟨data, order⟩ .msgstrs Table.msgstrs.field count
            if settings.verifySortOrder then do
              checkSorted (msgids.toList.map (Span.bytes data))
              conclude settings data order msgids msgstrs
            else conclude settings data order msgids msgstrs) :=
  rfl

/-! ## Failures of the container and of the rule -/

/-- A failure, if there is one, is not the plural rule's. -/
def SparesRule {α : Type} (x : Except LoadError α) : Prop :=
  ∀ cause, x ≠ .error (.rule cause)

/-- A failure, if there is one, is the plural rule's. -/
def BlamesRule {α : Type} (x : Except LoadError α) : Prop :=
  ∀ e, x = .error e → ∃ cause, e = .rule cause

section

variable {α β : Type} {x : Except LoadError α} {f : α → Except LoadError β}

theorem sparesRule_ok {a : α} : SparesRule (.ok a) := by
  intro cause h
  cases h

theorem sparesRule_error {e : LoadError} (h : ∀ cause, e ≠ .rule cause) :
    SparesRule (.error e : Except LoadError α) := by
  intro cause he
  exact h cause (Except.error.inj he)

theorem sparesRule_read {y : Except ReadError α} : SparesRule (y.mapError .read) := by
  intro cause h
  obtain ⟨e, -, he⟩ := mapError_eq_error_iff.mp h
  cases he

theorem SparesRule.bind (hx : SparesRule x) (hf : ∀ a, SparesRule (f a)) :
    SparesRule (x >>= f) := by
  intro cause h
  rcases bind_eq_error_iff.mp h with h | ⟨a, -, h⟩
  · exact hx cause h
  · exact hf a cause h

theorem SparesRule.mapM {xs : List α} {f : α → Except LoadError β} (hf : ∀ a, SparesRule (f a)) :
    SparesRule (xs.mapM f) := by
  intro cause h
  obtain ⟨a, -, ha⟩ := exists_of_mapM_eq_error h
  exact hf a cause ha

/-- Where only the rule is to blame, a step that has nothing to do with it succeeds. -/
theorem BlamesRule.bind (h : BlamesRule (x >>= f)) (hx : SparesRule x) :
    ∃ a, x = .ok a ∧ BlamesRule (f a) := by
  cases x with
  | ok a => exact ⟨a, rfl, h⟩
  | error e =>
      obtain ⟨cause, rfl⟩ := h e rfl
      exact absurd rfl (hx cause)

theorem BlamesRule.not_error {e : LoadError} (h : BlamesRule (.error e : Except LoadError α)) :
    ∃ cause, e = .rule cause :=
  h e rfl

end

theorem byteOrder_sparesRule {settings : Settings} {data : Array UInt8} :
    SparesRule (byteOrder settings data) := by
  refine sparesRule_read.bind fun word => ?_
  split
  · exact sparesRule_ok
  · split
    · split
      · exact sparesRule_ok
      · exact sparesRule_error (by simp)
    · exact sparesRule_error (by simp)

theorem readEntry_sparesRule {r : Reader} {table : Table} {start : UInt64} {i : Nat} :
    SparesRule (readEntry r table start i) := by
  refine sparesRule_read.bind fun length => sparesRule_read.bind fun offset => ?_
  split
  · exact sparesRule_ok
  · exact sparesRule_error (by simp)

theorem readTable_sparesRule {r : Reader} {table : Table} {field count : UInt64} :
    SparesRule (readTable r table field count) := by
  refine sparesRule_read.bind fun start => ?_
  split
  · exact sparesRule_error (by simp)
  · exact sparesRule_read.bind fun _ =>
      (SparesRule.mapM fun _ => readEntry_sparesRule).bind fun _ => sparesRule_ok

theorem checkSortedFrom_sparesRule {previous : Option (List UInt8)} {index : Nat}
    {keys : List (List UInt8)} : SparesRule (checkSortedFrom previous index keys) := by
  induction keys generalizing previous index with
  | nil => exact sparesRule_ok
  | cons key keys ih =>
      simp only [checkSortedFrom]
      split
      · exact sparesRule_error (by simp)
      · split
        · exact sparesRule_error (by simp)
        · exact ih

variable {settings : Settings} {order : ByteOrder} {data : Array UInt8}

theorem readTable_iff {table : Table} {count : UInt64} {spans : Array Span} (hsize : 20 ≤ data.size)
    (hn : entryCount order data = count.toNat) (hlt : count.toNat < 0x80000000) :
    readTable ⟨data, order⟩ table table.field count = .ok spans ↔
      TableFits order data (tableStart order data table) (entryCount order data) ∧
        spans.toList.map Span.ends = tableEnds order data table := by
  have hfield : table.field.toNat + 4 ≤ 20 := by cases table <;> decide
  have hbound : table.field.toNat + 4 < UInt64.size := Nat.lt_of_le_of_lt hfield (by decide)
  have hin : table.field.toNat + 4 ≤ (⟨data, order⟩ : Reader).size := Nat.le_trans hfield hsize
  rw [readTable_eq_ok_iff hbound hin (by omega), tableEnds, hn]
  rfl

theorem checkSorted_iff {msgids : Array Span}
    (h : msgids.toList.map Span.ends = tableEnds order data .msgids) :
    checkSorted (msgids.toList.map (Span.bytes data)) = .ok () ↔
      (∀ i, 1 ≤ i → i < entryCount order data → leading (stringAt order data .msgids i) ≠ []) ∧
        ∀ i j, 1 ≤ i → i < j → j < entryCount order data →
          leading (stringAt order data .msgids i) ≤ leading (stringAt order data .msgids j) := by
  rw [map_bytes_eq h, checkSorted_eq_ok_iff, ordered_drop_iff]

/-- A load that does not fail, or fails at the rule only, has found a well-formed container. -/
theorem exists_wellFormed (h : BlamesRule (load settings data)) :
    ∃ order, WellFormed settings order data := by
  rw [load_eq] at h
  split at h
  · obtain ⟨cause, hc⟩ := h.not_error
    cases hc
  next hsize =>
  have hsize : 20 ≤ data.size := Nat.le_of_not_lt hsize
  obtain ⟨order, horder, h⟩ := h.bind byteOrder_sparesRule
  obtain ⟨hmagic, haccept⟩ := (byteOrder_eq_ok_iff (by omega)).mp horder
  obtain ⟨revision, hrevision, h⟩ := h.bind sparesRule_read
  split at h
  · obtain ⟨cause, hc⟩ := h.not_error
    cases hc
  next hzero =>
  obtain rfl := not_not.mp hzero
  have hrevision := (revision_eq_ok_iff (by omega)).mp (mapError_eq_ok_iff.mp hrevision)
  obtain ⟨count, hcount, h⟩ := h.bind sparesRule_read
  obtain ⟨-, hn, hlt⟩ := (Reader.readSize_eq_ok_iff (by decide)).mp (mapError_eq_ok_iff.mp hcount)
  split at h
  · obtain ⟨cause, hc⟩ := h.not_error
    cases hc
  next hpos =>
  have hpos : count.toNat ≠ 0 := fun h0 => hpos (UInt64.toNat_inj.mp h0)
  obtain ⟨msgids, hmsgids, h⟩ := h.bind readTable_sparesRule
  obtain ⟨msgstrs, hmsgstrs, h⟩ := h.bind readTable_sparesRule
  obtain ⟨hfit, hends⟩ := (readTable_iff hsize hn hlt).mp hmsgids
  obtain ⟨hfit', -⟩ := (readTable_iff hsize hn hlt).mp hmsgstrs
  have hsorted : settings.verifySortOrder = true →
      checkSorted (msgids.toList.map (Span.bytes data)) = .ok () := by
    intro hv
    rw [if_pos hv] at h
    obtain ⟨⟨⟩, hs, -⟩ := h.bind checkSortedFrom_sparesRule
    exact hs
  refine ⟨order, hsize, hmagic, haccept, hrevision, ?_, ?_, ?_, ?_, ?_⟩
  · rw [entryCount]
    exact hn ▸ Nat.pos_of_ne_zero hpos
  · rw [entryCount]
    exact hn ▸ hlt
  · intro table
    cases table
    · exact hfit
    · exact hfit'
  · intro hv
    exact ((checkSorted_iff hends).mp (hsorted hv)).1
  · intro hv
    exact ((checkSorted_iff hends).mp (hsorted hv)).2

/-- A well-formed container is read in full, and only the rule is left to decide. -/
theorem load_of_wellFormed (h : WellFormed settings order data) :
    ∃ msgids msgstrs : Array Span,
      msgids.toList.map Span.ends = tableEnds order data .msgids ∧
      msgstrs.toList.map Span.ends = tableEnds order data .msgstrs ∧
      load settings data = conclude settings data order msgids msgstrs := by
  have hsize := h.size_le
  have hlt := h.count_lt
  obtain ⟨msgids, hmsgids⟩ := (h.tables .msgids).exists_spans
  obtain ⟨msgstrs, hmsgstrs⟩ := (h.tables .msgstrs).exists_spans
  obtain ⟨count, hn⟩ := exists_toNat_eq (k := entryCount order data) (Nat.lt_trans hlt (by decide))
  refine ⟨msgids, msgstrs, hmsgids, hmsgstrs, ?_⟩
  have horder := (byteOrder_eq_ok_iff (by omega)).mpr ⟨h.magic, h.accepted⟩
  have hrevision := (revision_eq_ok_iff (by omega)).mpr h.revision
  have hcount : Reader.readSize ⟨data, order⟩ 8 "entry count" = .ok count :=
    (Reader.readSize_eq_ok_iff (by decide)).mpr ⟨Nat.le_trans (by decide) hsize, hn.symm, hn ▸ hlt⟩
  have hpos : ¬ count = 0 := by
    rintro rfl
    exact absurd h.count_pos (by rw [← hn]; decide)
  have hids := (readTable_iff hsize hn.symm (hn ▸ hlt)).mpr ⟨h.tables .msgids, hmsgids⟩
  have hstrs := (readTable_iff hsize hn.symm (hn ▸ hlt)).mpr ⟨h.tables .msgstrs, hmsgstrs⟩
  have hshort : ¬ data.size < headerSize := Nat.not_lt.mpr hsize
  rw [load_eq, if_neg hshort]
  simp only [horder, hrevision, hcount, hids, hstrs, hpos, bind, Except.bind, mapError_ok,
    ne_eq, not_true_eq_false, if_false]
  by_cases hv : settings.verifySortOrder = true
  · rw [if_pos hv, (checkSorted_iff hmsgids).mpr ⟨h.nonempty hv, h.sorted hv⟩]
  · rw [if_neg hv]

/-! ## The rule -/

theorem exists_ruleOfHeader_iff {header : String} :
    (∃ rule, ruleOfHeader settings header = .ok rule) ↔ RuleCompiles settings header := by
  cases hs : pluralSource? header with
  | none => simp [ruleOfHeader, RuleCompiles, hs]
  | some source =>
      simp only [ruleOfHeader, RuleCompiles, hs, Expr.parseOptional, Option.some.injEq,
        forall_eq']
      by_cases hb : ∀ c ∈ source.toList, Text.isBlank c
      · rw [if_pos (List.all_eq_true.mpr hb)]
        exact iff_of_true ⟨none, rfl⟩ (.inl hb)
      · rw [if_neg fun h => hb (List.all_eq_true.mp h)]
        cases hp : Expr.parseWithin settings.maxExpressionDepth.toNat source with
        | ok e => simp [Except.map]
        | error cause => simp [Except.map, hb]

theorem conclude_eq (h : WellFormed settings order data) {msgids msgstrs : Array Span}
    (hends : msgstrs.toList.map Span.ends = tableEnds order data .msgstrs) :
    conclude settings data order msgids msgstrs =
      match ruleOfHeader settings (headerText order data) with
      | .ok rule => .ok ⟨order, msgids, msgstrs, .parse (headerText order data), rule⟩
      | .error cause => .error (.rule cause) := by
  rw [conclude, bytesAt_eq_stringAt hends h.count_pos]
  change (do
    let rule ← (ruleOfHeader settings (headerText order data)).mapError LoadError.rule
    return (⟨order, msgids, msgstrs, .parse (headerText order data), rule⟩ : Layout)) = _
  cases ruleOfHeader settings (headerText order data) <;> rfl

/-! ## Main statements -/

theorem load_eq_error_of_rule {cause : SyntaxError} (h : WellFormed settings order data)
    (hr : ruleOfHeader settings (headerText order data) = .error cause) :
    load settings data = .error (.rule cause) := by
  obtain ⟨msgids, msgstrs, -, hstrs, hl⟩ := load_of_wellFormed h
  rw [hl, conclude_eq h hstrs, hr]

/-- What a layout that was loaded says, and that nothing else loads. -/
theorem load_eq_ok_iff {l : Layout} :
    load settings data = .ok l ↔
      WellFormed settings l.order data ∧
      l.msgids.toList.map Span.ends = tableEnds l.order data .msgids ∧
      l.msgstrs.toList.map Span.ends = tableEnds l.order data .msgstrs ∧
      l.metadata = .parse (headerText l.order data) ∧
      ruleOfHeader settings (headerText l.order data) = .ok l.rule := by
  constructor
  · intro h
    have hblames : BlamesRule (load settings data) := by
      intro e he
      rw [h] at he
      cases he
    obtain ⟨order, hw⟩ := exists_wellFormed hblames
    obtain ⟨msgids, msgstrs, hids, hstrs, hl⟩ := load_of_wellFormed hw
    rw [h, conclude_eq hw hstrs] at hl
    cases hr : ruleOfHeader settings (headerText order data) with
    | error cause =>
        rw [hr] at hl
        cases hl
    | ok rule =>
        rw [hr] at hl
        obtain rfl := Except.ok.inj hl
        exact ⟨hw, hids, hstrs, rfl, hr⟩
  · intro hx
    rcases hx with ⟨hw, hids, hstrs, hm, hr⟩
    obtain ⟨msgids, msgstrs, hids', hstrs', hl⟩ := load_of_wellFormed hw
    obtain rfl := eq_of_map_ends (hids'.trans hids.symm)
    obtain rfl := eq_of_map_ends (hstrs'.trans hstrs.symm)
    rw [hl, conclude_eq hw hstrs, hr, ← hm]

theorem exists_load_eq_ok (h : WellFormed settings order data)
    (hr : RuleCompiles settings (headerText order data)) :
    ∃ l, l.order = order ∧ load settings data = .ok l := by
  obtain ⟨rule, hrule⟩ := exists_ruleOfHeader_iff.mpr hr
  obtain ⟨msgids, hids⟩ := (h.tables .msgids).exists_spans
  obtain ⟨msgstrs, hstrs⟩ := (h.tables .msgstrs).exists_spans
  exact ⟨⟨order, msgids, msgstrs, .parse (headerText order data), rule⟩, rfl,
    load_eq_ok_iff.mpr ⟨h, hids, hstrs, rfl, hrule⟩⟩

end MessageCatalog.Layout
