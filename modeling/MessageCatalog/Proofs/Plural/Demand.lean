import MessageCatalog.Plural.Expr.Eval
import MessageCatalog.Proofs.Fallible
import MessageCatalog.Proofs.Plural.Positions

/-! # What an evaluation asks for

The value of a node needs the values of some of its operands, and from the root of a rule these needs
reach a part of the tree. Nothing outside that part has a say in the value of the rule. Inside it at
most one node fails, and the rule fails exactly if one does.
-/

namespace MessageCatalog.Plural.Expr

open Fallible

/-! ## Needs of a node -/

/-- A node needs its first operand always, and a further one if the first has a value that leaves the
matter open: any value in most nodes, one that settles nothing for a logical operator, and the one that
selects the branch in a conditional. -/
inductive Needs (n : Int32) : Expr → Operand → Prop
  | unary (op e) : Needs n (unary op e) .first
  | left (op l r) : Needs n (binary op l r) .first
  | right {op l a} (r) (hand : op ≠ .and) (hor : op ≠ .or) (hl : l.eval n = .ok a) :
      Needs n (binary op l r) .second
  | conjunct {l a} (r) (hl : l.eval n = .ok a) (ha : a ≠ 0) : Needs n (binary .and l r) .second
  | disjunct {l} (r) (hl : l.eval n = .ok 0) : Needs n (binary .or l r) .second
  | dividend (op l r) : Needs n (division op l r) .first
  | divisor {l a} (op r) (hl : l.eval n = .ok a) : Needs n (division op l r) .second
  | condition (c t e) : Needs n (conditional c t e) .first
  | yes {c a} (t e) (hc : c.eval n = .ok a) (ha : a ≠ 0) : Needs n (conditional c t e) .second
  | no {c} (t e) (hc : c.eval n = .ok 0) : Needs n (conditional c t e) .third

variable {n a : Int32} {e d l r c t : Expr} {o o' : Operand} {p q : Position} {cause : EvalError}

theorem Needs.exists_operand (h : Needs n e o) : ∃ d, e.operand? o = some d := by
  cases h <;> exact ⟨_, rfl⟩

/-- The right operand is needed where the left one settles nothing. -/
theorem needs_binary_second_iff {op : BinaryOp} :
    Needs n (binary op l r) .second ↔ ∃ a, l.eval n = .ok a ∧ op.shortcut a = none := by
  constructor
  · intro h
    cases h with
    | right r hand hor hl => exact ⟨_, hl, by cases op <;> simp_all [BinaryOp.shortcut]⟩
    | conjunct r hl ha => exact ⟨_, hl, by simp [BinaryOp.shortcut, ha]⟩
    | disjunct r hl => exact ⟨0, hl, by simp [BinaryOp.shortcut]⟩
  · rintro ⟨a, hl, hs⟩
    by_cases hand : op = .and
    · subst hand
      exact .conjunct r hl fun ha => by simp [BinaryOp.shortcut, ha] at hs
    · by_cases hor : op = .or
      · subst hor
        obtain rfl : a = 0 := by simpa [BinaryOp.shortcut] using hs
        exact .disjunct r hl
      · exact .right r hand hor hl

theorem needs_division_second_iff {op : DivisionOp} :
    Needs n (division op l r) .second ↔ ∃ a, l.eval n = .ok a := by
  constructor
  · rintro ⟨⟩
    exact ⟨_, ‹_›⟩
  · rintro ⟨a, hl⟩
    exact .divisor op r hl

theorem needs_conditional_second_iff :
    Needs n (conditional c t e) .second ↔ ∃ a, c.eval n = .ok a ∧ a ≠ 0 := by
  constructor
  · rintro ⟨⟩
    exact ⟨_, ‹_›, ‹_›⟩
  · rintro ⟨a, hc, ha⟩
    exact .yes t e hc ha

theorem needs_conditional_third_iff : Needs n (conditional c t e) .third ↔ c.eval n = .ok 0 := by
  constructor
  · rintro ⟨⟩
    assumption
  · exact .no t e

/-- A further operand is needed only where the first has a value. -/
theorem Needs.exists_first (h : Needs n e o) (ho : o ≠ .first) :
    ∃ d a, e.operand? .first = some d ∧ d.eval n = .ok a := by
  cases h with
  | unary | left | dividend | condition => exact absurd rfl ho
  | right r _ _ hl | conjunct r hl _ | divisor op r hl => exact ⟨_, _, rfl, hl⟩
  | yes t e hc _ => exact ⟨_, _, rfl, hc⟩
  | disjunct r hl => exact ⟨_, 0, rfl, hl⟩
  | no t e hc => exact ⟨_, 0, rfl, hc⟩

/-- One branch at most is needed. -/
theorem not_needs_both (h : Needs n e .second) : ¬ Needs n e .third := by
  intro h'
  cases h' with
  | no t e hc =>
      obtain ⟨a, hc', ha⟩ := needs_conditional_second_iff.mp h
      exact ha (Except.ok.inj (hc'.symm.trans hc))

/-! ## Failures of a node -/

theorem eval_unary_eq_error_iff {op : UnaryOp} :
    (unary op e).eval n = .error cause ↔ e.eval n = .error cause := by
  rw [eval, bind_eq_error_iff]
  exact or_iff_left fun ⟨a, _, h⟩ => by cases h

theorem eval_binary_eq_error_iff {op : BinaryOp} :
    (binary op l r).eval n = .error cause ↔ l.eval n = .error cause ∨
      (∃ a, l.eval n = .ok a ∧ op.shortcut a = none) ∧ r.eval n = .error cause := by
  rw [eval, bind_eq_error_iff]
  refine or_congr_right ⟨?_, ?_⟩
  · rintro ⟨a, hl, h⟩
    cases hs : op.shortcut a with
    | some v =>
        rw [hs] at h
        cases h
    | none =>
        rw [hs] at h
        rcases bind_eq_error_iff.mp h with hr | ⟨b, _, h⟩
        · exact ⟨⟨a, hl, hs⟩, hr⟩
        · cases h
  · rintro ⟨⟨a, hl, hs⟩, hr⟩
    refine ⟨a, hl, ?_⟩
    rw [hs]
    exact bind_eq_error_iff.mpr (.inl hr)

theorem eval_division_eq_error_iff {op : DivisionOp} :
    (division op l r).eval n = .error cause ↔ l.eval n = .error cause ∨
      (∃ a, l.eval n = .ok a) ∧ (r.eval n = .error cause ∨ r.eval n = .ok 0 ∧ op.failure = cause) := by
  have hzero (a b : Int32) : op.apply? a b = .error cause ↔ b = 0 ∧ op.failure = cause := by
    unfold DivisionOp.apply?
    split <;> simp [*]
  rw [eval, bind_eq_error_iff]
  refine or_congr_right ⟨?_, ?_⟩
  · rintro ⟨a, hl, h⟩
    rcases bind_eq_error_iff.mp h with hr | ⟨b, hr, h⟩
    · exact ⟨⟨a, hl⟩, .inl hr⟩
    · obtain ⟨rfl, hcause⟩ := (hzero a b).mp h
      exact ⟨⟨a, hl⟩, .inr ⟨hr, hcause⟩⟩
  · rintro ⟨⟨a, hl⟩, hr | ⟨hr, hcause⟩⟩
    · exact ⟨a, hl, bind_eq_error_iff.mpr (.inl hr)⟩
    · exact ⟨a, hl, bind_eq_error_iff.mpr (.inr ⟨0, hr, (hzero a 0).mpr ⟨rfl, hcause⟩⟩)⟩

theorem eval_conditional_eq_error_iff :
    (conditional c t e).eval n = .error cause ↔ c.eval n = .error cause ∨
      (∃ a, c.eval n = .ok a ∧ a ≠ 0) ∧ t.eval n = .error cause ∨
        c.eval n = .ok 0 ∧ e.eval n = .error cause := by
  rw [eval, bind_eq_error_iff]
  refine or_congr_right ⟨?_, ?_⟩
  · rintro ⟨a, hc, h⟩
    by_cases ha : a = 0
    · subst ha
      exact .inr ⟨hc, h⟩
    · rw [if_pos ha] at h
      exact .inl ⟨⟨a, hc, ha⟩, h⟩
  · rintro (⟨⟨a, hc, ha⟩, ht⟩ | ⟨hc, he⟩)
    · exact ⟨a, hc, (if_pos ha).trans ht⟩
    · exact ⟨0, hc, he⟩

/-- The node divides by zero, and both of its operands have a value. -/
def DividesByZero (n : Int32) (op : DivisionOp) (e : Expr) : Prop :=
  ∃ l r a, e = division op l r ∧ l.eval n = .ok a ∧ r.eval n = .ok 0

/-- A node fails only as an operand does that it needs, or because it divides by zero. -/
theorem eval_eq_error_iff_step :
    e.eval n = .error cause ↔
      (∃ o d, Needs n e o ∧ e.operand? o = some d ∧ d.eval n = .error cause) ∨
        ∃ op, DividesByZero n op e ∧ op.failure = cause := by
  constructor
  · intro h
    cases e with
    | literal value => cases h
    | count => cases h
    | unary op e => exact .inl ⟨.first, e, .unary op e, rfl, eval_unary_eq_error_iff.mp h⟩
    | binary op l r =>
        rcases eval_binary_eq_error_iff.mp h with hl | ⟨hneeds, hr⟩
        · exact .inl ⟨.first, l, .left op l r, rfl, hl⟩
        · exact .inl ⟨.second, r, needs_binary_second_iff.mpr hneeds, rfl, hr⟩
    | division op l r =>
        rcases eval_division_eq_error_iff.mp h with hl | ⟨⟨a, hl⟩, hr | ⟨hr, hcause⟩⟩
        · exact .inl ⟨.first, l, .dividend op l r, rfl, hl⟩
        · exact .inl ⟨.second, r, .divisor op r hl, rfl, hr⟩
        · exact .inr ⟨op, ⟨l, r, a, rfl, hl, hr⟩, hcause⟩
    | conditional c t e =>
        rcases eval_conditional_eq_error_iff.mp h with hc | ⟨hneeds, ht⟩ | ⟨hneeds, he⟩
        · exact .inl ⟨.first, c, .condition c t e, rfl, hc⟩
        · exact .inl ⟨.second, t, needs_conditional_second_iff.mpr hneeds, rfl, ht⟩
        · exact .inl ⟨.third, e, needs_conditional_third_iff.mpr hneeds, rfl, he⟩
  · rintro (⟨o, d, hneeds, hd, he⟩ | ⟨op, ⟨l, r, a, rfl, hl, hr⟩, hcause⟩)
    · cases e <;> cases o <;> cases hd
      · exact eval_unary_eq_error_iff.mpr he
      · exact eval_binary_eq_error_iff.mpr (.inl he)
      · exact eval_binary_eq_error_iff.mpr (.inr ⟨needs_binary_second_iff.mp hneeds, he⟩)
      · exact eval_division_eq_error_iff.mpr (.inl he)
      · exact eval_division_eq_error_iff.mpr
          (.inr ⟨needs_division_second_iff.mp hneeds, .inl he⟩)
      · exact eval_conditional_eq_error_iff.mpr (.inl he)
      · exact eval_conditional_eq_error_iff.mpr
          (.inr (.inl ⟨needs_conditional_second_iff.mp hneeds, he⟩))
      · exact eval_conditional_eq_error_iff.mpr
          (.inr (.inr ⟨needs_conditional_third_iff.mp hneeds, he⟩))
    · exact eval_division_eq_error_iff.mpr (.inr ⟨⟨a, hl⟩, .inr ⟨hr, hcause⟩⟩)

/-- Of the operands that a node needs one at most fails: after it no other is needed. -/
theorem needs_unique (h : Needs n e o) (hd : e.operand? o = some d) (he : d.eval n = .error cause)
    {d' : Expr} {cause' : EvalError} (h' : Needs n e o') (hd' : e.operand? o' = some d')
    (he' : d'.eval n = .error cause') : o = o' := by
  -- Operands are asked in their order, and where a later one is asked the first has answered.
  have hfirst {o d cause} (hd : e.operand? .first = some d) (he : d.eval n = .error cause)
      (h : Needs n e o) : o = .first := by
    by_contra ho
    obtain ⟨b, a, hb, ha⟩ := h.exists_first ho
    obtain rfl := Option.some.inj (hd.symm.trans hb)
    cases he.symm.trans ha
  cases o with
  | first => exact (hfirst hd he h').symm
  | second =>
      cases o' with
      | first => exact hfirst hd' he' h
      | second => rfl
      | third => exact absurd h' (not_needs_both h)
  | third =>
      cases o' with
      | first => exact hfirst hd' he' h
      | second => exact absurd h (not_needs_both h')
      | third => rfl

theorem DividesByZero.eval_operand {op : DivisionOp} (h : DividesByZero n op e)
    (hd : e.operand? o = some d) : ∃ a, d.eval n = .ok a := by
  obtain ⟨l, r, a, rfl, hl, hr⟩ := h
  cases o <;> cases hd
  · exact ⟨a, hl⟩
  · exact ⟨0, hr⟩

/-! ## Demand from the root -/

/-- The root is demanded, and so is every operand that a demanded node needs. -/
inductive Demanded (n : Int32) (e : Expr) : Position → Prop
  | root : Demanded n e []
  | operand {p : Position} {d : Expr} {o : Operand} (hp : Demanded n e p) (hd : e.at? p = some d)
      (ho : Needs n d o) : Demanded n e (p ++ [o])

/-- What an operand demands is demanded behind it if the operand itself is needed. -/
theorem demanded_cons_iff :
    Demanded n e (o :: p) ↔ Needs n e o ∧ ∃ d, e.operand? o = some d ∧ Demanded n d p := by
  constructor
  · intro h
    generalize hq : o :: p = q at h
    induction h generalizing p with
    | root => cases hq
    | @operand q' d' o' hp hd ho ih =>
        cases q' with
        | nil =>
            obtain ⟨rfl, rfl⟩ := List.cons.inj hq
            obtain rfl := Option.some.inj hd
            obtain ⟨d, hd⟩ := ho.exists_operand
            exact ⟨ho, d, hd, .root⟩
        | cons o'' q' =>
            obtain ⟨rfl, rfl⟩ := List.cons.inj hq
            obtain ⟨hneeds, d, hd', hq'⟩ := ih rfl
            rw [at?_cons_eq_some_iff] at hd
            obtain ⟨b, hb, hd⟩ := hd
            obtain rfl := Option.some.inj (hd'.symm.trans hb)
            exact ⟨hneeds, d, hd', .operand hq' hd ho⟩
  · rintro ⟨hneeds, d, hd, hp⟩
    induction hp with
    | root => exact .operand .root rfl hneeds
    | operand hp hd' ho ih => exact .operand ih (at?_cons_eq_some_iff.mpr ⟨d, hd, hd'⟩) ho

/-! ## What is not demanded -/

/-- An operand that is not needed may be any. -/
theorem eval_modifyOperand_of_not_needs (h : ¬ Needs n e o) (f : Expr → Expr) :
    (e.modifyOperand f o).eval n = e.eval n := by
  cases e with
  | literal value => rfl
  | count => rfl
  | unary op e =>
      cases o with
      | first => exact absurd (.unary op e) h
      | second => rfl
      | third => rfl
  | binary op l r =>
      cases o with
      | first => exact absurd (.left op l r) h
      | second =>
          rw [needs_binary_second_iff] at h
          cases hl : l.eval n with
          | error cause => simp [modifyOperand, eval, bind, Except.bind, hl]
          | ok a =>
              cases hs : op.shortcut a with
              | some v => simp [modifyOperand, eval, bind, Except.bind, hl, hs]
              | none => exact absurd ⟨a, hl, hs⟩ h
      | third => rfl
  | division op l r =>
      cases o with
      | first => exact absurd (.dividend op l r) h
      | second =>
          cases hl : l.eval n with
          | error cause => simp [modifyOperand, eval, bind, Except.bind, hl]
          | ok a => exact absurd (.divisor op r hl) h
      | third => rfl
  | conditional c t e =>
      cases o with
      | first => exact absurd (.condition c t e) h
      | second =>
          rw [needs_conditional_second_iff] at h
          cases hc : c.eval n with
          | error cause => simp [modifyOperand, eval, bind, Except.bind, hc]
          | ok a =>
              by_cases ha : a = 0
              · simp [modifyOperand, eval, bind, Except.bind, hc, ha]
              · exact absurd ⟨a, hc, ha⟩ h
      | third =>
          rw [needs_conditional_third_iff] at h
          cases hc : c.eval n with
          | error cause => simp [modifyOperand, eval, bind, Except.bind, hc]
          | ok a =>
              have ha : a ≠ 0 := by
                rintro rfl
                exact h hc
              simp [modifyOperand, eval, bind, Except.bind, hc, ha]

/-- Of an operand no more than its value counts. -/
theorem eval_modifyOperand_congr {f : Expr → Expr}
    (h : ∀ d, e.operand? o = some d → (f d).eval n = d.eval n) :
    (e.modifyOperand f o).eval n = e.eval n := by
  cases hd : e.operand? o with
  | none => rw [modifyOperand_of_operand?_eq_none hd]
  | some d =>
      have hd' := h d hd
      cases e <;> cases o <;> cases hd <;> simp only [modifyOperand, eval, hd']

theorem eval_replaceAt_of_not_demanded (h : ¬ Demanded n e p) (t : Expr) :
    (e.replaceAt p t).eval n = e.eval n := by
  induction p generalizing e with
  | nil => exact absurd .root h
  | cons o p ih =>
      rw [replaceAt]
      by_cases hneeds : Needs n e o
      · apply eval_modifyOperand_congr
        intro d hd
        apply ih
        intro hp
        exact h (demanded_cons_iff.mpr ⟨hneeds, d, hd, hp⟩)
      · exact eval_modifyOperand_of_not_needs hneeds _

/-! ## The node that fails -/

/-- At the position stands a division or remainder that is demanded and divides by zero, although both
of its operands have a value. -/
def FailsAt (n : Int32) (e : Expr) (op : DivisionOp) (p : Position) : Prop :=
  Demanded n e p ∧ ∃ d, e.at? p = some d ∧ DividesByZero n op d

variable {op op' : DivisionOp}

theorem failsAt_nil_iff : FailsAt n e op [] ↔ DividesByZero n op e := by
  constructor
  · rintro ⟨-, d, hd, h⟩
    obtain rfl := Option.some.inj hd
    exact h
  · exact fun h => ⟨.root, e, rfl, h⟩

theorem failsAt_cons_iff :
    FailsAt n e op (o :: p) ↔ Needs n e o ∧ ∃ d, e.operand? o = some d ∧ FailsAt n d op p := by
  constructor
  · rintro ⟨hp, t, ht, hzero⟩
    obtain ⟨hneeds, d, hd, hp⟩ := demanded_cons_iff.mp hp
    obtain ⟨d', hd', ht⟩ := at?_cons_eq_some_iff.mp ht
    obtain rfl := Option.some.inj (hd.symm.trans hd')
    exact ⟨hneeds, d, hd, hp, t, ht, hzero⟩
  · rintro ⟨hneeds, d, hd, hp, t, ht, hzero⟩
    exact ⟨demanded_cons_iff.mpr ⟨hneeds, d, hd, hp⟩, t, at?_cons_eq_some_iff.mpr ⟨d, hd, ht⟩, hzero⟩

theorem eval_eq_error_iff_failsAt :
    e.eval n = .error cause ↔ ∃ op p, FailsAt n e op p ∧ op.failure = cause := by
  induction e using operandInduction with
  | step e ih =>
      rw [eval_eq_error_iff_step]
      constructor
      · rintro (⟨o, d, hneeds, hd, he⟩ | ⟨op, hzero, hcause⟩)
        · obtain ⟨op, p, hp, hcause⟩ := (ih o d hd).mp he
          exact ⟨op, o :: p, failsAt_cons_iff.mpr ⟨hneeds, d, hd, hp⟩, hcause⟩
        · exact ⟨op, [], failsAt_nil_iff.mpr hzero, hcause⟩
      · rintro ⟨op, p, hp, hcause⟩
        cases p with
        | nil => exact .inr ⟨op, failsAt_nil_iff.mp hp, hcause⟩
        | cons o p =>
            obtain ⟨hneeds, d, hd, hp⟩ := failsAt_cons_iff.mp hp
            exact .inl ⟨o, d, hneeds, hd, (ih o d hd).mpr ⟨op, p, hp, hcause⟩⟩

theorem FailsAt.eval_eq_error (h : FailsAt n e op p) : e.eval n = .error op.failure :=
  eval_eq_error_iff_failsAt.mpr ⟨op, p, h, rfl⟩

/-- Nothing fails below a node that divides by zero. -/
theorem not_failsAt_cons (h : DividesByZero n op e) : ¬ FailsAt n e op' (o :: p) := by
  intro hp
  obtain ⟨-, d, hd, hp⟩ := failsAt_cons_iff.mp hp
  obtain ⟨a, ha⟩ := h.eval_operand hd
  cases ha.symm.trans hp.eval_eq_error

theorem failsAt_unique (h : FailsAt n e op p) (h' : FailsAt n e op' q) : op = op' ∧ p = q := by
  induction p generalizing e q with
  | nil =>
      have hzero := failsAt_nil_iff.mp h
      cases q with
      | nil =>
          obtain ⟨l, r, a, rfl, -⟩ := hzero
          obtain ⟨l', r', a', he, -⟩ := failsAt_nil_iff.mp h'
          exact ⟨(division.inj he).1, rfl⟩
      | cons o q => exact absurd h' (not_failsAt_cons hzero)
  | cons o p ih =>
      cases q with
      | nil => exact absurd h (not_failsAt_cons (failsAt_nil_iff.mp h'))
      | cons o' q =>
          obtain ⟨hneeds, d, hd, hp⟩ := failsAt_cons_iff.mp h
          obtain ⟨hneeds', d', hd', hq⟩ := failsAt_cons_iff.mp h'
          obtain rfl := needs_unique hneeds hd hp.eval_eq_error hneeds' hd' hq.eval_eq_error
          obtain rfl := Option.some.inj (hd.symm.trans hd')
          obtain ⟨hop, rfl⟩ := ih hp hq
          exact ⟨hop, rfl⟩

theorem eval_eq_failure_iff (e : Expr) (n : Int32) (op : DivisionOp) :
    e.eval n = .error op.failure ↔ ∃ p, FailsAt n e op p := by
  have hfailure (op' : DivisionOp) : op'.failure = op.failure ↔ op' = op := by
    cases op <;> cases op' <;> decide
  simp only [eval_eq_error_iff_failsAt, hfailure, exists_and_right, exists_eq_right]

/-- Only what is demanded matters. Any tree may stand at a position that is not, and the rule has the
same value or failure. The rule fails exactly if some division or remainder that is demanded divides
by zero, and then with the failure of that operator. No two nodes do so. -/
theorem only_demanded_matters (e : Expr) (n : Int32) :
    (∀ p d t, e.at? p = some d → ¬ Demanded n e p →
      (e.replaceAt p t).at? p = some t ∧ (e.replaceAt p t).eval n = e.eval n) ∧
    (e.eval n = .error .divisionByZero ↔ ∃ p, FailsAt n e .quotient p) ∧
    (e.eval n = .error .moduloByZero ↔ ∃ p, FailsAt n e .remainder p) ∧
    ∀ op op' p q, FailsAt n e op p → FailsAt n e op' q → op = op' ∧ p = q := by
  refine ⟨?_, eval_eq_failure_iff e n .quotient, eval_eq_failure_iff e n .remainder, ?_⟩
  · intro p d t hd hp
    exact ⟨at?_replaceAt hd t, eval_replaceAt_of_not_demanded hp t⟩
  · intro op op' p q h h'
    exact failsAt_unique h h'

end MessageCatalog.Plural.Expr
