import MessageCatalog.Plural.Expr.Eval
import MessageCatalog.Proofs.Fallible

/-! # Strict evaluation

Every operand is evaluated, from left to right, before its operator or conditional is looked at. What
the strict evaluation gives, the evaluation on demand gives as well. It fails more often, namely where
an operand fails that nobody needs; without divisions it never does.
-/

namespace MessageCatalog.Plural.Expr

open Fallible

/-- The value of a rule if every part of it has one. -/
def evalStrict (n : Int32) : Expr → Except EvalError Int32
  | literal value => .ok value
  | count => .ok n
  | unary op e => do
      return op.apply (← e.evalStrict n)
  | binary op l r => do
      let a ← l.evalStrict n
      let b ← r.evalStrict n
      return op.apply a b
  | division op l r => do
      let a ← l.evalStrict n
      let b ← r.evalStrict n
      op.apply? a b
  | conditional c t e => do
      let a ← c.evalStrict n
      let yes ← t.evalStrict n
      let no ← e.evalStrict n
      return if a ≠ 0 then yes else no

def divisionFree : Expr → Bool
  | literal _ => true
  | count => true
  | unary _ e => e.divisionFree
  | binary _ l r => l.divisionFree && r.divisionFree
  | division .. => false
  | conditional c t e => c.divisionFree && t.divisionFree && e.divisionFree

variable {n : Int32}

/-- Where the strict evaluation of both operands succeeds, an operator that looks at the right one
only on demand computes what it would compute from both. -/
theorem eval_binary_of_ok {op : BinaryOp} {l r : Expr} {a b : Int32} (hl : l.eval n = .ok a)
    (hr : r.eval n = .ok b) : (binary op l r).eval n = .ok (op.apply a b) := by
  simp only [eval, hl, hr, bind, Except.bind]
  cases hs : op.shortcut a with
  | some v => exact congrArg Except.ok (BinaryOp.apply_of_shortcut hs b).symm
  | none => rfl

theorem eval_conditional_of_ok {c t e : Expr} {a yes no : Int32} (hc : c.eval n = .ok a)
    (ht : t.eval n = .ok yes) (he : e.eval n = .ok no) :
    (conditional c t e).eval n = .ok (if a ≠ 0 then yes else no) := by
  simp only [eval, hc, ht, he, bind, Except.bind]
  split <;> rfl

theorem eval_of_evalStrict {e : Expr} {v : Int32} (h : e.evalStrict n = .ok v) :
    e.eval n = .ok v := by
  induction e generalizing v with
  | literal value => exact h
  | count => exact h
  | unary op e ih =>
      obtain ⟨a, ha, h⟩ := bind_eq_ok_iff.mp h
      rw [eval, ih ha]
      exact h
  | binary op l r ihl ihr =>
      obtain ⟨a, ha, h⟩ := bind_eq_ok_iff.mp h
      obtain ⟨b, hb, h⟩ := bind_eq_ok_iff.mp h
      obtain rfl := Except.ok.inj h
      exact eval_binary_of_ok (ihl ha) (ihr hb)
  | division op l r ihl ihr =>
      obtain ⟨a, ha, h⟩ := bind_eq_ok_iff.mp h
      obtain ⟨b, hb, h⟩ := bind_eq_ok_iff.mp h
      rw [eval, ihl ha, ihr hb]
      exact h
  | conditional c t e ihc iht ihe =>
      obtain ⟨a, ha, h⟩ := bind_eq_ok_iff.mp h
      obtain ⟨yes, hy, h⟩ := bind_eq_ok_iff.mp h
      obtain ⟨no, hno, h⟩ := bind_eq_ok_iff.mp h
      obtain rfl := Except.ok.inj h
      exact eval_conditional_of_ok (ihc ha) (iht hy) (ihe hno)

theorem exists_evalStrict {e : Expr} (h : e.divisionFree) (n : Int32) :
    ∃ v, e.evalStrict n = .ok v := by
  induction e with
  | literal value => exact ⟨value, rfl⟩
  | count => exact ⟨n, rfl⟩
  | unary op e ih =>
      obtain ⟨a, ha⟩ := ih h
      exact ⟨op.apply a, by rw [evalStrict, ha]; rfl⟩
  | binary op l r ihl ihr =>
      obtain ⟨hl, hr⟩ := Bool.and_eq_true_iff.mp h
      obtain ⟨a, ha⟩ := ihl hl
      obtain ⟨b, hb⟩ := ihr hr
      exact ⟨op.apply a b, by rw [evalStrict, ha, hb]; rfl⟩
  | division op l r => cases h
  | conditional c t e ihc iht ihe =>
      obtain ⟨hct, he⟩ := Bool.and_eq_true_iff.mp h
      obtain ⟨hc, ht⟩ := Bool.and_eq_true_iff.mp hct
      obtain ⟨a, ha⟩ := ihc hc
      obtain ⟨yes, hy⟩ := iht ht
      obtain ⟨no, hno⟩ := ihe he
      exact ⟨if a ≠ 0 then yes else no, by rw [evalStrict, ha, hy, hno]; rfl⟩

/-- The evaluation on demand gives every value that the strict one gives, and fails only where the
strict one does. Without divisions both give the same value. -/
theorem eval_refines_evalStrict (e : Expr) (n : Int32) :
    (∀ v, e.evalStrict n = .ok v → e.eval n = .ok v) ∧
    (∀ cause, e.eval n = .error cause → ∃ cause', e.evalStrict n = .error cause') ∧
    (e.divisionFree → ∃ v, e.eval n = .ok v ∧ e.evalStrict n = .ok v) := by
  refine ⟨fun v => eval_of_evalStrict, ?_, ?_⟩
  · intro cause he
    cases hs : e.evalStrict n with
    | ok v => cases he.symm.trans (eval_of_evalStrict hs)
    | error cause' => exact ⟨cause', rfl⟩
  · intro hd
    obtain ⟨v, hv⟩ := exists_evalStrict hd n
    exact ⟨v, eval_of_evalStrict hv, hv⟩

/-- The failure need not be the same: the strict evaluation meets another division first. -/
example :
    let e := conditional count (division .quotient count (literal 0))
      (division .remainder count (literal 0))
    e.eval 0 = .error .moduloByZero ∧ e.evalStrict 0 = .error .divisionByZero := by
  decide

end MessageCatalog.Plural.Expr
