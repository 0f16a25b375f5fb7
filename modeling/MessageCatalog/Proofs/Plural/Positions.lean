import MessageCatalog.Plural.Expr.Basic

/-! # Positions in a rule

A position is the way from the root of a tree down to one of its nodes, told by the operands taken.
The node that stands there can be looked at and replaced.
-/

namespace MessageCatalog.Plural

/-- An operand of a node. The condition of a conditional is its first one, and its branches follow. -/
inductive Operand where
  | first
  | second
  | third
deriving DecidableEq, Repr

abbrev Position := List Operand

namespace Expr

def operand? : Expr → Operand → Option Expr
  | unary _ e, .first => some e
  | binary _ l _, .first => some l
  | binary _ _ r, .second => some r
  | division _ l _, .first => some l
  | division _ _ r, .second => some r
  | conditional c _ _, .first => some c
  | conditional _ t _, .second => some t
  | conditional _ _ e, .third => some e
  | _, _ => none

/-- The node with one operand changed. An operand that it does not have is left alone. -/
def modifyOperand (f : Expr → Expr) : Expr → Operand → Expr
  | unary op e, .first => unary op (f e)
  | binary op l r, .first => binary op (f l) r
  | binary op l r, .second => binary op l (f r)
  | division op l r, .first => division op (f l) r
  | division op l r, .second => division op l (f r)
  | conditional c t e, .first => conditional (f c) t e
  | conditional c t e, .second => conditional c (f t) e
  | conditional c t e, .third => conditional c t (f e)
  | e, _ => e

/-- The tree that stands at a position, if the position is one of `e`. -/
def at? (e : Expr) : Position → Option Expr
  | [] => some e
  | o :: p => (e.operand? o).bind fun d => d.at? p

/-- The tree with `t` in place of what stands at a position. -/
def replaceAt (e : Expr) : Position → Expr → Expr
  | [], t => t
  | o :: p, t => e.modifyOperand (fun d => d.replaceAt p t) o

variable {e d t : Expr} {o : Operand} {p : Position}

theorem at?_cons_eq_some_iff :
    e.at? (o :: p) = some t ↔ ∃ d, e.operand? o = some d ∧ d.at? p = some t :=
  Option.bind_eq_some_iff

theorem operand?_modifyOperand (f : Expr → Expr) (e : Expr) (o : Operand) :
    (e.modifyOperand f o).operand? o = (e.operand? o).map f := by
  cases e <;> cases o <;> rfl

theorem modifyOperand_of_operand?_eq_none {f : Expr → Expr} (h : e.operand? o = none) :
    e.modifyOperand f o = e := by
  cases e <;> cases o <;> simp_all [operand?, modifyOperand]

/-- What has been put at a position stands there. -/
theorem at?_replaceAt (h : e.at? p = some d) (t : Expr) : (e.replaceAt p t).at? p = some t := by
  induction p generalizing e with
  | nil => rfl
  | cons o p ih =>
      obtain ⟨d', ho, hd⟩ := at?_cons_eq_some_iff.mp h
      rw [at?_cons_eq_some_iff, replaceAt, operand?_modifyOperand, ho]
      exact ⟨d'.replaceAt p t, rfl, ih hd⟩

/-- What holds of a tree if it holds of its operands holds of every tree. -/
@[elab_as_elim]
theorem operandInduction {P : Expr → Prop} (step : ∀ e, (∀ o d, e.operand? o = some d → P d) → P e)
    (e : Expr) : P e := by
  induction e with
  | literal value => exact step _ fun o d h => by cases o <;> cases h
  | count => exact step _ fun o d h => by cases o <;> cases h
  | unary op e ih =>
      refine step _ fun o d h => ?_
      cases o <;> cases h
      exact ih
  | binary op l r ihl ihr | division op l r ihl ihr =>
      refine step _ fun o d h => ?_
      cases o <;> cases h
      · exact ihl
      · exact ihr
  | conditional c t e ihc iht ihe =>
      refine step _ fun o d h => ?_
      cases o <;> cases h
      · exact ihc
      · exact iht
      · exact ihe

end Expr

end MessageCatalog.Plural
