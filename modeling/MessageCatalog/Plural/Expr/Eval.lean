import MessageCatalog.Error
import MessageCatalog.Plural.Expr.Basic

/-! The value of a plural rule at a count.

Operands are evaluated from left to right, and only as far as they are needed: a shortcut skips the
right operand, and a conditional evaluates one of its branches. -/

namespace MessageCatalog.Plural

inductive EvalError where
  | divisionByZero
  | moduloByZero
deriving DecidableEq, Repr

namespace EvalError

def describe : EvalError → String
  | divisionByZero => "division by zero"
  | moduloByZero => "modulo by zero"

def toError (e : EvalError) : Error :=
  .pluralForm e.describe

end EvalError

/-- What the operator reports about a zero right operand. -/
def DivisionOp.failure : DivisionOp → EvalError
  | quotient => .divisionByZero
  | remainder => .moduloByZero

def DivisionOp.apply? (op : DivisionOp) (a b : Int32) : Except EvalError Int32 :=
  if b = 0 then .error op.failure else .ok (op.apply a b)

def Expr.eval (n : Int32) : Expr → Except EvalError Int32
  | literal value => .ok value
  | count => .ok n
  | unary op e => do
      return op.apply (← e.eval n)
  | binary op l r => do
      let a ← l.eval n
      match op.shortcut a with
      | some v => return v
      | none => return op.apply a (← r.eval n)
  | division op l r => do
      let a ← l.eval n
      let b ← r.eval n
      op.apply? a b
  | conditional c t e => do
      if (← c.eval n) ≠ 0 then t.eval n else e.eval n

end MessageCatalog.Plural
