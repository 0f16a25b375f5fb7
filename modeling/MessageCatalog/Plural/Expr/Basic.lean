import MessageCatalog.Plural.Operator

/-! Plural rules as trees over the count `n`. -/

namespace MessageCatalog.Plural

inductive Expr where
  | literal (value : Int32)
  /-- The count that the rule is asked about. -/
  | count
  | unary (op : UnaryOp) (operand : Expr)
  | binary (op : BinaryOp) (left right : Expr)
  | division (op : DivisionOp) (left right : Expr)
  | conditional (condition yes no : Expr)
deriving DecidableEq, Repr

/-- Levels of the tree; a leaf has one. -/
def Expr.depth : Expr → Nat
  | literal _ => 1
  | count => 1
  | unary _ e => 1 + e.depth
  | binary _ l r => 1 + max l.depth r.depth
  | division _ l r => 1 + max l.depth r.depth
  | conditional c t e => 1 + max (max c.depth t.depth) e.depth

end MessageCatalog.Plural
