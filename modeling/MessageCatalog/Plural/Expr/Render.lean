import MessageCatalog.Plural.Expr.Basic

/-! Plural rules as text with every operation in parentheses. -/

namespace MessageCatalog.Plural

/-- Decimal digits after a sign if there is one. -/
def literalText (value : Int32) : List Char :=
  match value.toInt with
  | .ofNat k => Nat.toDigits 10 k
  | .negSucc k => '-' :: Nat.toDigits 10 (k + 1)

/-- Writes `e` in front of `rest`. -/
def Expr.renderOnto : Expr → List Char → List Char
  | literal value, rest => literalText value ++ rest
  | count, rest => 'n' :: rest
  | unary op e, rest => '(' :: (op.text.toList ++ e.renderOnto (')' :: rest))
  | binary op l r, rest =>
      '(' :: l.renderOnto (' ' :: (op.text.toList ++ ' ' :: r.renderOnto (')' :: rest)))
  | division op l r, rest =>
      '(' :: l.renderOnto (' ' :: (op.text.toList ++ ' ' :: r.renderOnto (')' :: rest)))
  | conditional c t e, rest =>
      '(' :: c.renderOnto (" ? ".toList ++ t.renderOnto (" : ".toList ++ e.renderOnto (')' :: rest)))

def Expr.render (e : Expr) : String :=
  .ofList (e.renderOnto [])

end MessageCatalog.Plural
