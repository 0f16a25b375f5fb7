/-! Operators of plural rules: their spelling, how tightly they bind, and what they compute.

Arithmetic is 32-bit two's complement and wraps. Comparisons and logical operators give `1` or `0`,
and every value other than `0` counts as true. -/

namespace MessageCatalog.Plural

inductive UnaryOp where
  | negate
  | not
  | bitNot
deriving DecidableEq, Repr

inductive BinaryOp where
  | mul
  | add
  | sub
  | shl
  | shr
  | lt
  | gt
  | le
  | ge
  | eq
  | ne
  | bitAnd
  | bitXor
  | bitOr
  | and
  | or
deriving DecidableEq, Repr

/-- The two operators that have no value at a zero right operand. -/
inductive DivisionOp where
  | quotient
  | remainder
deriving DecidableEq, Repr

/-- The number that stands for a truth value. -/
def truth (b : Bool) : Int32 :=
  if b then 1 else 0

namespace UnaryOp

def text : UnaryOp → String
  | negate => "-"
  | not => "!"
  | bitNot => "~"

def apply : UnaryOp → Int32 → Int32
  | negate, a => -a
  | not, a => truth (a == 0)
  | bitNot, a => ~~~a

end UnaryOp

namespace BinaryOp

def text : BinaryOp → String
  | mul => "*"
  | add => "+"
  | sub => "-"
  | shl => "<<"
  | shr => ">>"
  | lt => "<"
  | gt => ">"
  | le => "<="
  | ge => ">="
  | eq => "=="
  | ne => "!="
  | bitAnd => "&"
  | bitXor => "^"
  | bitOr => "|"
  | and => "&&"
  | or => "||"

/-- Level `1` binds loosest and level `10` tightest. -/
def precedence : BinaryOp → Nat
  | mul => 10
  | add | sub => 9
  | shl | shr => 8
  | lt | gt | le | ge => 7
  | eq | ne => 6
  | bitAnd => 5
  | bitXor => 4
  | bitOr => 3
  | and => 2
  | or => 1

/-- Shift counts are taken modulo 32, and a right shift keeps the sign. -/
def apply : BinaryOp → Int32 → Int32 → Int32
  | mul, a, b => a * b
  | add, a, b => a + b
  | sub, a, b => a - b
  | shl, a, b => a <<< b
  | shr, a, b => a >>> b
  | lt, a, b => truth (a < b)
  | gt, a, b => truth (b < a)
  | le, a, b => truth (a ≤ b)
  | ge, a, b => truth (b ≤ a)
  | eq, a, b => truth (a == b)
  | ne, a, b => truth (a != b)
  | bitAnd, a, b => a &&& b
  | bitXor, a, b => a ^^^ b
  | bitOr, a, b => a ||| b
  | and, a, b => truth (a != 0 && b != 0)
  | or, a, b => truth (a != 0 || b != 0)

/-- The value that the left operand settles without the right one. -/
def shortcut : BinaryOp → Int32 → Option Int32
  | and, a => if a = 0 then some 0 else none
  | or, a => if a = 0 then none else some 1
  | _, _ => none

/-- A shortcut only anticipates what the operator computes anyway. -/
theorem apply_of_shortcut {op : BinaryOp} {a v : Int32} (h : op.shortcut a = some v) (b : Int32) :
    op.apply a b = v := by
  cases op <;> simp_all [shortcut, apply, truth]

end BinaryOp

namespace DivisionOp

def text : DivisionOp → String
  | quotient => "/"
  | remainder => "%"

def precedence (_ : DivisionOp) : Nat := 10

/-- Quotients round toward zero, and a remainder has the sign of the dividend. -/
def apply : DivisionOp → Int32 → Int32 → Int32
  | quotient, a, b => a / b
  | remainder, a, b => a % b

end DivisionOp

end MessageCatalog.Plural
