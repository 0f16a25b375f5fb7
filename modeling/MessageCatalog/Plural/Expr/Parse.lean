import MessageCatalog.Error
import MessageCatalog.Plural.Expr.Basic
import MessageCatalog.Plural.Token.Cursor
import MessageCatalog.Settings.Basic
import MessageCatalog.Text.Blank

/-! Plural rules from their source.

```
conditional := level(1) ('?' conditional ':' conditional)?
level(k)    := level(k+1) (op(k) level(k+1))*          k = 1 .. 10
level(11)   := unary
unary       := ('-' | '!' | '~') unary | value
value       := NUMBER | 'n' | '(' conditional ')'
```

Two limits apply: a caller's limit on how many unary operators, parentheses and conditional branches
are open at once, and a fixed one on the depth of the tree. A chain of operators on one level opens
nothing. The first failure ends the parse. -/

namespace MessageCatalog.Plural

inductive SyntaxError where
  | number (fault : NumberTooLarge)
  | unexpected (found : Token) (offset : Nat)
  | missing (wanted : Char) (found : Token) (offset : Nat)
  | trailing (found : Token) (offset : Nat)
  | endOfExpression
  | nestedTooDeep (limit : Nat)
  | treeTooDeep (offset : Nat)
  /-- The bound on the recursion ran out, which no source comes to. -/
  | exhausted
deriving DecidableEq, Repr

/-- The levels that a rule's tree may have. -/
def maxTreeDepth : Nat := 4096

namespace SyntaxError

def describe : SyntaxError → String
  | number fault => fault.describe
  | unexpected found offset => s!"unexpected {found.describe} at offset {offset}"
  | missing wanted found offset =>
      s!"expected '{wanted}' but found {found.describe} at offset {offset}"
  | trailing found offset => s!"trailing input: unexpected {found.describe} at offset {offset}"
  | endOfExpression => "unexpected end of expression"
  | nestedTooDeep limit => s!"expression nested deeper than {limit} levels"
  | treeTooDeep offset => s!"expression tree deeper than {maxTreeDepth} levels at offset {offset}"
  | exhausted => "expression too long"

def toError (e : SyntaxError) : Error :=
  .pluralForm e.describe

end SyntaxError

/-- An operator that stands between its operands. -/
inductive Dyadic where
  | plain (op : BinaryOp)
  | division (op : DivisionOp)
deriving DecidableEq, Repr

namespace Dyadic

def ofToken? : Token → Option Dyadic
  | .char '*' => some (.plain .mul)
  | .char '/' => some (.division .quotient)
  | .char '%' => some (.division .remainder)
  | .char '+' => some (.plain .add)
  | .char '-' => some (.plain .sub)
  | .pair .shiftLeft => some (.plain .shl)
  | .pair .shiftRight => some (.plain .shr)
  | .char '<' => some (.plain .lt)
  | .char '>' => some (.plain .gt)
  | .pair .lessEqual => some (.plain .le)
  | .pair .greaterEqual => some (.plain .ge)
  | .pair .equal => some (.plain .eq)
  | .pair .notEqual => some (.plain .ne)
  | .char '&' => some (.plain .bitAnd)
  | .char '^' => some (.plain .bitXor)
  | .char '|' => some (.plain .bitOr)
  | .pair .logicalAnd => some (.plain .and)
  | .pair .logicalOr => some (.plain .or)
  | _ => none

def precedence : Dyadic → Nat
  | plain op => op.precedence
  | division op => op.precedence

def node : Dyadic → Expr → Expr → Expr
  | plain op => .binary op
  | division op => .division op

end Dyadic

/-- The unary operator that `token` writes. -/
def UnaryOp.ofToken? : Token → Option UnaryOp
  | .char '-' => some .negate
  | .char '!' => some .not
  | .char '~' => some .bitNot
  | _ => none

/-- A tree with its depth, so that the depth is never counted again. -/
structure Parsed where
  expr : Expr
  depth : Nat

/-- The state of a parse. -/
structure Parser where
  cursor : Cursor
  /-- Unary operators, parentheses and conditional branches that are open. -/
  nesting : Nat
  /-- Tokens taken so far. -/
  taken : Nat

namespace Parser

abbrev Run := EStateM SyntaxError Parser

def ofSource (source : List Char) : Parser :=
  ⟨.ofSource source, 0, 0⟩

def peek : Run Token := fun p =>
  match p.cursor.peek with
  | .ok token c => .ok token { p with cursor := c }
  | .error e c => .error (.number e) { p with cursor := c }

def advance : Run Token := fun p =>
  match p.cursor.advance with
  | .ok token c => .ok token { p with cursor := c, taken := p.taken + 1 }
  | .error e c => .error (.number e) { p with cursor := c }

def offset : Run Nat := fun p => .ok p.cursor.offset p

/-- Opens one more level of nesting. -/
def enter (limit : Nat) : Run Unit := fun p =>
  let p := { p with nesting := p.nesting + 1 }
  if limit < p.nesting then .error (.nestedTooDeep limit) p else .ok () p

/-- Closes the level opened last. -/
def leave : Run Unit := fun p =>
  .ok () { p with nesting := p.nesting - 1 }

/-- Takes the next token, which has to be the character `wanted`. -/
def expect (wanted : Char) : Run Unit := do
  let start ← offset
  let token ← advance
  if token = .char wanted then return () else throw (.missing wanted token start)

/-- A tree of `depth` levels, if so many are allowed. -/
def node (expr : Expr) (depth : Nat) : Run Parsed := do
  if maxTreeDepth < depth then throw (.treeTooDeep (← offset)) else return ⟨expr, depth⟩

mutual

/-- Each call hands on one unit less of `fuel`, which only bounds the recursion. -/
def conditional (limit : Nat) : (fuel : Nat) → Run Parsed
  | 0 => throw .exhausted
  | fuel + 1 => do
      let condition ← level limit fuel 1
      if (← peek) ≠ .char '?' then return condition
      discard advance
      enter limit
      let yes ← conditional limit fuel
      expect ':'
      let no ← conditional limit fuel
      leave
      node (.conditional condition.expr yes.expr no.expr)
        (1 + max (max condition.depth yes.depth) no.depth)

/-- Operators of level `k` and tighter ones. -/
def level (limit : Nat) : (fuel k : Nat) → Run Parsed
  | 0, _ => throw .exhausted
  | fuel + 1, k =>
      if 10 < k then unary limit fuel
      else do
        let left ← level limit fuel (k + 1)
        chain limit fuel k left

/-- Goes on from `left` for as long as operators of level `k` follow. -/
def chain (limit : Nat) : (fuel k : Nat) → (left : Parsed) → Run Parsed
  | 0, _, _ => throw .exhausted
  | fuel + 1, k, left => do
      match Dyadic.ofToken? (← peek) with
      | none => return left
      | some op =>
          if op.precedence ≠ k then return left
          discard advance
          let right ← level limit fuel (k + 1)
          let joined ← node (op.node left.expr right.expr) (1 + max left.depth right.depth)
          chain limit fuel k joined

def unary (limit : Nat) : (fuel : Nat) → Run Parsed
  | 0 => throw .exhausted
  | fuel + 1 => do
      match UnaryOp.ofToken? (← peek) with
      | none => value limit fuel
      | some op =>
          discard advance
          enter limit
          let operand ← unary limit fuel
          leave
          node (.unary op operand.expr) (operand.depth + 1)

def value (limit : Nat) : (fuel : Nat) → Run Parsed
  | 0 => throw .exhausted
  | fuel + 1 => do
      let start ← offset
      let token ← advance
      match token with
      | .number k => return ⟨.literal k, 1⟩
      | .count => return ⟨.count, 1⟩
      | .char c =>
          if c = '(' then
            enter limit
            let inner ← conditional limit fuel
            expect ')'
            leave
            return inner
          else throw (.unexpected token start)
      | .pair _ => throw (.unexpected token start)
      | .finish => throw .endOfExpression

end

/-- A whole source: one conditional and then its end. -/
def rule (limit fuel : Nat) : Run Expr := do
  let parsed ← conditional limit fuel
  match ← peek with
  | .finish => return parsed.expr
  | token => throw (.trailing token (← offset))

/-- Calls never nest deeper than this over `source`: fourteen of them lead from one token to the
next. -/
def bound (source : List Char) : Nat :=
  16 * (source.length + 1)

end Parser

namespace Expr

/-- The rule that `source` writes, nested no deeper than `limit`. -/
def parseWithin (limit : Nat) (source : String) : Except SyntaxError Expr :=
  let cs := source.toList
  match Parser.rule limit (Parser.bound cs) (.ofSource cs) with
  | .ok e _ => .ok e
  | .error e _ => .error e

def parse (source : String) : Except SyntaxError Expr :=
  parseWithin defaultMaxExpressionDepth.toNat source

/-- A source that is blank throughout writes no rule, which is no failure. -/
def parseOptional (limit : Nat) (source : String) : Except SyntaxError (Option Expr) :=
  if source.toList.all Text.isBlank then .ok none else (parseWithin limit source).map some

end Expr

end MessageCatalog.Plural
