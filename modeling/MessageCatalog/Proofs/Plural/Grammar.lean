import MessageCatalog.Plural.Expr.Parse

/-! # The grammar of plural rules

The grammar has a table of its own for which operators stand on which of its ten levels, from `||`,
which binds loosest, to `*`, `/` and `%`. A derivation records which productions were used. It has the
tokens that it derives, the tree that it stands for, and the number of unary operators, parentheses
and conditional branches that are open at once at most. No list of tokens has two derivations.
-/

namespace MessageCatalog.Plural

/-! ## Operators and their tokens -/

def Dyadic.token : Dyadic → Token
  | plain .mul => .char '*'
  | division .quotient => .char '/'
  | division .remainder => .char '%'
  | plain .add => .char '+'
  | plain .sub => .char '-'
  | plain .shl => .pair .shiftLeft
  | plain .shr => .pair .shiftRight
  | plain .lt => .char '<'
  | plain .gt => .char '>'
  | plain .le => .pair .lessEqual
  | plain .ge => .pair .greaterEqual
  | plain .eq => .pair .equal
  | plain .ne => .pair .notEqual
  | plain .bitAnd => .char '&'
  | plain .bitXor => .char '^'
  | plain .bitOr => .char '|'
  | plain .and => .pair .logicalAnd
  | plain .or => .pair .logicalOr

theorem Dyadic.ofToken?_token (op : Dyadic) : ofToken? op.token = some op := by
  rcases op with op | op <;> cases op <;> rfl

theorem Dyadic.ofToken?_eq_some_iff {t : Token} {op : Dyadic} :
    ofToken? t = some op ↔ t = op.token := by
  constructor
  · intro h
    unfold ofToken? at h
    split at h <;> first | (obtain rfl := Option.some.inj h; rfl) | cases h
  · rintro rfl
    exact op.ofToken?_token

theorem Dyadic.token_injective {op op' : Dyadic} (h : op.token = op'.token) : op = op' :=
  Option.some.inj (by rw [← ofToken?_token op, h, ofToken?_token op'])

theorem Dyadic.token_ne_finish (op : Dyadic) : op.token ≠ .finish := by
  rcases op with op | op <;> cases op <;> nofun

theorem Dyadic.depth_node (op : Dyadic) (left right : Expr) :
    (op.node left right).depth = 1 + max left.depth right.depth := by
  cases op <;> rfl

theorem Dyadic.precedence_pos (op : Dyadic) : 1 ≤ op.precedence := by
  rcases op with op | op <;> cases op <;> decide

theorem Dyadic.precedence_le (op : Dyadic) : op.precedence ≤ 10 := by
  rcases op with op | op <;> cases op <;> decide

def UnaryOp.token : UnaryOp → Token
  | negate => .char '-'
  | not => .char '!'
  | bitNot => .char '~'

theorem UnaryOp.ofToken?_token (op : UnaryOp) : ofToken? op.token = some op := by
  cases op <;> rfl

theorem UnaryOp.ofToken?_eq_some_iff {t : Token} {op : UnaryOp} :
    ofToken? t = some op ↔ t = op.token := by
  constructor
  · intro h
    unfold ofToken? at h
    split at h <;> first | (obtain rfl := Option.some.inj h; rfl) | cases h
  · rintro rfl
    exact op.ofToken?_token

theorem UnaryOp.token_injective {op op' : UnaryOp} (h : op.token = op'.token) : op = op' :=
  Option.some.inj (by rw [← ofToken?_token op, h, ofToken?_token op'])

theorem UnaryOp.token_ne_finish (op : UnaryOp) : op.token ≠ .finish := by
  cases op <;> nofun

/-! ## Levels -/

/-- The operators of a level, from the loosest level to the tightest. -/
def Dyadic.ofLevel : Nat → List Dyadic
  | 1 => [plain .or]
  | 2 => [plain .and]
  | 3 => [plain .bitOr]
  | 4 => [plain .bitXor]
  | 5 => [plain .bitAnd]
  | 6 => [plain .eq, plain .ne]
  | 7 => [plain .lt, plain .gt, plain .le, plain .ge]
  | 8 => [plain .shl, plain .shr]
  | 9 => [plain .add, plain .sub]
  | 10 => [plain .mul, division .quotient, division .remainder]
  | _ => []

/-- Each operator is on one level, and a parse joins it there. -/
theorem Dyadic.mem_ofLevel_iff {op : Dyadic} {k : Nat} : op ∈ ofLevel k ↔ op.precedence = k := by
  constructor
  · intro h
    unfold ofLevel at h
    split at h
    case h_11 => cases h
    all_goals
      revert op
      decide
  · rintro rfl
    rcases op with op | op <;> cases op <;> decide

/-! ## Derivations -/

/-- The left sides of the productions. -/
inductive Symbol where
  | conditional
  /-- Operands joined by operators of level `k` and tighter ones. -/
  | level (k : Nat)
  /-- What follows the first operand of level `k`. -/
  | chain (k : Nat)
  | unary
  | value
deriving DecidableEq, Repr

/-- The productions, each with the derivations of its parts. -/
inductive Derivation : Symbol → Type where
  | bare (condition : Derivation (.level 1)) : Derivation .conditional
  | choice (condition : Derivation (.level 1)) (yes no : Derivation .conditional) :
      Derivation .conditional
  | operands {k : Nat} (hk : k ≤ 10) (first : Derivation (.level (k + 1)))
      (rest : Derivation (.chain k)) : Derivation (.level k)
  | tightest {k : Nat} (hk : 10 < k) (operand : Derivation .unary) : Derivation (.level k)
  | stop {k : Nat} : Derivation (.chain k)
  | step {k : Nat} (op : Dyadic) (hop : op ∈ Dyadic.ofLevel k)
      (right : Derivation (.level (k + 1))) (rest : Derivation (.chain k)) : Derivation (.chain k)
  | prefixed (op : UnaryOp) (operand : Derivation .unary) : Derivation .unary
  | plain (value : Derivation .value) : Derivation .unary
  | number (k : Int32) : Derivation .value
  | count : Derivation .value
  | parens (inner : Derivation .conditional) : Derivation .value

/-- What a derivation stands for: a chain turns the tree on its left into a larger one. -/
abbrev Symbol.Tree : Symbol → Type
  | .chain _ => Expr → Expr
  | _ => Expr

namespace Derivation

/-- The tokens that are derived. -/
def yield {s : Symbol} : Derivation s → List Token
  | bare condition => condition.yield
  | choice condition yes no =>
      condition.yield ++ .char '?' :: (yes.yield ++ .char ':' :: no.yield)
  | operands _ first rest => first.yield ++ rest.yield
  | tightest _ operand => operand.yield
  | stop => []
  | step op _ right rest => op.token :: (right.yield ++ rest.yield)
  | prefixed op operand => op.token :: operand.yield
  | plain value => value.yield
  | number k => [.number k]
  | count => [.count]
  | parens inner => .char '(' :: (inner.yield ++ [.char ')'])

/-- Operators of one level join from the left. -/
def tree {s : Symbol} : Derivation s → s.Tree
  | bare condition => condition.tree
  | choice condition yes no => Expr.conditional condition.tree yes.tree no.tree
  | operands _ first rest => rest.tree first.tree
  | tightest _ operand => operand.tree
  | stop => id
  | step (.plain op) _ right rest => fun left => rest.tree (Expr.binary op left right.tree)
  | step (.division op) _ right rest => fun left => rest.tree (Expr.division op left right.tree)
  | prefixed op operand => Expr.unary op operand.tree
  | plain value => value.tree
  | number k => Expr.literal k
  | count => Expr.count
  | parens inner => inner.tree

/-- The tree that a derivation leads to behind the tree `left`, which counts for chains only. -/
def treeAfter (left : Expr) {s : Symbol} (d : Derivation s) : Expr :=
  match s, d.tree with
  | .conditional, e => e
  | .level _, e => e
  | .chain _, join => join left
  | .unary, e => e
  | .value, e => e

theorem tree_step {k : Nat} (op : Dyadic) (hop : op ∈ Dyadic.ofLevel k)
    (right : Derivation (.level (k + 1))) (rest : Derivation (.chain k)) :
    (step op hop right rest).tree = fun left => rest.tree (op.node left right.tree) := by
  cases op <;> rfl

theorem treeAfter_step {k : Nat} (op : Dyadic) (hop : op ∈ Dyadic.ofLevel k)
    (right : Derivation (.level (k + 1))) (rest : Derivation (.chain k)) (left : Expr) :
    (step op hop right rest).treeAfter left =
      rest.treeAfter (op.node left (right.treeAfter left)) :=
  congrFun (tree_step op hop right rest) left

/-- Unary operators, parentheses and conditional branches that are open at once, at most. -/
def nesting {s : Symbol} : Derivation s → Nat
  | bare condition => condition.nesting
  | choice condition yes no => max condition.nesting (1 + max yes.nesting no.nesting)
  | operands _ first rest => max first.nesting rest.nesting
  | tightest _ operand => operand.nesting
  | stop => 0
  | step _ _ right rest => max right.nesting rest.nesting
  | prefixed _ operand => 1 + operand.nesting
  | plain value => value.nesting
  | number _ => 0
  | count => 0
  | parens inner => 1 + inner.nesting

theorem depth_le_treeAfter {k : Nat} (left : Expr) :
    (c : Derivation (.chain k)) → left.depth ≤ (c.treeAfter left).depth
  | stop => Nat.le_refl _
  | step op hop right rest => by
      have h := rest.depth_le_treeAfter (op.node left (right.treeAfter left))
      rw [op.depth_node] at h
      rw [treeAfter_step]
      omega

end Derivation

end MessageCatalog.Plural
