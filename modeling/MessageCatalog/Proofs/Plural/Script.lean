import MessageCatalog.Plural.Expr.Parse

/-! # The functions of the parser as scripts

Each function of the parser reads tokens, opens and closes levels of nesting and calls the others. Its
script writes this down as data, with a node for every single thing that it does. Run with the
functions themselves for its calls, a script does what its function does. So the script tells in which
order things are done, which the result of a run does not.
-/

namespace MessageCatalog.Plural

namespace Parser

/-! ## Whole sources -/

/-- A whole source, with the depth of its tree. -/
def wholeRule (limit : Nat) : (fuel : Nat) → Run Parsed
  | 0 => throw .exhausted
  | fuel + 1 => do
      let parsed ← conditional limit fuel
      match ← peek with
      | .finish => return parsed
      | token => throw (.trailing token (← offset))

theorem rule_eq_map_wholeRule (limit fuel : Nat) :
    rule limit fuel = Parsed.expr <$> wholeRule limit (fuel + 1) := by
  simp only [rule, wholeRule, map_eq_pure_bind, bind_assoc]
  refine bind_congr fun parsed => bind_congr fun token => ?_
  cases token <;> rfl

theorem discard_bind {α β : Type} (x : Run α) (f : Unit → Run β) :
    (discard x >>= f) = x >>= fun _ => f () :=
  (bind_assoc x _ f).trans (bind_congr fun _ => pure_bind () f)

/-! ## Scripts -/

/-- What opens a level of nesting. -/
inductive Construct where
  | operator (op : UnaryOp)
  | parenthesis
  /-- Both branches of a conditional. -/
  | branches
deriving DecidableEq, Repr

/-- A function of the parser with its arguments. -/
inductive Routine where
  | rule
  | conditional
  | level (k : Nat)
  | chain (k : Nat) (left : Parsed)
  | unary
  | value

/-- One thing that a function does, with what it does then. -/
inductive Script where
  | done (result : Parsed)
  | fail (error : SyntaxError)
  | peek (next : Token → Script)
  | advance (next : Token → Script)
  | offset (next : Nat → Script)
  | enter (what : Construct) (next : Script)
  | leave (next : Script)
  | call (callee : Routine) (next : Parsed → Script)

namespace Script

def expect (wanted : Char) (next : Script) : Script :=
  .offset fun start => .advance fun token =>
    if token = .char wanted then next else .fail (.missing wanted token start)

def node (expr : Expr) (depth : Nat) (next : Parsed → Script) : Script :=
  if maxTreeDepth < depth then .offset fun o => .fail (.treeTooDeep o) else next ⟨expr, depth⟩

/-- What a script does with the state of a parse where `answer` is asked for the calls. -/
def run (limit : Nat) (answer : Routine → Run Parsed) : Script → Run Parsed
  | done result => pure result
  | fail error => throw error
  | peek next => Parser.peek >>= fun token => (next token).run limit answer
  | advance next => Parser.advance >>= fun token => (next token).run limit answer
  | offset next => Parser.offset >>= fun o => (next o).run limit answer
  | enter _ next => Parser.enter limit >>= fun _ => next.run limit answer
  | leave next => Parser.leave >>= fun _ => next.run limit answer
  | call callee next => answer callee >>= fun result => (next result).run limit answer

variable {limit : Nat} {answer : Routine → Run Parsed}

theorem run_expect (wanted : Char) (next : Script) :
    (expect wanted next).run limit answer =
      Parser.expect wanted >>= fun _ => next.run limit answer := by
  simp only [expect, run, Parser.expect, bind_assoc]
  refine bind_congr fun start => bind_congr fun token => ?_
  split <;> rfl

theorem run_node (expr : Expr) (depth : Nat) (next : Parsed → Script) :
    (node expr depth next).run limit answer =
      Parser.node expr depth >>= fun result => (next result).run limit answer := by
  unfold node Parser.node
  split <;> rfl

end Script

namespace Routine

/-- The function itself. -/
def read (limit fuel : Nat) : Routine → Run Parsed
  | rule => wholeRule limit fuel
  | conditional => Parser.conditional limit fuel
  | level k => Parser.level limit fuel k
  | chain k left => Parser.chain limit fuel k left
  | unary => Parser.unary limit fuel
  | value => Parser.value limit fuel

def script : Routine → Script
  | rule => .call conditional fun parsed => .peek fun token =>
      match token with
      | .finish => .done parsed
      | token => .offset fun o => .fail (.trailing token o)
  | conditional => .call (level 1) fun condition => .peek fun token =>
      if token ≠ .char '?' then .done condition
      else .advance fun _ => .enter .branches <|
        .call conditional fun yes => .expect ':' <|
        .call conditional fun no => .leave <|
        .node (.conditional condition.expr yes.expr no.expr)
          (1 + max (max condition.depth yes.depth) no.depth) .done
  | level k =>
      if 10 < k then .call unary .done
      else .call (level (k + 1)) fun left => .call (chain k left) .done
  | chain k left => .peek fun token =>
      match Dyadic.ofToken? token with
      | none => .done left
      | some op =>
          if op.precedence ≠ k then .done left
          else .advance fun _ => .call (level (k + 1)) fun right =>
            .node (op.node left.expr right.expr) (1 + max left.depth right.depth) fun joined =>
            .call (chain k joined) .done
  | unary => .peek fun token =>
      match UnaryOp.ofToken? token with
      | none => .call value .done
      | some op => .advance fun _ => .enter (.operator op) <|
          .call unary fun operand => .leave <|
          .node (.unary op operand.expr) (operand.depth + 1) .done
  | value => .offset fun start => .advance fun token =>
      match token with
      | .number k => .done ⟨.literal k, 1⟩
      | .count => .done ⟨.count, 1⟩
      | .char c =>
          if c = '(' then
            .enter .parenthesis <| .call conditional fun inner => .expect ')' <| .leave <| .done inner
          else .fail (.unexpected token start)
      | .pair _ => .fail (.unexpected token start)
      | .finish => .fail .endOfExpression

theorem script_level_of_lt {k : Nat} (hk : 10 < k) :
    (level k).script = .call unary .done :=
  if_pos hk

theorem script_level_of_not_lt {k : Nat} (hk : ¬ 10 < k) :
    (level k).script = .call (level (k + 1)) fun left => .call (chain k left) .done :=
  if_neg hk

theorem read_zero (limit : Nat) (f : Routine) : f.read limit 0 = throw .exhausted := by
  cases f <;> rfl

/-- A function does what its script says. The calls have one unit less of fuel. -/
theorem read_succ (limit fuel : Nat) (f : Routine) :
    f.read limit (fuel + 1) = f.script.run limit (read limit fuel) := by
  cases f with
  | rule =>
      refine bind_congr fun parsed => bind_congr fun token => ?_
      cases token <;> rfl
  | conditional =>
      refine bind_congr fun condition => bind_congr fun token => ?_
      by_cases ht : token ≠ .char '?'
      · simp [ht, Script.run]
      · simp [ht, Script.run, discard_bind, Script.run_expect, Script.run_node, read]
  | level k =>
      by_cases hk : 10 < k
      · simp [read, Parser.level, script_level_of_lt hk, hk, Script.run]
      · simp [read, Parser.level, script_level_of_not_lt hk, hk, Script.run]
  | chain k left =>
      refine bind_congr fun token => ?_
      cases hop : Dyadic.ofToken? token with
      | none => simp [hop, Script.run]
      | some op =>
          by_cases hk : op.precedence ≠ k
          · simp [hop, hk, Script.run]
          · simp [hop, hk, Script.run, discard_bind, Script.run_node, read]
  | unary =>
      refine bind_congr fun token => ?_
      cases hop : UnaryOp.ofToken? token with
      | none => simp [hop, Script.run, read]
      | some op => simp [hop, Script.run, discard_bind, Script.run_node, read]
  | value =>
      refine bind_congr fun start => bind_congr fun token => ?_
      cases token with
      | char c =>
          by_cases hc : c = '('
          · simp [hc, Script.run, Script.run_expect, read]
          · simp [hc, Script.run]
      | number k => rfl
      | count => rfl
      | pair p => rfl
      | finish => rfl

end Routine

end Parser

end MessageCatalog.Plural
