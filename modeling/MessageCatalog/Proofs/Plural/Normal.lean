import Mathlib.Data.Nat.Init
import MessageCatalog.Plural.Expr.Eval
import MessageCatalog.Proofs.Plural.Grammar

/-! # Trees that a text can write

A text has no negative numbers: what it writes in their place is a minus sign in front of a positive
one. A tree in this form has the same values, and a derivation writes it with all of its operations
in parentheses.
-/

namespace MessageCatalog.Plural

namespace Expr

/-! ## Normal form -/

/-- The numbers in a tree. -/
def literals : Expr → List Int32
  | literal value => [value]
  | count => []
  | unary _ e => e.literals
  | binary _ l r => l.literals ++ r.literals
  | division _ l r => l.literals ++ r.literals
  | conditional c t e => c.literals ++ (t.literals ++ e.literals)

/-- The tree with a negation in place of each negative number. -/
def normal : Expr → Expr
  | literal value => if value < 0 then unary .negate (literal (-value)) else literal value
  | count => count
  | unary op e => unary op e.normal
  | binary op l r => binary op l.normal r.normal
  | division op l r => division op l.normal r.normal
  | conditional c t e => conditional c.normal t.normal e.normal

theorem normal_eq_self {e : Expr} (h : ∀ v ∈ e.literals, 0 ≤ v) : e.normal = e := by
  induction e with
  | literal value =>
      have hv := h value List.mem_cons_self
      rw [normal, if_neg (Int32.not_lt.mpr hv)]
  | count => rfl
  | unary op e ih => rw [normal, ih h]
  | binary op l r ihl ihr | division op l r ihl ihr =>
      simp only [literals, List.mem_append] at h
      rw [normal, ihl fun v hv => h v (.inl hv), ihr fun v hv => h v (.inr hv)]
  | conditional c t e ihc iht ihe =>
      simp only [literals, List.mem_append] at h
      rw [normal, ihc fun v hv => h v (.inl hv), iht fun v hv => h v (.inr (.inl hv)),
        ihe fun v hv => h v (.inr (.inr hv))]

theorem eval_normal (e : Expr) (n : Int32) : e.normal.eval n = e.eval n := by
  induction e with
  | literal value =>
      rw [normal]
      split
      · have hv : UnaryOp.negate.apply (-value) = value := Int32.neg_neg
        simp only [eval, bind, Except.bind, hv]
        rfl
      · rfl
  | count => rfl
  | unary op e ih => rw [normal, eval, ih, eval]
  | binary op l r ihl ihr => rw [normal, eval, ihl, ihr, eval]
  | division op l r ihl ihr => rw [normal, eval, ihl, ihr, eval]
  | conditional c t e ihc iht ihe => rw [normal, eval, ihc, iht, ihe, eval]

/-! ## The tokens of a tree -/

/-- Each operation stands in parentheses. -/
def tokens : Expr → List Token
  | literal value => if value < 0 then [.char '-', .number (-value)] else [.number value]
  | count => [.count]
  | unary op e => .char '(' :: op.token :: (e.tokens ++ [.char ')'])
  | binary op l r =>
      .char '(' :: (l.tokens ++ (Dyadic.plain op).token :: (r.tokens ++ [.char ')']))
  | division op l r =>
      .char '(' :: (l.tokens ++ (Dyadic.division op).token :: (r.tokens ++ [.char ')']))
  | conditional c t e =>
      .char '(' :: (c.tokens ++ .char '?' :: (t.tokens ++ .char ':' :: (e.tokens ++ [.char ')'])))

/-- How deep the tokens of a tree nest. -/
def cost : Expr → Nat
  | literal value => if value < 0 then 1 else 0
  | count => 0
  | unary _ e => 2 + e.cost
  | binary _ l r => 1 + max l.cost r.cost
  | division _ l r => 1 + max l.cost r.cost
  | conditional c t e => max (1 + c.cost) (2 + max t.cost e.cost)

end Expr

namespace Derivation

/-- An operand of a tight level is one of every looser level. -/
theorem exists_loose {j k : Nat} (hjk : j ≤ k) (hk : k ≤ 11) (d : Derivation (.level k)) :
    ∃ d' : Derivation (.level j),
      d'.yield = d.yield ∧ d'.tree = d.tree ∧ d'.nesting = d.nesting := by
  induction hjk using Nat.decreasingInduction with
  | self => exact ⟨d, rfl, rfl, rfl⟩
  | of_succ j hj ih =>
      obtain ⟨d', hy, ht, hn⟩ := ih
      refine ⟨operands (by omega) d' stop, ?_, ?_, ?_⟩
      · simp [yield, hy]
      · simp [tree, ht]
      · simp [nesting, hn]

theorem exists_operand (k : Nat) (hk : k ≤ 11) (u : Derivation .unary) :
    ∃ d : Derivation (.level k), d.yield = u.yield ∧ d.tree = u.tree ∧ d.nesting = u.nesting := by
  obtain ⟨d, hy, ht, hn⟩ := exists_loose hk (Nat.le_refl 11) (tightest (by decide) u)
  exact ⟨d, by rw [hy, yield], by rw [ht, tree], by rw [hn, nesting]⟩

theorem exists_joined (op : Dyadic) (l r : Derivation .unary) :
    ∃ d : Derivation .conditional, d.yield = l.yield ++ op.token :: r.yield ∧
      d.tree = op.node l.tree r.tree ∧ d.nesting = max l.nesting r.nesting := by
  have hp := op.precedence_le
  have hop : op ∈ Dyadic.ofLevel op.precedence := Dyadic.mem_ofLevel_iff.mpr rfl
  obtain ⟨dl, hly, hlt, hln⟩ := exists_operand (op.precedence + 1) (by omega) l
  obtain ⟨dr, hry, hrt, hrn⟩ := exists_operand (op.precedence + 1) (by omega) r
  obtain ⟨d, hy, ht, hn⟩ :=
    exists_loose op.precedence_pos (by omega) (operands hp dl (step op hop dr stop))
  refine ⟨bare d, ?_, ?_, ?_⟩
  · rw [yield, hy]
    simp [yield, hly, hry]
  · rw [tree, ht]
    simp [tree, tree_step, hlt, hrt]
  · rw [nesting, hn]
    simp [nesting, hln, hrn]

theorem exists_operation {l r : Expr} (op : Dyadic)
    (hl : ∃ d : Derivation .unary, d.yield = l.tokens ∧ d.tree = l.normal ∧ d.nesting = l.cost)
    (hr : ∃ d : Derivation .unary, d.yield = r.tokens ∧ d.tree = r.normal ∧ d.nesting = r.cost) :
    ∃ d : Derivation .unary,
      d.yield = .char '(' :: (l.tokens ++ op.token :: (r.tokens ++ [.char ')'])) ∧
        d.tree = op.node l.normal r.normal ∧ d.nesting = 1 + max l.cost r.cost := by
  obtain ⟨dl, hly, hlt, hln⟩ := hl
  obtain ⟨dr, hry, hrt, hrn⟩ := hr
  obtain ⟨d, hdy, hdt, hdn⟩ := exists_joined op dl dr
  refine ⟨plain (parens d), ?_, ?_, ?_⟩
  · simp [yield, hdy, hly, hry]
  · simp [tree, hdt, hlt, hrt]
  · simp [nesting, hdn, hln, hrn]

/-- The tokens of a tree derive from the grammar, and what they stand for is its normal form. -/
theorem exists_tokens (e : Expr) :
    ∃ d : Derivation .unary, d.yield = e.tokens ∧ d.tree = e.normal ∧ d.nesting = e.cost := by
  induction e with
  | literal value =>
      simp only [Expr.tokens, Expr.normal, Expr.cost]
      split
      · exact ⟨prefixed .negate (plain (number (-value))), rfl, rfl, rfl⟩
      · exact ⟨plain (number value), rfl, rfl, rfl⟩
  | count => exact ⟨plain count, rfl, rfl, rfl⟩
  | unary op e ih =>
      obtain ⟨u, hy, ht, hn⟩ := ih
      obtain ⟨d, hdy, hdt, hdn⟩ := exists_operand 1 (by decide) (prefixed op u)
      refine ⟨plain (parens (bare d)), ?_, ?_, ?_⟩
      · simp [yield, hdy, hy, Expr.tokens]
      · simp [tree, hdt, ht, Expr.normal]
      · simp only [nesting, hdn, hn, Expr.cost]
        omega
  | binary op l r ihl ihr => exact exists_operation (.plain op) ihl ihr
  | division op l r ihl ihr => exact exists_operation (.division op) ihl ihr
  | conditional c t e ihc iht ihe =>
      obtain ⟨uc, hcy, hct, hcn⟩ := ihc
      obtain ⟨ut, hty, htt, htn⟩ := iht
      obtain ⟨ue, hey, het, hen⟩ := ihe
      obtain ⟨dc, hdcy, hdct, hdcn⟩ := exists_operand 1 (by decide) uc
      obtain ⟨dt, hdty, hdtt, hdtn⟩ := exists_operand 1 (by decide) ut
      obtain ⟨de, hdey, hdet, hden⟩ := exists_operand 1 (by decide) ue
      refine ⟨plain (parens (choice dc (bare dt) (bare de))), ?_, ?_, ?_⟩
      · simp [yield, hdcy, hdty, hdey, hcy, hty, hey, Expr.tokens]
      · simp [tree, hdct, hdtt, hdet, hct, htt, het, Expr.normal]
      · simp only [nesting, hdcn, hdtn, hden, hcn, htn, hen, Expr.cost]
        omega

end Derivation

end MessageCatalog.Plural
