import MessageCatalog.Proofs.Plural.Contracts
import MessageCatalog.Proofs.Plural.Recompiling

/-! # What the functions of the parser promise

All through a parse the cursor stands behind the tokens that have been taken, and a call knows what it
has opened. A call goes on to calls that have fewer tokens in front of them, or as many and a lower
rank. It gives a tree whose depth is counted right, which is not too deep and has no negative numbers.
-/

namespace MessageCatalog.Plural.Parser

/-! ## The terms of the contract -/

/-- A tree with its own depth that is not too deep and has no negative numbers. -/
structure Accounted (r : Parsed) : Prop extends Fits r where
  nonneg : ∀ k ∈ r.expr.literals, 0 ≤ k

/-- The calls that lead from this one down to the next token. -/
def Routine.rank : Routine → Nat
  | rule => 14
  | conditional => 13
  | level k => 13 - min k 11
  | unary => 1
  | value => 0
  | chain _ _ => 0

/-- How many tokens a function has taken when it is done: a chain none, or an operator and at least
one more, and any other function at least one. -/
def Routine.Takes : (f : Routine) → (before after : Nat) → Prop
  | chain _ _, before, after => after = before ∨ before + 2 ≤ after
  | _, before, after => before < after

/-- The token with the number `k`, or the end behind the last one. -/
def tokenAt (source : List Char) (k : Nat) : Token :=
  (reading 0 source).tokens[k]?.getD .finish

/-- The tokens that are in front of a call, and its rank. -/
def Invocation.weight (source : List Char) (i : Invocation) : Nat × Nat :=
  ((reading 0 source).tokens.length - i.entry.taken, i.routine.rank)

/-- The second call has fewer tokens in front of it than the first one, or as many and a lower rank. -/
def Descends (source : List Char) (i j : Invocation) : Prop :=
  Prod.Lex (· < ·) (· < ·) (j.weight source) (i.weight source)

/-- What the first call has open when it makes the second one, and the token that has opened it. -/
def Opens (source : List Char) : (i j : Invocation) → List Construct → Prop
  | ⟨.unary, before⟩, ⟨.unary, entry⟩, opened =>
      ∃ op, UnaryOp.ofToken? (tokenAt source before.taken) = some op ∧
        entry.taken = before.taken + 1 ∧ opened = [.operator op]
  | ⟨.value, before⟩, ⟨.conditional, entry⟩, opened =>
      tokenAt source before.taken = .char '(' ∧
        entry.taken = before.taken + 1 ∧ opened = [.parenthesis]
  | ⟨.conditional, before⟩, ⟨.conditional, entry⟩, opened =>
      (∃ k, before.taken < k ∧ k + 1 = entry.taken ∧
        (tokenAt source k = .char '?' ∨ tokenAt source k = .char ':')) ∧ opened = [.branches]
  | _, _, opened => opened = []

/-- A chain that goes on has taken an operator of its level and at least one more token. -/
def GoesOn (source : List Char) : (i j : Invocation) → Prop
  | ⟨.chain k _, before⟩, ⟨.chain k' _, entry⟩ =>
      k' = k ∧ before.taken + 2 ≤ entry.taken ∧
        ∃ op, Dyadic.ofToken? (tokenAt source before.taken) = some op ∧ op.precedence = k
  | _, _ => True

/-- The call `i` may make the call `j` with these constructs open. -/
structure Allowed (source : List Char) (i : Invocation) (opened : List Construct)
    (j : Invocation) : Prop where
  descends : Descends source i j
  opens : Opens source i j opened
  goesOn : GoesOn source i j
  accounted : ∀ k left, j.routine = .chain k left → Accounted left

/-- The call `i` with these constructs open has come to `p`. -/
structure Stays (source : List Char) (i : Invocation) (opened : List Construct)
    (p : Parser) : Prop where
  entry_le : i.entry.taken ≤ p.taken
  taken_le : p.taken ≤ (reading 0 source).tokens.length
  shows : p.Shows ((reading 0 source).tokens.drop p.taken) (reading 0 source).fault
    (i.entry.nesting + opened.length)

/-- What a call gives. -/
structure Given (i : Invocation) (r : Parsed) (p : Parser) : Prop where
  accounted : Accounted r
  takes : i.routine.Takes i.entry.taken p.taken

def promises (source : List Char) : Contract where
  holds := Stays source
  allows := Allowed source
  gives := Given

variable {source : List Char} {limit : Nat} {i j : Invocation} {opened : List Construct}
  {p q : Parser} {t : Token} {what : Construct}

/-! ## Tokens -/

theorem lt_length_of_tokenAt {k : Nat} (h : tokenAt source k ≠ .finish) :
    k < (reading 0 source).tokens.length := by
  by_contra hle
  exact h (by simp [tokenAt, List.getElem?_eq_none (Nat.le_of_not_lt hle)])

theorem eq_tokenAt_of_next {k : Nat}
    (h : next ((reading 0 source).tokens.drop k) (reading 0 source).fault = .ok t) :
    t = tokenAt source k := by
  rw [tokenAt, ← List.head?_drop]
  cases hdrop : (reading 0 source).tokens.drop k with
  | nil =>
      rw [hdrop] at h
      cases hfault : (reading 0 source).fault <;> rw [hfault] at h <;> cases h
      rfl
  | cons t' w =>
      rw [hdrop] at h
      cases h
      rfl

theorem nonneg_of_tokenAt {k : Nat} {value : Int32} (h : tokenAt source k = .number value) :
    0 ≤ value := by
  have hlt : k < (reading 0 source).tokens.length := lt_length_of_tokenAt (by simp [h])
  rw [tokenAt, List.getElem?_eq_getElem hlt] at h
  exact nonneg_of_mem_reading (List.mem_of_getElem h)

/-! ## Single steps -/

/-- Nothing has been taken since. -/
theorem Stays.still {later : List Construct} (h : Stays source i opened p)
    (htaken : q.taken = p.taken)
    (hshows : q.Shows ((reading 0 source).tokens.drop p.taken) (reading 0 source).fault
      (i.entry.nesting + later.length)) : Stays source i later q :=
  ⟨htaken ▸ h.entry_le, htaken ▸ h.taken_le, htaken ▸ hshows⟩

theorem ensures_of_ok {α : Type} {x : Run α} {post : α → Parser → Prop}
    (h : ∀ a q, x p = .ok a q → post a q) : Ensures (fun _ => True) x p post := by
  unfold Ensures
  cases hx : x p with
  | ok a q => exact h a q hx
  | error e q => trivial

theorem taken_of_peek (h : p.peek = .ok t q) : q.taken = p.taken := by
  simp only [peek] at h
  split at h <;> cases h
  rfl

theorem taken_of_advance (h : p.advance = .ok t q) : q.taken = p.taken + 1 := by
  simp only [advance] at h
  split at h <;> cases h
  rfl

theorem taken_of_enter (h : p.enter limit = .ok () q) : q.taken = p.taken := by
  simp only [enter] at h
  split at h <;> cases h
  rfl

theorem keeps_peek {next : Token → Script} (h : Stays source i opened p)
    (hnext : ∀ q, Stays source i opened q → q.taken = p.taken →
      (next (tokenAt source p.taken)).Keeps (promises source) limit i opened q) :
    (Script.peek next).Keeps (promises source) limit i opened p := by
  refine ⟨h, ensures_of_ok ?_⟩
  intro t q hq
  obtain ⟨ht, hshows⟩ := h.shows.of_peek hq
  rw [eq_tokenAt_of_next ht]
  exact hnext q (h.still (taken_of_peek hq) hshows) (taken_of_peek hq)

/-- The end can be taken as well. Nothing is known of what comes then. -/
theorem keeps_advance {next : Token → Script} (h : Stays source i opened p)
    (hnext : ∀ q, (tokenAt source p.taken ≠ .finish → Stays source i opened q) →
      q.taken = p.taken + 1 →
      (next (tokenAt source p.taken)).Keeps (promises source) limit i opened q) :
    (Script.advance next).Keeps (promises source) limit i opened p := by
  refine ⟨h, ensures_of_ok ?_⟩
  intro t q hq
  have htaken := taken_of_advance hq
  obtain ⟨ht, hshows⟩ := h.shows.of_advance hq
  rw [eq_tokenAt_of_next ht]
  refine hnext q ?_ htaken
  intro hne
  have hle := h.entry_le
  have hlt := lt_length_of_tokenAt hne
  refine ⟨by omega, by omega, ?_⟩
  rwa [List.tail_drop, ← htaken] at hshows

/-- A token that was looked at is there to be taken. -/
theorem keeps_advance_of_ne {next : Token → Script} (h : Stays source i opened p)
    (hne : tokenAt source p.taken ≠ .finish)
    (hnext : ∀ q, Stays source i opened q → q.taken = p.taken + 1 →
      (next (tokenAt source p.taken)).Keeps (promises source) limit i opened q) :
    (Script.advance next).Keeps (promises source) limit i opened p :=
  keeps_advance h fun q hq => hnext q (hq hne)

theorem keeps_offset {next : Nat → Script} (h : Stays source i opened p)
    (hnext : ∀ o, (next o).Keeps (promises source) limit i opened p) :
    (Script.offset next).Keeps (promises source) limit i opened p :=
  ⟨h, hnext p.cursor.offset⟩

theorem keeps_enter {next : Script} (h : Stays source i opened p)
    (hnext : ∀ q, Stays source i (what :: opened) q → q.taken = p.taken →
      next.Keeps (promises source) limit i (what :: opened) q) :
    (Script.enter what next).Keeps (promises source) limit i opened p := by
  refine ⟨h, ensures_of_ok ?_⟩
  intro _ q hq
  exact hnext q (h.still (taken_of_enter hq) (h.shows.of_enter hq).2) (taken_of_enter hq)

theorem keeps_leave {next : Script} (h : Stays source i (what :: opened) p)
    (hnext : ∀ q, Stays source i opened q → q.taken = p.taken →
      next.Keeps (promises source) limit i opened q) :
    (Script.leave next).Keeps (promises source) limit i (what :: opened) p := by
  refine ⟨h, List.cons_ne_nil what opened, ensures_of_ok ?_⟩
  intro _ q hq
  have hshows := Shows.of_leave h.shows hq
  cases hq
  exact hnext _ (h.still rfl hshows) rfl

theorem keeps_expect {wanted : Char} {next : Script} (h : Stays source i opened p)
    (hnext : ∀ q, Stays source i opened q → q.taken = p.taken + 1 →
      tokenAt source p.taken = .char wanted →
      next.Keeps (promises source) limit i opened q) :
    (Script.expect wanted next).Keeps (promises source) limit i opened p := by
  refine keeps_offset h fun start => keeps_advance h fun q hq htaken => ?_
  by_cases ht : tokenAt source p.taken = .char wanted
  · rw [if_pos ht]
    exact hnext q (hq (by simp [ht])) htaken ht
  · rw [if_neg ht]
    trivial

theorem keeps_node {e : Expr} {depth : Nat} {next : Parsed → Script}
    (h : Stays source i opened p) (hnext : depth ≤ maxTreeDepth →
      (next ⟨e, depth⟩).Keeps (promises source) limit i opened p) :
    (Script.node e depth next).Keeps (promises source) limit i opened p := by
  unfold Script.node
  by_cases hd : maxTreeDepth < depth
  · rw [if_pos hd]
    exact keeps_offset h fun _ => trivial
  · rw [if_neg hd]
    exact hnext (Nat.le_of_not_lt hd)

/-- What holds when a call is done holds of the call that has made it. -/
theorem Stays.of_callee {callee : Routine} (h : Stays source i opened p)
    (hq : Stays source ⟨callee, p⟩ [] q) : Stays source i opened q where
  entry_le := Nat.le_trans h.entry_le hq.entry_le
  taken_le := hq.taken_le
  shows := h.shows.nesting ▸ hq.shows

theorem keeps_call {callee : Routine} {next : Parsed → Script} (h : Stays source i opened p)
    (hallowed : Allowed source i opened ⟨callee, p⟩)
    (hnext : ∀ r q, Stays source i opened q → p.taken ≤ q.taken → Given ⟨callee, p⟩ r q →
      (next r).Keeps (promises source) limit i opened q) :
    (Script.call callee next).Keeps (promises source) limit i opened p := by
  refine ⟨h, hallowed, ?_⟩
  intro r q hq hr
  exact hnext r q (h.of_callee hq) hq.entry_le hr

theorem keeps_done {r : Parsed} (h : Stays source i [] p) (haccounted : Accounted r)
    (htakes : i.routine.Takes i.entry.taken p.taken) :
    (Script.done r).Keeps (promises source) limit i [] p :=
  ⟨rfl, h, haccounted, htakes⟩

/-! ## Calls -/

theorem descends_of_rank {callee : Routine} (htaken : p.taken = i.entry.taken)
    (hrank : callee.rank < i.routine.rank) : Descends source i ⟨callee, p⟩ := by
  simp only [Descends, Invocation.weight, htaken]
  exact .right _ hrank

theorem descends_of_taken {callee : Routine} (h : Stays source i opened p)
    (htaken : i.entry.taken < p.taken) : Descends source i ⟨callee, p⟩ := by
  have hle := h.taken_le
  refine .left _ _ ?_
  change _ - p.taken < _ - i.entry.taken
  omega

/-! ## Trees -/

theorem accounted_literal {k : Int32} (h : 0 ≤ k) : Accounted ⟨.literal k, 1⟩ :=
  ⟨⟨rfl, one_le_maxTreeDepth⟩, by simpa [Expr.literals] using h⟩

theorem accounted_count : Accounted ⟨.count, 1⟩ :=
  ⟨⟨rfl, one_le_maxTreeDepth⟩, by simp [Expr.literals]⟩

variable {a b c : Parsed}

theorem Accounted.unary (op : UnaryOp) (h : Accounted a) (hd : a.depth + 1 ≤ maxTreeDepth) :
    Accounted ⟨.unary op a.expr, a.depth + 1⟩ where
  depth_eq := by simp only [Expr.depth, ← h.depth_eq]; omega
  depth_le := hd
  nonneg := h.nonneg

theorem Accounted.dyadic (op : Dyadic) (ha : Accounted a) (hb : Accounted b)
    (hd : 1 + max a.depth b.depth ≤ maxTreeDepth) :
    Accounted ⟨op.node a.expr b.expr, 1 + max a.depth b.depth⟩ where
  depth_eq := by cases op <;> simp only [Dyadic.node, Expr.depth, ← ha.depth_eq, ← hb.depth_eq]
  depth_le := hd
  nonneg := by
    intro k hk
    have hmem : k ∈ a.expr.literals ∨ k ∈ b.expr.literals := by
      cases op <;> exact List.mem_append.mp hk
    cases hmem with
    | inl hleft => exact ha.nonneg k hleft
    | inr hright => exact hb.nonneg k hright

theorem Accounted.conditional (ha : Accounted a) (hb : Accounted b) (hc : Accounted c)
    (hd : 1 + max (max a.depth b.depth) c.depth ≤ maxTreeDepth) :
    Accounted ⟨.conditional a.expr b.expr c.expr, 1 + max (max a.depth b.depth) c.depth⟩ where
  depth_eq := by simp only [Expr.depth, ← ha.depth_eq, ← hb.depth_eq, ← hc.depth_eq]
  depth_le := hd
  nonneg := by
    intro k hk
    simp only [Expr.literals, List.mem_append] at hk
    cases hk with
    | inl hcondition => exact ha.nonneg k hcondition
    | inr hbranch =>
        cases hbranch with
        | inl hyes => exact hb.nonneg k hyes
        | inr hno => exact hc.nonneg k hno

/-! ## One function after the other -/

theorem keeps_rule (h : Stays source ⟨.rule, p⟩ [] p) :
    (Routine.script .rule).Keeps (promises source) limit ⟨.rule, p⟩ [] p := by
  refine keeps_call h ⟨descends_of_rank rfl (Nat.lt_succ_self 13), rfl, trivial, nofun⟩ ?_
  intro r p₁ h₁ _ hr
  have hlt₁ : p.taken < p₁.taken := hr.takes
  refine keeps_peek h₁ fun p₂ h₂ ht₂ => ?_
  cases tokenAt source p₁.taken with
  | finish => exact keeps_done h₂ hr.accounted (ht₂ ▸ hlt₁)
  | _ => exact keeps_offset h₂ fun _ => trivial

theorem keeps_conditional (h : Stays source ⟨.conditional, p⟩ [] p) :
    (Routine.script .conditional).Keeps (promises source) limit ⟨.conditional, p⟩ [] p := by
  refine keeps_call h ⟨descends_of_rank rfl (Nat.lt_succ_self 12), rfl, trivial, nofun⟩ ?_
  intro condition p₁ h₁ _ hcondition
  have hlt₁ : p.taken < p₁.taken := hcondition.takes
  refine keeps_peek h₁ fun p₂ h₂ ht₂ => ?_
  by_cases hmark : tokenAt source p₁.taken = .char '?'
  · rw [if_neg (not_not.mpr hmark)]
    rw [← ht₂] at hmark
    refine keeps_advance_of_ne h₂ (by simp [hmark]) fun p₃ h₃ ht₃ => ?_
    refine keeps_enter h₃ fun p₄ h₄ ht₄ => ?_
    -- The first branch stands behind the mark and the second one behind the colon.
    have hlt₄ : p.taken < p₄.taken := by omega
    refine keeps_call h₄ ⟨descends_of_taken h₄ hlt₄,
      ⟨⟨p₂.taken, by omega, by omega, .inl hmark⟩, rfl⟩, trivial, nofun⟩ ?_
    intro yes p₅ h₅ hle₅ hyes
    refine keeps_expect h₅ fun p₆ h₆ ht₆ hcolon => ?_
    have hlt₆ : p.taken < p₆.taken := by omega
    refine keeps_call h₆ ⟨descends_of_taken h₆ hlt₆,
      ⟨⟨p₅.taken, by omega, by omega, .inr hcolon⟩, rfl⟩, trivial, nofun⟩ ?_
    intro no p₇ h₇ hle₇ hno
    refine keeps_leave h₇ fun p₈ h₈ ht₈ => ?_
    have hlt₈ : p.taken < p₈.taken := by omega
    refine keeps_node h₈ fun hd => ?_
    exact keeps_done h₈ (hcondition.accounted.conditional hyes.accounted hno.accounted hd) hlt₈
  · rw [if_pos hmark]
    exact keeps_done h₂ hcondition.accounted (ht₂ ▸ hlt₁)

theorem keeps_level {k : Nat} (h : Stays source ⟨.level k, p⟩ [] p) :
    (Routine.script (.level k)).Keeps (promises source) limit ⟨.level k, p⟩ [] p := by
  by_cases hk : 10 < k
  · rw [Routine.script_level_of_lt hk]
    have hrank : Routine.unary.rank < (Routine.level k).rank := by
      simp only [Routine.rank]
      omega
    refine keeps_call h ⟨descends_of_rank rfl hrank, rfl, trivial, nofun⟩ ?_
    intro r p₁ h₁ _ hr
    exact keeps_done h₁ hr.accounted hr.takes
  · rw [Routine.script_level_of_not_lt hk]
    have hrank : (Routine.level (k + 1)).rank < (Routine.level k).rank := by
      simp only [Routine.rank]
      omega
    refine keeps_call h ⟨descends_of_rank rfl hrank, rfl, trivial, nofun⟩ ?_
    intro left p₁ h₁ _ hleft
    have hlt₁ : p.taken < p₁.taken := hleft.takes
    refine keeps_call h₁ ⟨descends_of_taken h₁ hlt₁, rfl, trivial, ?_⟩ ?_
    · intro k' left' heq
      cases heq
      exact hleft.accounted
    · intro r p₂ h₂ hle₂ hr
      exact keeps_done h₂ hr.accounted (Nat.lt_of_lt_of_le hlt₁ hle₂)

theorem keeps_chain {k : Nat} {left : Parsed} (hleft : Accounted left)
    (h : Stays source ⟨.chain k left, p⟩ [] p) :
    (Routine.script (.chain k left)).Keeps (promises source) limit ⟨.chain k left, p⟩ [] p := by
  refine keeps_peek h fun p₁ h₁ ht₁ => ?_
  cases hop : Dyadic.ofToken? (tokenAt source p.taken) with
  | none => exact keeps_done h₁ hleft (.inl ht₁)
  | some op =>
      by_cases hk : op.precedence = k
      · simp only [if_neg (not_not.mpr hk)]
        have hne : tokenAt source p₁.taken ≠ .finish := by
          intro hfinish
          rw [← ht₁, hfinish] at hop
          cases hop
        refine keeps_advance_of_ne h₁ hne fun p₂ h₂ ht₂ => ?_
        have hlt₂ : p.taken < p₂.taken := by omega
        refine keeps_call h₂ ⟨descends_of_taken h₂ hlt₂, rfl, trivial, nofun⟩ ?_
        intro right p₃ h₃ _ hright
        have hlt₃ : p₂.taken < p₃.taken := hright.takes
        refine keeps_node h₃ fun hd => ?_
        have hjoined := hleft.dyadic op hright.accounted hd
        refine keeps_call h₃ ⟨descends_of_taken h₃ (Nat.lt_trans hlt₂ hlt₃), rfl,
          ⟨rfl, by omega, op, hop, hk⟩, ?_⟩ ?_
        · intro k' left' heq
          cases heq
          exact hjoined
        · intro r p₄ h₄ hle₄ hr
          have hlt₄ : p.taken + 2 ≤ p₄.taken := by omega
          exact keeps_done h₄ hr.accounted (.inr hlt₄)
      · simp only [if_pos hk]
        exact keeps_done h₁ hleft (.inl ht₁)

theorem keeps_unary (h : Stays source ⟨.unary, p⟩ [] p) :
    (Routine.script .unary).Keeps (promises source) limit ⟨.unary, p⟩ [] p := by
  refine keeps_peek h fun p₁ h₁ ht₁ => ?_
  cases hop : UnaryOp.ofToken? (tokenAt source p.taken) with
  | none =>
      refine keeps_call h₁ ⟨descends_of_rank ht₁ Nat.one_pos, rfl, trivial, nofun⟩ ?_
      intro r p₂ h₂ _ hr
      have hlt₂ : p₁.taken < p₂.taken := hr.takes
      exact keeps_done h₂ hr.accounted (ht₁ ▸ hlt₂)
  | some op =>
      have hne : tokenAt source p₁.taken ≠ .finish := by
        intro hfinish
        rw [← ht₁, hfinish] at hop
        cases hop
      refine keeps_advance_of_ne h₁ hne fun p₂ h₂ ht₂ => ?_
      refine keeps_enter h₂ fun p₃ h₃ ht₃ => ?_
      have htaken₃ : p₃.taken = p.taken + 1 := by omega
      have hlt₃ : p.taken < p₃.taken := by omega
      refine keeps_call h₃
        ⟨descends_of_taken h₃ hlt₃, ⟨op, hop, htaken₃, rfl⟩, trivial, nofun⟩ ?_
      intro operand p₄ h₄ hle₄ hoperand
      refine keeps_leave h₄ fun p₅ h₅ ht₅ => ?_
      have hlt₅ : p.taken < p₅.taken := by omega
      refine keeps_node h₅ fun hd => ?_
      exact keeps_done h₅ (hoperand.accounted.unary op hd) hlt₅

theorem keeps_value (h : Stays source ⟨.value, p⟩ [] p) :
    (Routine.script .value).Keeps (promises source) limit ⟨.value, p⟩ [] p := by
  refine keeps_offset h fun start => keeps_advance h fun p₁ h₁ ht₁ => ?_
  have hlt₁ : p.taken < p₁.taken := by omega
  cases ht : tokenAt source p.taken with
  | number k =>
      exact keeps_done (h₁ (by simp [ht])) (accounted_literal (nonneg_of_tokenAt ht)) hlt₁
  | count => exact keeps_done (h₁ (by simp [ht])) accounted_count hlt₁
  | char c =>
      by_cases hc : c = '('
      · simp only [if_pos hc]
        refine keeps_enter (h₁ (by simp [ht])) fun p₂ h₂ ht₂ => ?_
        have htaken₂ : p₂.taken = p.taken + 1 := by omega
        have hlt₂ : p.taken < p₂.taken := by omega
        refine keeps_call h₂
          ⟨descends_of_taken h₂ hlt₂, ⟨hc ▸ ht, htaken₂, rfl⟩, trivial, nofun⟩ ?_
        intro inner p₃ h₃ hle₃ hinner
        refine keeps_expect h₃ fun p₄ h₄ ht₄ _ => ?_
        refine keeps_leave h₄ fun p₅ h₅ ht₅ => ?_
        have hlt₅ : p.taken < p₅.taken := by omega
        exact keeps_done h₅ hinner.accounted hlt₅
      · simp only [if_neg hc]
        trivial
  | pair pair => trivial
  | finish => trivial

/-- Every function keeps its promises. -/
theorem sound_promises (source : List Char) (limit : Nat) : (promises source).Sound limit := by
  intro i opened j hholds hallowed
  obtain ⟨routine, entry⟩ := j
  -- At the call nothing is open yet that the call has to close.
  have h : Stays source ⟨routine, entry⟩ [] entry :=
    ⟨Nat.le_refl _, hholds.taken_le, ⟨hholds.shows.cursor, rfl⟩⟩
  cases routine with
  | rule => exact keeps_rule h
  | conditional => exact keeps_conditional h
  | level k => exact keeps_level h
  | chain k left => exact keeps_chain (hallowed.accounted k left rfl) h
  | unary => exact keeps_unary h
  | value => exact keeps_value h

namespace Moment

variable {m : Moment}

theorem kept_start (source : List Char) (limit : Nat) :
    (start source).Kept (promises source) limit :=
  ⟨keeps_rule ⟨Nat.le_refl _, Nat.zero_le _, shows_ofSource source⟩, trivial⟩

/-- All promises are kept at every moment of a parse. -/
theorem kept_of_leads (hleads : Leads limit (start source) m) : m.Kept (promises source) limit :=
  (kept_start source limit).leads (sound_promises source limit) hleads

/-- What holds at the start and is kept up by steps that keep the promises holds all through a
parse. -/
theorem invariant_of_leads {P : Moment → Prop} (hP : P (start source))
    (hstep : ∀ a b : Moment, a.Kept (promises source) limit → P a → a.step limit = some b → P b)
    (hleads : Leads limit (start source) m) : P m :=
  (kept_start source limit).invariant (sound_promises source limit) hP hstep hleads

end Moment

end MessageCatalog.Plural.Parser
