import MessageCatalog.Proofs.Plural.Promises

/-! # The bookkeeping of a parse

At every moment the nesting is the number of constructs that are open, so that nothing is ever closed
that is not open. It goes beyond its limit only where the parse fails for that reason. A call that is
done has left the nesting as it was.
-/

namespace MessageCatalog.Plural.Parser

namespace Moment

/-- Everything that is open, the last first. -/
def constructs (m : Moment) : List Construct :=
  m.stack.flatMap Prod.snd

/-- The nesting is counted right and kept to its limit. -/
structure Balanced (limit : Nat) (m : Moment) : Prop where
  nesting_eq : m.parser.nesting = m.constructs.length
  within : m.parser.nesting ≤ limit ∨ m.script = .fail (.nestedTooDeep limit)

variable {source : List Char} {limit : Nat} {m m' : Moment}

theorem balanced_start (source : List Char) (limit : Nat) : (start source).Balanced limit :=
  ⟨rfl, .inl (Nat.zero_le limit)⟩

theorem Balanced.le (h : m.Balanced limit) (hscript : ∀ e, m.script ≠ .fail e) :
    m.parser.nesting ≤ limit :=
  h.within.resolve_right (hscript _)

/-- Nothing has been opened or closed since. -/
theorem Balanced.still (h : m.Balanced limit) (hscript : ∀ e, m.script ≠ .fail e)
    (hnesting : m'.parser.nesting = m.parser.nesting) (hconstructs : m'.constructs = m.constructs) :
    m'.Balanced limit where
  nesting_eq := by rw [hnesting, hconstructs, h.nesting_eq]
  within := .inl (hnesting ▸ h.le hscript)

theorem nesting_after_peek (m : Moment) (next : Token → Script) :
    (m.after m.parser.peek next).parser.nesting = m.parser.nesting := by
  simp only [after, Parser.peek]
  cases m.parser.cursor.peek <;> rfl

theorem nesting_after_advance (m : Moment) (next : Token → Script) :
    (m.after m.parser.advance next).parser.nesting = m.parser.nesting := by
  simp only [after, Parser.advance]
  cases m.parser.cursor.advance <;> rfl

/-- What cannot be opened is open, but the parse has failed. -/
theorem Balanced.enter {what : Construct} {next : Script} (h : m.Balanced limit) :
    Balanced limit { m.after (m.parser.enter limit) fun _ => next with
      opened := what :: m.opened } := by
  have hlength : m.parser.nesting + 1 = (what :: m.constructs).length :=
    congrArg (· + 1) h.nesting_eq
  by_cases hlimit : limit < m.parser.nesting + 1
  · simp only [after, Parser.enter, if_pos hlimit]
    exact ⟨hlength, .inr rfl⟩
  · simp only [after, Parser.enter, if_neg hlimit]
    exact ⟨hlength, .inl (Nat.le_of_not_lt hlimit)⟩

theorem Balanced.leave {next : Script} (h : m.Balanced limit) (hopened : m.opened ≠ [])
    (hscript : ∀ e, m.script ≠ .fail e) :
    Balanced limit { m.after m.parser.leave fun _ => next with opened := m.opened.tail } := by
  have hle := h.le hscript
  have hnesting := h.nesting_eq
  obtain ⟨what, opened, hcons⟩ := List.exists_cons_of_ne_nil hopened
  simp only [constructs, stack, hcons, List.flatMap_cons, List.cons_append, List.length_cons]
    at hnesting
  refine ⟨?_, .inl ?_⟩
  · simp only [after, Parser.leave, constructs, stack, hcons, List.tail_cons, List.flatMap_cons]
    omega
  · simp only [after, Parser.leave]
    omega

/-- One step keeps the balance, because a call closes what it has opened before it is done. -/
theorem Balanced.step {C : Contract} (hkept : m.Kept C limit) (h : m.Balanced limit)
    (hstep : m.step limit = some m') : m'.Balanced limit := by
  obtain ⟨invocation, opened, script, parser, callers, advances⟩ := m
  cases script with
  | done result =>
      cases callers with
      | nil => cases hstep
      | cons frame callers =>
          obtain ⟨rfl, -, -⟩ := hkept.script
          cases hstep
          exact h.still nofun rfl rfl
  | fail error => cases hstep
  | peek next =>
      cases hstep
      exact h.still nofun (nesting_after_peek _ next) rfl
  | advance next =>
      cases hstep
      exact h.still nofun (nesting_after_advance _ next) rfl
  | offset next =>
      cases hstep
      exact h.still nofun rfl rfl
  | enter what next =>
      cases hstep
      exact h.enter
  | leave next =>
      cases hstep
      exact h.leave hkept.script.2.1 nofun
  | call callee next =>
      cases hstep
      exact h.still nofun rfl rfl

theorem Balanced.pos_of_leave {C : Contract} {next : Script} (hkept : m.Kept C limit)
    (h : m.Balanced limit) (hscript : m.script = .leave next) : 0 < m.parser.nesting := by
  obtain ⟨what, opened, hcons⟩ := List.exists_cons_of_ne_nil (hkept.keeps hscript).2.1
  rw [h.nesting_eq, constructs, stack, hcons]
  exact Nat.succ_pos _

end Moment

/-- What the books of a parse say at one of its moments. -/
structure Booked (limit : Nat) (source : List Char) (m : Moment) : Prop where
  nesting_eq : m.parser.nesting = m.constructs.length
  /-- The nesting goes beyond the limit only where the parse fails for it. -/
  within : m.parser.nesting ≤ limit ∨ m.script = .fail (.nestedTooDeep limit)
  /-- Nothing is closed where nothing is open. -/
  pos_of_leave : ∀ next, m.script = .leave next → 0 < m.parser.nesting
  /-- A call that waits has the constructs open that its tokens have opened. -/
  opens : m.stack.IsChain fun callee caller => Opens source caller.1 callee.1 caller.2
  /-- A call that is done has closed what it has opened. -/
  closed : ∀ r, m.script = .done r → m.opened = []
  /-- A call gives a tree with its own depth that is not too deep and has no negative numbers, and
  leaves the nesting as it was. -/
  accounted : ∀ callee next fuel r q, m.script = .call callee next →
    callee.read limit fuel m.parser = .ok r q →
    r.depth = r.expr.depth ∧ r.depth ≤ 4096 ∧ (∀ k ∈ r.expr.literals, 0 ≤ k) ∧
      q.nesting = m.parser.nesting

theorem Moment.Kept.booked {source : List Char} {limit : Nat} {m : Moment}
    (h : m.Kept (promises source) limit) (hbalanced : m.Balanced limit) :
    Booked limit source m where
  nesting_eq := hbalanced.nesting_eq
  within := hbalanced.within
  pos_of_leave _ hscript := hbalanced.pos_of_leave h hscript
  opens := h.isChain_stack.imp fun _ _ hallowed => hallowed.opens
  closed _ hscript := (h.keeps hscript).1
  accounted callee next fuel r q hscript hread := by
    obtain ⟨hstays, hgiven⟩ := h.gives (sound_promises source limit) hscript hread
    exact ⟨hgiven.accounted.depth_eq, hgiven.accounted.depth_le, hgiven.accounted.nonneg,
      hstays.shows.nesting⟩

/-- At every moment of a parse, whether or not it will fail, the nesting is the number of prefix
operators, parentheses and conditional branches that are open, and what its calls give is booked as
it is. -/
theorem bookkeeping_exact (limit : Nat) (source : String) :
    Mirrored limit source ∧
    ∀ m, Moment.Leads limit (.start source.toList) m → Booked limit source.toList m := by
  refine ⟨mirrored limit source, ?_⟩
  intro m hleads
  have hbalanced : m.Balanced limit :=
    Moment.invariant_of_leads (Moment.balanced_start source.toList limit)
      (fun _ _ => Moment.Balanced.step) hleads
  exact (Moment.kept_of_leads hleads).booked hbalanced

end MessageCatalog.Plural.Parser
