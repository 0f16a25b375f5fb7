import Mathlib.Logic.Relation
import MessageCatalog.Proofs.Plural.Blame
import MessageCatalog.Proofs.Plural.Script

/-! # The moments of a parse

Between two things that a parse does there is a moment. It tells which calls are under way and what
each of them has opened. One step after the other leads from the start of a source to the moment in
which the parse ends, and it ends as the parser says.
-/

namespace MessageCatalog.Plural.Parser

/-! ## The end of a parse -/

variable {limit fuel : Nat} {source : List Char}

/-- What the outcome of a parse is to its caller. -/
def verdict : EStateM.Result SyntaxError Parser Expr → Except SyntaxError Expr
  | .ok e _ => .ok e
  | .error e _ => .error e

theorem verdict_rule (limit fuel : Nat) (p : Parser) :
    verdict (rule limit fuel p) =
      match wholeRule limit (fuel + 1) p with
      | .ok r _ => .ok r.expr
      | .error e _ => .error e := by
  rw [rule_eq_map_wholeRule]
  change verdict (EStateM.map Parsed.expr (wholeRule limit (fuel + 1)) p) = _
  unfold EStateM.map
  cases wholeRule limit (fuel + 1) p <;> rfl

theorem verdict_rule_ne_exhausted (limit : Nat) (h : bound source ≤ fuel) :
    verdict (rule limit fuel (.ofSource source)) ≠ .error .exhausted := by
  have hlength := length_reading_le 0 source
  have hfuel : 16 * (reading 0 source).tokens.length + 14 ≤ fuel := by
    unfold bound at h
    omega
  have hrule := ensures_rule (p := .ofSource source) (Cursor.stands_ofSource source) hfuel limit
  unfold Ensures at hrule
  intro hexhausted
  cases hrun : rule limit fuel (.ofSource source) with
  | ok e q =>
      rw [hrun] at hexhausted
      cases hexhausted
  | error e q =>
      rw [hrun] at hexhausted hrule
      cases hexhausted
      exact hrule

theorem parseWithin_eq_verdict (limit : Nat) (source : String) :
    Expr.parseWithin limit source =
      verdict (rule limit (bound source.toList) (.ofSource source.toList)) := by
  unfold Expr.parseWithin
  extract_lets cs
  -- A bound that stays open would be unrolled call by call.
  generalize bound cs = fuel
  cases rule limit fuel (.ofSource cs) <;> rfl

/-! ## Moments -/

/-- A call of a function, with the state of the parse at the call. -/
structure Invocation where
  routine : Routine
  entry : Parser

/-- A call that waits for another one. -/
structure Frame where
  invocation : Invocation
  /-- What the call has opened and not closed yet, the last first. -/
  opened : List Construct
  next : Parsed → Script

structure Moment where
  /-- The call that is at work. -/
  invocation : Invocation
  /-- What it has opened and not closed yet, the last first. -/
  opened : List Construct
  /-- What it has still to do. -/
  script : Script
  parser : Parser
  /-- The calls that wait, the last first. -/
  callers : List Frame
  /-- How often a token was asked for to be taken. -/
  advances : Nat

namespace Moment

def start (source : List Char) : Moment :=
  ⟨⟨.rule, .ofSource source⟩, [], Routine.rule.script, .ofSource source, [], 0⟩

/-- The moment after something with this result. -/
def after {α : Type} (m : Moment) (result : EStateM.Result SyntaxError Parser α)
    (next : α → Script) : Moment :=
  { m with
    script := match result with
      | .ok a _ => next a
      | .error e _ => .fail e
    parser := match result with
      | .ok _ q => q
      | .error _ q => q }

/-- The moment after a call, in which the callee has everything still to do. -/
def called (m : Moment) (callee : Routine) (next : Parsed → Script) : Moment :=
  ⟨⟨callee, m.parser⟩, [], callee.script, m.parser, ⟨m.invocation, m.opened, next⟩ :: m.callers,
    m.advances⟩

/-- The next moment. There is none once the parse has failed or its last call is done. -/
def step (limit : Nat) (m : Moment) : Option Moment :=
  match m.script with
  | .done result =>
      match m.callers with
      | [] => none
      | frame :: callers =>
          some ⟨frame.invocation, frame.opened, frame.next result, m.parser, callers, m.advances⟩
  | .fail _ => none
  | .peek next => some (m.after m.parser.peek next)
  | .advance next => some { m.after m.parser.advance next with advances := m.advances + 1 }
  | .offset next => some (m.after m.parser.offset next)
  | .enter what next =>
      some { m.after (m.parser.enter limit) fun _ => next with opened := what :: m.opened }
  | .leave next => some { m.after m.parser.leave fun _ => next with opened := m.opened.tail }
  | .call callee next => some (m.called callee next)

/-- What the parse has come to, where nothing is left to be done. -/
def outcome (m : Moment) : Option (Except SyntaxError Expr) :=
  match m.script with
  | .done result => if m.callers.isEmpty then some (.ok result.expr) else none
  | .fail error => some (.error error)
  | _ => none

/-- Steps lead from one moment to the other. -/
def Leads (limit : Nat) : Moment → Moment → Prop :=
  Relation.ReflTransGen fun m m' => m.step limit = some m'

variable {m m' : Moment}

theorem step_eq_none_iff : m.step limit = none ↔ m.outcome.isSome := by
  obtain ⟨invocation, opened, script, parser, callers, advances⟩ := m
  cases script with
  | done result => cases callers <;> simp [step, outcome]
  | _ => simp [step, outcome]

/-- Nothing comes after a moment in which nothing is left to be done. -/
theorem Leads.eq_of_step_eq_none (h : Leads limit m m') (hnone : m.step limit = none) : m = m' := by
  cases h.cases_head with
  | inl heq => exact heq
  | inr hstep =>
      obtain ⟨next, hnext, -⟩ := hstep
      cases hnone.symm.trans hnext

/-- Every moment leads to the last one. -/
theorem Leads.to_last {last : Moment} (h : Leads limit m m') (hlast : Leads limit m last)
    (hnone : last.step limit = none) : Leads limit m' last := by
  have hunique : Relator.RightUnique fun a b : Moment => a.step limit = some b := by
    intro a b c hb hc
    exact Option.some.inj (hb.symm.trans hc)
  cases Relation.ReflTransGen.total_of_right_unique hunique h hlast with
  | inl hto => exact hto
  | inr hfrom => exact Leads.eq_of_step_eq_none hfrom hnone ▸ .refl

/-! ## The parser and its moments -/

/-- The call at work comes to `result`: it is done in a later moment with the same callers, or the
parse fails. A bound that runs out promises nothing. -/
def Comes (limit : Nat) (m : Moment) : EStateM.Result SyntaxError Parser Parsed → Prop
  | .ok r q => ∃ m', Leads limit m m' ∧ m'.script = .done r ∧ m'.parser = q ∧
      m'.invocation = m.invocation ∧ m'.callers = m.callers
  | .error e q => e = .exhausted ∨ ∃ m', Leads limit m m' ∧ m'.script = .fail e ∧ m'.parser = q

theorem Comes.of_leads {result : EStateM.Result SyntaxError Parser Parsed}
    (hleads : Leads limit m m') (hinvocation : m'.invocation = m.invocation)
    (hcallers : m'.callers = m.callers) (h : m'.Comes limit result) : m.Comes limit result := by
  cases result with
  | ok r q =>
      obtain ⟨last, hlast, hdone, hparser, hinv, hcall⟩ := h
      exact ⟨last, hleads.trans hlast, hdone, hparser, hinv.trans hinvocation,
        hcall.trans hcallers⟩
  | error e q =>
      refine h.imp_right ?_
      intro hfail
      obtain ⟨last, hlast, hscript, hparser⟩ := hfail
      exact ⟨last, hleads.trans hlast, hscript, hparser⟩

/-- Something that is no call, and then the rest of the script. -/
theorem comes_bind {α : Type} {x : Run α} {next : α → Script} {answer : Routine → Run Parsed}
    {opened : List Construct} {advances : Nat}
    (hstep : m.step limit =
      some { m.after (x m.parser) next with opened := opened, advances := advances })
    (ih : ∀ a (m' : Moment), m'.script = next a →
      m'.Comes limit ((next a).run limit answer m'.parser)) :
    m.Comes limit ((x >>= fun a => (next a).run limit answer) m.parser) := by
  change m.Comes limit (EStateM.bind x (fun a => (next a).run limit answer) m.parser)
  unfold EStateM.bind
  unfold after at hstep
  cases hx : x m.parser with
  | ok a q =>
      rw [hx] at hstep
      exact .of_leads (.single hstep) rfl rfl (ih a _ rfl)
  | error e q =>
      rw [hx] at hstep
      exact .inr ⟨_, .single hstep, rfl, rfl⟩

/-- A call, and then the rest of the script. -/
theorem comes_call {callee : Routine} {next : Parsed → Script} {answer : Routine → Run Parsed}
    (hscript : m.script = .call callee next)
    (hcall : ∀ m' : Moment, m'.script = callee.script → m'.Comes limit (answer callee m'.parser))
    (ih : ∀ r (m' : Moment), m'.script = next r →
      m'.Comes limit ((next r).run limit answer m'.parser)) :
    m.Comes limit ((answer callee >>= fun r => (next r).run limit answer) m.parser) := by
  have hstep : m.step limit = some (m.called callee next) := by
    simp only [step, hscript]
  have hcallee := hcall (m.called callee next) rfl
  rw [called] at hcallee
  change m.Comes limit
    (EStateM.bind (answer callee) (fun r => (next r).run limit answer) m.parser)
  unfold EStateM.bind
  cases hx : answer callee m.parser with
  | error e q =>
      rw [hx] at hcallee
      refine Or.imp_right ?_ hcallee
      intro hfail
      obtain ⟨last, hlast, hfail⟩ := hfail
      exact ⟨last, .head hstep hlast, hfail⟩
  | ok r q =>
      rw [hx] at hcallee
      obtain ⟨returning, hreturning, hdone, rfl, -, hcallers⟩ := hcallee
      have hback : returning.step limit = some ⟨m.invocation, m.opened, next r,
          returning.parser, m.callers, returning.advances⟩ := by
        simp only [step, hdone, hcallers]
      exact .of_leads (.head hstep (hreturning.tail hback)) rfl rfl (ih r _ rfl)

/-- What is run to its end is gone through moment by moment, if the answers to its calls are. -/
theorem comes_script {answer : Routine → Run Parsed}
    (hcall : ∀ callee (m : Moment), m.script = Routine.script callee →
      m.Comes limit (answer callee m.parser))
    (script : Script) (m : Moment) (hscript : m.script = script) :
    m.Comes limit (script.run limit answer m.parser) := by
  induction script generalizing m with
  | done result => exact ⟨m, .refl, hscript, rfl, rfl, rfl⟩
  | fail error => exact .inr ⟨m, .refl, hscript, rfl⟩
  | peek next ih => exact comes_bind (by simp only [step, hscript]; rfl) ih
  | advance next ih => exact comes_bind (by simp only [step, hscript]; rfl) ih
  | offset next ih => exact comes_bind (by simp only [step, hscript]; rfl) ih
  | enter what next ih => exact comes_bind (by simp only [step, hscript]; rfl) fun _ => ih
  | leave next ih => exact comes_bind (by simp only [step, hscript]; rfl) fun _ => ih
  | call callee next ih => exact comes_call hscript (hcall callee) ih

theorem comes_read (limit fuel : Nat) (callee : Routine) (m : Moment)
    (hscript : m.script = callee.script) : m.Comes limit (callee.read limit fuel m.parser) := by
  -- The calls of a call have one unit less of fuel.
  induction fuel generalizing callee m with
  | zero =>
      rw [Routine.read_zero]
      exact .inl rfl
  | succ fuel ih =>
      rw [Routine.read_succ]
      exact comes_script ih callee.script m hscript

/-- A source leads to a moment in which the parse has come to what the parser gives, if the bound on
its recursion does not run out. -/
theorem exists_last {result : Except SyntaxError Expr}
    (h : verdict (rule limit fuel (.ofSource source)) = result)
    (hresult : result ≠ .error .exhausted) :
    ∃ last, Leads limit (start source) last ∧ last.outcome = some result := by
  have hcomes : (start source).Comes limit (wholeRule limit (fuel + 1) (.ofSource source)) :=
    comes_read limit (fuel + 1) .rule (start source) rfl
  rw [verdict_rule] at h
  cases hrun : wholeRule limit (fuel + 1) (.ofSource source) with
  | ok r q =>
      rw [hrun] at h hcomes
      obtain ⟨last, hlast, hdone, -, -, hcallers⟩ := hcomes
      refine ⟨last, hlast, ?_⟩
      simp only [outcome, hdone, hcallers, ← h]
      rfl
  | error e q =>
      rw [hrun] at h hcomes
      cases hcomes with
      | inl he => exact absurd (h ▸ he ▸ rfl) hresult
      | inr hfail =>
          obtain ⟨last, hlast, hscript, -⟩ := hfail
          refine ⟨last, hlast, ?_⟩
          simp only [outcome, hscript, ← h]

end Moment

/-- The moments of a source are those of the parser: its functions do what their scripts say, and the
moments lead to what it gives. -/
structure Mirrored (limit : Nat) (source : String) : Prop where
  read_succ : ∀ fuel (f : Routine),
    f.read limit (fuel + 1) = f.script.run limit (Routine.read limit fuel)
  exists_last : ∃ last, Moment.Leads limit (.start source.toList) last ∧
    last.outcome = some (Expr.parseWithin limit source)

theorem mirrored (limit : Nat) (source : String) : Mirrored limit source where
  read_succ := Routine.read_succ limit
  exists_last := by
    rw [parseWithin_eq_verdict]
    exact Moment.exists_last rfl (verdict_rule_ne_exhausted limit (Nat.le_refl _))

end MessageCatalog.Plural.Parser
