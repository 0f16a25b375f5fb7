import MessageCatalog.Proofs.Plural.Moments

/-! # Contracts between calls

A contract says what holds all through a call, which calls it may make, and what a call gives when it
is done. A script keeps to a contract if it does so on its own, relying on what its calls give. Where
every script keeps to the contract, so does every moment of a parse.
-/

namespace MessageCatalog.Plural.Parser

structure Contract where
  /-- What holds in a call that has these constructs open. -/
  holds : Invocation → List Construct → Parser → Prop
  /-- Which calls a call may make that has these constructs open. -/
  allows : Invocation → List Construct → Invocation → Prop
  /-- What a call gives. -/
  gives : Invocation → Parsed → Parser → Prop

variable {C : Contract} {limit : Nat} {i j : Invocation} {opened : List Construct} {p q : Parser}

/-- From the state `p` on, the script does what the contract asks of the call `i`. Nothing is asked
once a parse has failed. -/
def Script.Keeps (C : Contract) (limit : Nat) (i : Invocation) :
    Script → List Construct → Parser → Prop
  | .done result, opened, p => opened = [] ∧ C.holds i opened p ∧ C.gives i result p
  | .fail _, _, _ => True
  | .peek next, opened, p => C.holds i opened p ∧
      Ensures (fun _ => True) Parser.peek p fun token q => (next token).Keeps C limit i opened q
  | .advance next, opened, p => C.holds i opened p ∧
      Ensures (fun _ => True) Parser.advance p fun token q => (next token).Keeps C limit i opened q
  | .offset next, opened, p => C.holds i opened p ∧
      Ensures (fun _ => True) Parser.offset p fun o q => (next o).Keeps C limit i opened q
  | .enter what next, opened, p => C.holds i opened p ∧
      Ensures (fun _ => True) (Parser.enter limit) p fun _ q => next.Keeps C limit i (what :: opened) q
  | .leave next, opened, p => C.holds i opened p ∧ opened ≠ [] ∧
      Ensures (fun _ => True) Parser.leave p fun _ q => next.Keeps C limit i opened.tail q
  | .call callee next, opened, p => C.holds i opened p ∧ C.allows i opened ⟨callee, p⟩ ∧
      ∀ result q, C.holds ⟨callee, p⟩ [] q → C.gives ⟨callee, p⟩ result q →
        (next result).Keeps C limit i opened q

/-- Every call that the contract allows keeps to it. -/
def Contract.Sound (C : Contract) (limit : Nat) : Prop :=
  ∀ i opened j, C.holds i opened j.entry → C.allows i opened j →
    j.routine.script.Keeps C limit j [] j.entry

/-- The calls that wait may make the calls that they wait for, the last of which is `j`, and go on
with what these give. -/
def Waiting (C : Contract) (limit : Nat) : Invocation → List Frame → Prop
  | _, [] => True
  | j, frame :: callers =>
      C.holds frame.invocation frame.opened j.entry ∧
      C.allows frame.invocation frame.opened j ∧
      (∀ result q, C.holds j [] q → C.gives j result q →
        (frame.next result).Keeps C limit frame.invocation frame.opened q) ∧
      Waiting C limit frame.invocation callers

theorem Script.Keeps.holds {script : Script} (h : script.Keeps C limit i opened p)
    (hscript : ∀ e, script ≠ .fail e) : C.holds i opened p := by
  cases script with
  | done result => exact h.2.1
  | fail error => exact absurd rfl (hscript error)
  | _ => exact h.1

namespace Moment

structure Kept (C : Contract) (limit : Nat) (m : Moment) : Prop where
  script : m.script.Keeps C limit m.invocation m.opened m.parser
  callers : Waiting C limit m.invocation m.callers

variable {m m' : Moment}

/-- Something that is no call. -/
theorem kept_after {α : Type} {x : Run α} {next : α → Script} (advances : Nat)
    (hx : Ensures (fun _ => True) x m.parser
      fun a q => (next a).Keeps C limit m.invocation opened q)
    (hcallers : Waiting C limit m.invocation m.callers) :
    Kept C limit { m.after (x m.parser) next with opened := opened, advances := advances } := by
  unfold Ensures at hx
  unfold after
  cases hp : x m.parser with
  | ok a q =>
      rw [hp] at hx
      exact ⟨hx, hcallers⟩
  | error e q => exact ⟨trivial, hcallers⟩

/-- One step keeps to a contract. -/
theorem Kept.step (hC : C.Sound limit) (h : m.Kept C limit) (hstep : m.step limit = some m') :
    m'.Kept C limit := by
  obtain ⟨invocation, opened, script, parser, callers, advances⟩ := m
  obtain ⟨hscript, hcallers⟩ := h
  cases script with
  | done result =>
      cases callers with
      | nil => cases hstep
      | cons frame callers =>
          obtain ⟨rfl, hholds, hgives⟩ := hscript
          obtain ⟨-, -, hnext, hcallers⟩ := hcallers
          cases hstep
          exact ⟨hnext result parser hholds hgives, hcallers⟩
  | fail error => cases hstep
  | peek next =>
      cases hstep
      exact kept_after advances hscript.2 hcallers
  | advance next =>
      cases hstep
      exact kept_after (advances + 1) hscript.2 hcallers
  | offset next =>
      cases hstep
      exact kept_after advances hscript.2 hcallers
  | enter what next =>
      cases hstep
      exact kept_after advances hscript.2 hcallers
  | leave next =>
      cases hstep
      exact kept_after advances hscript.2.2 hcallers
  | call callee next =>
      obtain ⟨hholds, hallows, hnext⟩ := hscript
      cases hstep
      exact ⟨hC invocation opened ⟨callee, parser⟩ hholds hallows,
        hholds, hallows, hnext, hcallers⟩

theorem Kept.leads (hC : C.Sound limit) (h : m.Kept C limit) (hleads : Leads limit m m') :
    m'.Kept C limit := by
  induction hleads with
  | refl => exact h
  | tail _ hstep ih => exact ih.step hC hstep

/-- What every step keeps up that starts where the contract is kept to. -/
theorem Kept.invariant {P : Moment → Prop} (hC : C.Sound limit) (h : m.Kept C limit) (hP : P m)
    (hstep : ∀ a b : Moment, a.Kept C limit → P a → a.step limit = some b → P b)
    (hleads : Leads limit m m') : P m' := by
  induction hleads with
  | refl => exact hP
  | tail hleads hnext ih => exact hstep _ _ (h.leads hC hleads) ih hnext

theorem Kept.holds (h : m.Kept C limit) (hscript : ∀ e, m.script ≠ .fail e) :
    C.holds m.invocation m.opened m.parser :=
  h.script.holds hscript

theorem Kept.keeps {script : Script} (h : m.Kept C limit) (hscript : m.script = script) :
    script.Keeps C limit m.invocation m.opened m.parser :=
  hscript ▸ h.script

theorem Kept.allows {callee : Routine} {next : Parsed → Script} (h : m.Kept C limit)
    (hscript : m.script = .call callee next) :
    C.allows m.invocation m.opened ⟨callee, m.parser⟩ :=
  (h.keeps hscript).2.1

/-- What a call gives, where the function is asked for it. -/
theorem Kept.gives {callee : Routine} {next : Parsed → Script} {fuel : Nat} {r : Parsed}
    (hC : C.Sound limit) (h : m.Kept C limit) (hscript : m.script = .call callee next)
    (hread : callee.read limit fuel m.parser = .ok r q) :
    C.holds ⟨callee, m.parser⟩ [] q ∧ C.gives ⟨callee, m.parser⟩ r q := by
  have hstep : m.step limit = some (m.called callee next) := by
    simp only [Moment.step, hscript]
  have hcomes := comes_read limit fuel callee (m.called callee next) rfl
  rw [called, hread] at hcomes
  obtain ⟨last, hleads, hdone, rfl, hinvocation, -⟩ := hcomes
  have hlast := (h.leads hC (.head hstep hleads)).keeps hdone
  rw [hinvocation] at hlast
  obtain ⟨hopened, hholds, hgives⟩ := hlast
  exact ⟨hopened ▸ hholds, hgives⟩

/-- The calls under way with what they have open, the last one first. -/
def stack (m : Moment) : List (Invocation × List Construct) :=
  (m.invocation, m.opened) :: m.callers.map fun frame => (frame.invocation, frame.opened)

/-- Each call under way was allowed to the one that waits for it. -/
theorem Kept.isChain_stack (h : m.Kept C limit) :
    m.stack.IsChain fun callee caller => C.allows caller.1 caller.2 callee.1 := by
  obtain ⟨invocation, opened, script, parser, callers, advances⟩ := m
  have hwaiting : Waiting C limit invocation callers := h.callers
  clear h
  unfold stack
  induction callers generalizing invocation opened with
  | nil => exact .singleton _
  | cons frame callers ih =>
      obtain ⟨-, hallows, -, hwaiting⟩ := hwaiting
      exact .cons_cons hallows (ih frame.invocation frame.opened hwaiting)

end Moment

end MessageCatalog.Plural.Parser
