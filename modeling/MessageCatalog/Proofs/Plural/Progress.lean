import MessageCatalog.Proofs.Plural.Promises

/-! # The progress of a parse

Every call has fewer tokens in front of it than the one that makes it, or as many and a lower rank. So
the calls under way are bounded by the tokens of the source, whatever the limit on the nesting, and a
parse ends. A token is taken no more often than there are tokens, and once more for the end.
-/

namespace MessageCatalog.Plural.Parser

variable {source : List Char} {limit : Nat} {i j : Invocation}

/-! ## The calls under way -/

/-- Calls cannot descend for ever. -/
theorem wellFounded_descends (source : List Char) :
    WellFounded fun j i : Invocation => Descends source i j :=
  InvImage.wf (Invocation.weight source) (Prod.lex Nat.lt_wfRel Nat.lt_wfRel).wf

theorem Routine.rank_le (f : Routine) : f.rank ≤ 14 := by
  cases f <;> simp only [rank] <;> omega

/-- The weight of a call as one number. -/
def Invocation.height (source : List Char) (i : Invocation) : Nat :=
  15 * (i.weight source).1 + (i.weight source).2

theorem Invocation.height_le (source : List Char) (i : Invocation) :
    i.height source ≤ 15 * (reading 0 source).tokens.length + 14 := by
  have hrank := i.routine.rank_le
  simp only [height, weight]
  omega

theorem Descends.height_lt (h : Descends source i j) : j.height source < i.height source := by
  have hrank : (j.weight source).2 ≤ 14 := j.routine.rank_le
  unfold Invocation.height
  cases Prod.lex_def.mp h with
  | inl hlt => omega
  | inr heq => omega

/-- The callers are higher and higher, and no call is higher than the first one can be. -/
theorem length_add_height_le {callers : List Frame} (h : Waiting (promises source) limit j callers) :
    callers.length + j.height source ≤ 15 * (reading 0 source).tokens.length + 14 := by
  induction callers generalizing j with
  | nil => simpa using j.height_le source
  | cons frame callers ih =>
      obtain ⟨-, hallowed, -, hwaiting⟩ := h
      have hlt := hallowed.descends.height_lt
      have hle := ih hwaiting
      simp only [List.length_cons]
      omega

namespace Moment

variable {m m' : Moment}

theorem Kept.length_callers_le (h : m.Kept (promises source) limit) :
    m.callers.length ≤ 15 * (reading 0 source).tokens.length + 14 :=
  Nat.le_trans (Nat.le_add_right _ _) (length_add_height_le h.callers)

/-! ## Tokens that are taken -/

/-- Unless the parse has failed, as many tokens have been taken as were asked for. -/
structure Counted (source : List Char) (m : Moment) : Prop where
  advances_le : m.advances ≤ (reading 0 source).tokens.length + 1
  advances_eq : (∀ e, m.script ≠ .fail e) → m.advances = m.parser.taken

theorem counted_start (source : List Char) : (start source).Counted source :=
  ⟨Nat.zero_le _, fun _ => rfl⟩

/-- Something that is no call and takes `taken` tokens. -/
theorem counted_after {α : Type} {x : Run α} {next : α → Script} {opened : List Construct}
    (taken : Nat) (hx : ∀ a q, x m.parser = .ok a q → q.taken = m.parser.taken + taken)
    (heq : m.advances = m.parser.taken)
    (hle : m.advances + taken ≤ (reading 0 source).tokens.length + 1) :
    Counted source { m.after (x m.parser) next with
      opened := opened, advances := m.advances + taken } := by
  refine ⟨hle, ?_⟩
  unfold after
  cases hp : x m.parser with
  | ok a q =>
      intro _
      have htaken := hx a q hp
      simp only
      omega
  | error e q => exact fun hscript => absurd rfl (hscript e)

theorem Counted.step (hkept : m.Kept (promises source) limit) (h : m.Counted source)
    (hstep : m.step limit = some m') : m'.Counted source := by
  have hgoes : ∀ e, m.script ≠ .fail e := by
    intro e he
    rw [Moment.step, he] at hstep
    cases hstep
  have heq := h.advances_eq hgoes
  have hle : m.advances ≤ (reading 0 source).tokens.length := heq ▸ (hkept.holds hgoes).taken_le
  obtain ⟨invocation, opened, script, parser, callers, advances⟩ := m
  cases script with
  | done result =>
      cases callers with
      | nil => cases hstep
      | cons frame callers =>
          cases hstep
          exact ⟨h.advances_le, fun _ => heq⟩
  | fail error => cases hstep
  | peek next =>
      cases hstep
      exact counted_after 0 (fun _ _ => taken_of_peek) heq h.advances_le
  | advance next =>
      cases hstep
      exact counted_after 1 (fun _ _ => taken_of_advance) heq (Nat.succ_le_succ hle)
  | offset next =>
      cases hstep
      exact ⟨h.advances_le, fun _ => heq⟩
  | enter what next =>
      cases hstep
      exact counted_after 0 (fun _ _ => taken_of_enter) heq h.advances_le
  | leave next =>
      cases hstep
      exact ⟨h.advances_le, fun _ => heq⟩
  | call callee next =>
      cases hstep
      exact ⟨h.advances_le, fun _ => heq⟩

end Moment

/-- What holds at a moment of a parse. -/
structure Progresses (limit : Nat) (source : String) (m : Moment) : Prop where
  /-- The call that is made has fewer tokens in front of it, or as many and a lower rank. -/
  descends : ∀ callee next, m.script = .call callee next →
    Descends source.toList m.invocation ⟨callee, m.parser⟩
  /-- A chain of operators goes on behind an operator and at least one more token. -/
  goesOn : ∀ callee next, m.script = .call callee next →
    GoesOn source.toList m.invocation ⟨callee, m.parser⟩
  /-- A chain that is done has taken nothing, or an operator and at least one more token. -/
  takes : ∀ r, m.script = .done r →
    m.invocation.routine.Takes m.invocation.entry.taken m.parser.taken
  /-- The tokens that have not been taken are in front of the cursor. -/
  shows : (∀ e, m.script ≠ .fail e) → ∃ r, m.parser.cursor.Shows r ∧
    r.tokens = (reading 0 source.toList).tokens.drop m.parser.taken
  advances_le : m.advances ≤ (reading 0 source.toList).tokens.length + 1
  callers_lt : m.callers.length < 15 * (source.toList.length + 1)
  ends : ∃ last, Moment.Leads limit m last ∧ last.outcome = some (Expr.parseWithin limit source)

theorem Moment.Kept.progresses {source : String} {m : Moment}
    (h : m.Kept (promises source.toList) limit) (hcounted : m.Counted source.toList)
    (hends : ∃ last, Leads limit m last ∧ last.outcome = some (Expr.parseWithin limit source)) :
    Progresses limit source m where
  descends _ _ hscript := (h.allows hscript).descends
  goesOn _ _ hscript := (h.allows hscript).goesOn
  takes _ hscript := (h.keeps hscript).2.2.takes
  shows hscript := by
    obtain ⟨r, hr, htokens, -⟩ := (h.holds hscript).shows.cursor
    exact ⟨r, hr, htokens⟩
  advances_le := hcounted.advances_le
  callers_lt := by
    have hcallers := h.length_callers_le
    have htokens := length_reading_le 0 source.toList
    omega
  ends := hends

/-- A parse ends, whatever the limit on its nesting. Its calls descend in an order in which nothing
descends for ever, a token is taken at most once more than there are tokens, and no bound on the
recursion that is linear in the source runs out. -/
theorem parse_terminates (limit : Nat) (source : String) :
    Mirrored limit source ∧
    WellFounded (fun j i => Descends source.toList i j) ∧
    (∀ m, Moment.Leads limit (.start source.toList) m → Progresses limit source m) ∧
    Expr.parseWithin limit source ≠ .error .exhausted ∧
    ∀ fuel, bound source.toList ≤ fuel →
      verdict (rule limit fuel (.ofSource source.toList)) = Expr.parseWithin limit source := by
  have hmirrored := mirrored limit source
  obtain ⟨last, hlast, houtcome⟩ := hmirrored.exists_last
  have hnone : last.step limit = none := Moment.step_eq_none_iff.mpr (by simp [houtcome])
  refine ⟨hmirrored, wellFounded_descends source.toList, ?_, ?_, ?_⟩
  · intro m hleads
    have hcounted : m.Counted source.toList :=
      Moment.invariant_of_leads (Moment.counted_start source.toList)
        (fun _ _ => Moment.Counted.step) hleads
    exact (Moment.kept_of_leads hleads).progresses hcounted
      ⟨last, hleads.to_last hlast hnone, houtcome⟩
  · rw [parseWithin_eq_verdict]
    exact verdict_rule_ne_exhausted limit (Nat.le_refl _)
  · intro fuel hfuel
    -- The moments do not know of a bound, so that there is only one outcome for all of them.
    obtain ⟨other, hother, hverdict⟩ :=
      Moment.exists_last rfl (verdict_rule_ne_exhausted limit hfuel)
    have heq : other = last :=
      (hother.to_last hlast hnone).eq_of_step_eq_none
        (Moment.step_eq_none_iff.mpr (by simp [hverdict]))
    rw [← heq, hverdict] at houtcome
    exact Option.some.inj houtcome

end MessageCatalog.Plural.Parser
