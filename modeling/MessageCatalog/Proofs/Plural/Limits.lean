import MessageCatalog.Proofs.Plural.Parsing

/-! # Parses under two limits

A parse asks about its limit only where a level of nesting opens. Up to the place where the smaller
of two limits refuses, both parses go through the same states, so that whatever else becomes of the
one becomes of the other.
-/

namespace MessageCatalog.Plural

namespace Parser

variable {α β : Type} {limit limit' fuel k : Nat}

/-! ## Runs that agree -/

/-- Wherever `x` does not run into `limit`, `y` does the same as `x`. -/
def Agree (limit : Nat) (x y : Run α) : Prop :=
  ∀ p, (∃ q, x p = .error (.nestedTooDeep limit) q) ∨ y p = x p

theorem Agree.refl (x : Run α) : Agree limit x x :=
  fun _ => .inr rfl

theorem Agree.bind {x y : Run α} {f g : α → Run β} (hx : Agree limit x y)
    (hf : ∀ a, Agree limit (f a) (g a)) : Agree limit (x >>= f) (y >>= g) := by
  intro p
  change (∃ q, EStateM.bind x f p = _) ∨ EStateM.bind y g p = EStateM.bind x f p
  simp only [EStateM.bind]
  rcases hx p with ⟨q, hq⟩ | hp
  · exact .inl ⟨q, by rw [hq]⟩
  · rw [hp]
    cases x p with
    | ok a q => exact hf a q
    | error e q => exact .inr rfl

/-- The only step that asks about the limit. -/
theorem agree_enter (h : limit ≤ limit') : Agree limit (enter limit) (enter limit') := by
  intro p
  simp only [enter]
  by_cases hp : limit < p.nesting + 1
  · rw [if_pos hp]
    exact .inl ⟨_, rfl⟩
  · rw [if_neg hp, if_neg (by omega)]
    exact .inr rfl

/-! ## The functions of the parser -/

/-- The function for a symbol agrees with itself under the larger limit. -/
def Steady (limit limit' fuel : Nat) (s : Symbol) : Prop :=
  ∀ left, Agree limit (read limit fuel left s) (read limit' fuel left s)

theorem steady_conditional (h : limit ≤ limit') (ih : ∀ s, Steady limit limit' fuel s) :
    Steady limit limit' (fuel + 1) .conditional := by
  intro left
  simp only [read]
  rw [conditional, conditional]
  apply (ih (.level 1) left).bind
  intro condition
  apply (Agree.refl _).bind
  intro t
  split
  · exact .refl _
  · apply (Agree.refl _).bind
    intro _
    apply (agree_enter h).bind
    intro _
    apply (ih .conditional left).bind
    intro yes
    apply (Agree.refl _).bind
    intro _
    apply (ih .conditional left).bind
    intro no
    exact .refl _

theorem steady_level (ih : ∀ s, Steady limit limit' fuel s) :
    Steady limit limit' (fuel + 1) (.level k) := by
  intro left
  simp only [read]
  rw [level, level]
  split
  · exact ih .unary left
  · apply (ih (.level (k + 1)) left).bind
    intro first
    exact ih (.chain k) first

theorem steady_chain (ih : ∀ s, Steady limit limit' fuel s) :
    Steady limit limit' (fuel + 1) (.chain k) := by
  intro left
  simp only [read]
  rw [chain, chain]
  apply (Agree.refl _).bind
  intro t
  split
  · exact .refl _
  · split
    · exact .refl _
    · apply (Agree.refl _).bind
      intro _
      apply (ih (.level (k + 1)) left).bind
      intro right
      apply (Agree.refl _).bind
      intro joined
      exact ih (.chain k) joined

theorem steady_unary (h : limit ≤ limit') (ih : ∀ s, Steady limit limit' fuel s) :
    Steady limit limit' (fuel + 1) .unary := by
  intro left
  simp only [read]
  rw [unary, unary]
  apply (Agree.refl _).bind
  intro t
  split
  · exact ih .value left
  · apply (Agree.refl _).bind
    intro _
    apply (agree_enter h).bind
    intro _
    apply (ih .unary left).bind
    intro operand
    exact .refl _

theorem steady_value (h : limit ≤ limit') (ih : ∀ s, Steady limit limit' fuel s) :
    Steady limit limit' (fuel + 1) .value := by
  intro left
  simp only [read]
  rw [value, value]
  apply (Agree.refl _).bind
  intro start
  apply (Agree.refl _).bind
  intro t
  cases t with
  | char c =>
      simp only
      split
      · apply (agree_enter h).bind
        intro _
        apply (ih .conditional left).bind
        intro inner
        exact .refl _
      · exact .refl _
  | number _ => exact .refl _
  | count => exact .refl _
  | pair _ => exact .refl _
  | finish => exact .refl _

theorem steady (h : limit ≤ limit') (fuel : Nat) (s : Symbol) : Steady limit limit' fuel s := by
  induction fuel generalizing s with
  | zero =>
      intro left
      cases s <;> exact .refl _
  | succ fuel ih =>
      cases s with
      | conditional => exact steady_conditional h ih
      | level k => exact steady_level ih
      | chain k => exact steady_chain ih
      | unary => exact steady_unary h ih
      | value => exact steady_value h ih

theorem agree_rule (h : limit ≤ limit') (fuel : Nat) :
    Agree limit (rule limit fuel) (rule limit' fuel) := by
  apply (steady h fuel .conditional ⟨.count, 1⟩).bind
  intro parsed
  exact .refl _

end Parser

/-! ## Sources under two limits -/

namespace Expr

variable {limit limit' : Nat} {source : String}

/-- A source that is not nested too deep for the smaller limit has the same outcome under the
larger one, be it a rule or an error. -/
theorem parseWithin_of_le (h : limit ≤ limit') (source : String) :
    parseWithin limit source = .error (.nestedTooDeep limit) ∨
      parseWithin limit' source = parseWithin limit source := by
  unfold parseWithin
  extract_lets cs
  -- A bound that stays open would be unrolled call by call.
  generalize Parser.bound cs = fuel
  rcases Parser.agree_rule h fuel (.ofSource cs) with ⟨q, hq⟩ | hp
  · left
    rw [hq]
  · right
    rw [hp]

theorem parseWithin_mono {e : Expr} (h : limit ≤ limit') (he : parseWithin limit source = .ok e) :
    parseWithin limit' source = .ok e := by
  rcases parseWithin_of_le h source with hs | hs
  · rw [he] at hs
    cases hs
  · rw [hs, he]

/-- Refusing to open a level is the only failure that a larger limit can undo. -/
theorem parseWithin_eq_error_of_le {cause : SyntaxError} (h : limit ≤ limit')
    (he : parseWithin limit source = .error cause) (hc : ∀ l, cause ≠ .nestedTooDeep l) :
    parseWithin limit' source = .error cause := by
  rcases parseWithin_of_le h source with hs | hs
  · rw [he] at hs
    exact absurd (Except.error.inj hs) (hc limit)
  · rw [hs, he]

theorem parseOptional_mono {found : Option Expr} (h : limit ≤ limit')
    (he : parseOptional limit source = .ok found) : parseOptional limit' source = .ok found := by
  unfold parseOptional at he ⊢
  split
  · next hb => rwa [if_pos hb] at he
  · next hb =>
      rw [if_neg hb] at he
      cases hp : parseWithin limit source with
      | ok e =>
          rw [hp] at he
          rw [parseWithin_mono h hp, he]
      | error cause =>
          rw [hp] at he
          cases he

end Expr

end MessageCatalog.Plural
