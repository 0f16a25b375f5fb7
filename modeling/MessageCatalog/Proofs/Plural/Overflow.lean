import Mathlib.Logic.Relation
import MessageCatalog.Proofs.Plural.Integers

/-! # Values that leave the range of a word

A rule is evaluated over 32-bit words, which wrap. In a rule that only adds, subtracts, multiplies,
works bit by bit and shifts to the left this does no harm: the result is the word of the exact one,
wherever words overflowed on the way. In any rule the result is exact if no value that is asked for
leaves the range and no word is shifted by more than 31 bits.
-/

namespace MessageCatalog.Plural.Expr

/-! ## Rules that may overflow -/

/-- Rules over the ring of words. Words are shifted by a literal only. -/
inductive IsRing : Expr → Prop
  | literal (value) : IsRing (literal value)
  | count : IsRing count
  | unary {op e} (hop : op.isRing) (he : IsRing e) : IsRing (unary op e)
  | binary {op l r} (hop : op.isRing) (hl : IsRing l) (hr : IsRing r) : IsRing (binary op l r)
  | shift {l k} (hl : IsRing l) (hk : 0 ≤ k.toInt ∧ k.toInt ≤ 31) :
      IsRing (binary .shl l (.literal k))

/-- Evaluation commutes with taking words, at every size of the values. -/
theorem IsRing.exists_exact {e : Expr} (h : e.IsRing) (n : Int32) :
    ∃ v, e.exact n.toInt = .ok v ∧ e.eval n = .ok (Int32.ofInt v) := by
  induction h with
  | literal value => exact ⟨value.toInt, rfl, by rw [Int32.ofInt_toInt, eval]⟩
  | count => exact ⟨n.toInt, rfl, by rw [Int32.ofInt_toInt, eval]⟩
  | @unary op e hop he ih =>
      obtain ⟨a, ha, hw⟩ := ih
      refine ⟨op.exact a, by rw [exact, ha]; rfl, ?_⟩
      rw [eval, hw, UnaryOp.ofInt_exact hop]
      rfl
  | @binary op l r hop hl hr ihl ihr =>
      obtain ⟨a, ha, hwa⟩ := ihl
      obtain ⟨b, hb, hwb⟩ := ihr
      obtain ⟨hexact, hword⟩ := BinaryOp.shortcut_of_isRing hop
      refine ⟨op.exact a b, ?_, ?_⟩
      · simp only [exact, ha, hb, bind, Except.bind, hexact]
        rfl
      · simp only [eval, hwa, hwb, bind, Except.bind, hword, BinaryOp.ofInt_exact hop]
        rfl
  | @shift l k hl hk ih =>
      obtain ⟨a, ha, hw⟩ := ih
      refine ⟨BinaryOp.shl.exact a k.toInt, by rw [exact, ha]; rfl, ?_⟩
      rw [eval, hw, BinaryOp.exact, ofInt_shiftLeft hk]
      rfl

/-- A rule over the ring of words never fails, and its value is the exact one reduced to the word that
is congruent to it. -/
theorem eval_eq_exact_reduced {e : Expr} (h : e.IsRing) (n : Int32) :
    ∃ (v : Int) (x : Int32), e.exact n.toInt = .ok v ∧ e.eval n = .ok x ∧
      x.toInt = (v + 2 ^ 31) % 2 ^ 32 - 2 ^ 31 := by
  obtain ⟨v, hv, hx⟩ := h.exists_exact n
  refine ⟨v, Int32.ofInt v, hv, hx, ?_⟩
  rw [Int32.toInt_ofInt, Int.bmod]
  simp only [Int32.size]
  omega

/-- `n * n ^ ~(n << 31)` -/
def mixedPowers : Expr :=
  binary .bitXor (binary .mul count count) (unary .bitNot (binary .shl count (literal 31)))

theorem isRing_mixedPowers : IsRing mixedPowers :=
  .binary rfl (.binary rfl .count .count) (.unary rfl (.shift .count (by decide)))

theorem eval_eq_exact_reduced_mixedPowers :
    IsRing mixedPowers ∧ mixedPowers.exact Int32.maxValue.toInt = .ok (-2147483650) ∧
      ∃ (v : Int) (x : Int32), mixedPowers.exact Int32.maxValue.toInt = .ok v ∧
        mixedPowers.eval Int32.maxValue = .ok x ∧ x.toInt = (v + 2 ^ 31) % 2 ^ 32 - 2 ^ 31 :=
  ⟨isRing_mixedPowers, by decide +kernel, eval_eq_exact_reduced isRing_mixedPowers Int32.maxValue⟩

/-! ## Rules that stay in range -/

/-- A node needs its first operand always, and a further one if the exact value of the first leaves
the matter open. -/
inductive ExactlyNeeds (n : Int) : Expr → Expr → Prop
  | operand (op e) : ExactlyNeeds n (unary op e) e
  | left (op l r) : ExactlyNeeds n (binary op l r) l
  | right {op l a} (r) (hl : l.exact n = .ok a) (hop : op.exactShortcut a = none) :
      ExactlyNeeds n (binary op l r) r
  | dividend (op l r) : ExactlyNeeds n (division op l r) l
  | divisor {l a} (op r) (hl : l.exact n = .ok a) : ExactlyNeeds n (division op l r) r
  | condition (c t e) : ExactlyNeeds n (conditional c t e) c
  | yes {c a} (t e) (hc : c.exact n = .ok a) (ha : a ≠ 0) : ExactlyNeeds n (conditional c t e) t
  | no {c} (t e) (hc : c.exact n = .ok 0) : ExactlyNeeds n (conditional c t e) e

/-- The evaluation of `e` over the integers asks for the value of `d`. -/
abbrev ExactlyDemands (n : Int) (e d : Expr) : Prop :=
  Relation.ReflTransGen (ExactlyNeeds n) e d

/-- Whatever the evaluation over the integers asks for can be done with words. -/
structure Fits (n : Int32) (e : Expr) : Prop where
  value : ∀ {d v}, ExactlyDemands n.toInt e d → d.exact n.toInt = .ok v → InRange v
  shift : ∀ {op l r a k}, op.isShift → ExactlyDemands n.toInt e (binary op l r) →
    l.exact n.toInt = .ok a → r.exact n.toInt = .ok k → 0 ≤ k ∧ k ≤ 31

variable {n : Int32} {e d : Expr}

theorem Fits.of_needs (h : Fits n e) (hd : ExactlyNeeds n.toInt e d) : Fits n d where
  value hp hv := h.value (.head hd hp) hv
  shift hop hp hl hr := h.shift hop (.head hd hp) hl hr

/-- A rule fits if its operands do that are needed and its own value does. -/
theorem Fits.of_operands (hneeds : ∀ d, ExactlyNeeds n.toInt e d → Fits n d)
    (hvalue : ∀ v, e.exact n.toInt = .ok v → InRange v)
    (hshift : ∀ op l r a k, e = binary op l r → op.isShift → l.exact n.toInt = .ok a →
      r.exact n.toInt = .ok k → 0 ≤ k ∧ k ≤ 31) : Fits n e where
  value hp hv := by
    rcases hp.cases_head with rfl | ⟨d, hd, hp⟩
    · exact hvalue _ hv
    · exact (hneeds d hd).value hp hv
  shift hop hp hl hr := by
    rcases hp.cases_head with rfl | ⟨d, hd, hp⟩
    · exact hshift _ _ _ _ _ rfl hop hl hr
    · exact (hneeds d hd).shift hop hp hl hr

/-- The word that is computed stands for the exact value, or both evaluations fail alike. -/
def Agrees (n : Int32) (e : Expr) : Prop :=
  (e.eval n).map Int32.toInt = e.exact n.toInt

theorem Agrees.cases (h : Agrees n e) :
    (∃ x, e.eval n = .ok x ∧ e.exact n.toInt = .ok x.toInt) ∨
      ∃ cause, e.eval n = .error cause ∧ e.exact n.toInt = .error cause := by
  unfold Agrees at h
  cases he : e.eval n with
  | ok x => exact .inl ⟨x, rfl, by rw [← h, he]; rfl⟩
  | error cause => exact .inr ⟨cause, rfl, by rw [← h, he]; rfl⟩

theorem agrees_of_error {cause : EvalError} (hx : e.eval n = .error cause)
    (hv : e.exact n.toInt = .error cause) : Agrees n e := by
  rw [Agrees, hx, hv]
  rfl

theorem Fits.agrees_of_ok {v : Int} {x : Int32} (h : Fits n e) (hx : e.eval n = .ok x)
    (hv : e.exact n.toInt = .ok v) (hword : Int32.ofInt v = x) : Agrees n e := by
  rw [Agrees, hx, hv, ← hword]
  exact congrArg Except.ok (toInt_ofInt_of_inRange (h.value .refl hv))

/-! ## Agreement of the nodes -/

variable {op : BinaryOp} {l r c t : Expr}

theorem Fits.agrees_unary {op : UnaryOp} (h : Fits n (unary op e)) (he : Agrees n e) :
    Agrees n (unary op e) := by
  rcases he.cases with ⟨x, hx, ha⟩ | ⟨cause, hx, ha⟩
  · exact h.agrees_of_ok (by rw [eval, hx]; rfl) (by rw [exact, ha]; rfl) (op.ofInt_exact_toInt x)
  · exact agrees_of_error (by rw [eval, hx]; rfl) (by rw [exact, ha]; rfl)

theorem Fits.agrees_binary (h : Fits n (binary op l r)) (hl : Agrees n l)
    (hr : ExactlyNeeds n.toInt (binary op l r) r → Agrees n r) : Agrees n (binary op l r) := by
  rcases hl.cases with ⟨x, hx, ha⟩ | ⟨cause, hx, ha⟩
  · have hs := op.exactShortcut_toInt x
    cases hshort : op.shortcut x with
    | some v =>
        rw [hshort] at hs
        refine h.agrees_of_ok (x := v) (v := v.toInt) ?_ ?_ (Int32.ofInt_toInt v)
        · simp only [eval, hx, bind, Except.bind, hshort]
          rfl
        · simp only [exact, ha, bind, Except.bind, hs]
          rfl
    | none =>
        rw [hshort] at hs
        rcases (hr (.right r ha hs)).cases with ⟨y, hy, hb⟩ | ⟨cause, hy, hb⟩
        · refine h.agrees_of_ok (x := op.apply x y) (v := op.exact x.toInt y.toInt) ?_ ?_ ?_
          · simp only [eval, hx, hy, bind, Except.bind, hshort]
            rfl
          · simp only [exact, ha, hb, bind, Except.bind, hs]
            rfl
          · exact BinaryOp.ofInt_exact_toInt (fun hop => h.shift hop .refl ha hb) x
        · have heval : (binary op l r).eval n = .error cause := by
            simp only [eval, hx, hy, bind, Except.bind, hshort]
          have hexact : (binary op l r).exact n.toInt = .error cause := by
            simp only [exact, ha, hb, bind, Except.bind, hs]
            rfl
          exact agrees_of_error heval hexact
  · exact agrees_of_error (by rw [eval, hx]; rfl) (by rw [exact, ha]; rfl)

theorem Fits.agrees_division {op : DivisionOp} (h : Fits n (division op l r)) (hl : Agrees n l)
    (hr : ExactlyNeeds n.toInt (division op l r) r → Agrees n r) : Agrees n (division op l r) := by
  rcases hl.cases with ⟨x, hx, ha⟩ | ⟨cause, hx, ha⟩
  · rcases (hr (.divisor op r ha)).cases with ⟨y, hy, hb⟩ | ⟨cause, hy, hb⟩
    · have heval : (division op l r).eval n = op.apply? x y := by
        rw [eval, hx, hy]
        rfl
      have hexact : (division op l r).exact n.toInt = op.exact? x.toInt y.toInt := by
        rw [exact, ha, hb]
        rfl
      by_cases h0 : y = 0
      · subst h0
        exact agrees_of_error heval hexact
      · rw [ DivisionOp.apply?, if_neg h0] at heval
        rw [ DivisionOp.exact?, if_neg (toInt_eq_zero_iff.not.mpr h0)] at hexact
        exact h.agrees_of_ok heval hexact (op.ofInt_exact_toInt x y)
    · exact agrees_of_error (by rw [eval, hx, hy]; rfl) (by rw [exact, ha, hb]; rfl)
  · exact agrees_of_error (by rw [eval, hx]; rfl) (by rw [exact, ha]; rfl)

theorem agrees_conditional (hc : Agrees n c)
    (ht : ExactlyNeeds n.toInt (conditional c t e) t → Agrees n t)
    (he : ExactlyNeeds n.toInt (conditional c t e) e → Agrees n e) :
    Agrees n (conditional c t e) := by
  rcases hc.cases with ⟨x, hx, ha⟩ | ⟨cause, hx, ha⟩
  · by_cases h0 : x = 0
    · subst h0
      have heval : (conditional c t e).eval n = e.eval n := by
        rw [eval, hx]
        rfl
      have hexact : (conditional c t e).exact n.toInt = e.exact n.toInt := by
        rw [exact, ha]
        rfl
      rw [Agrees, heval, hexact]
      exact he (.no t e ha)
    · have h0' := toInt_eq_zero_iff.not.mpr h0
      have heval : (conditional c t e).eval n = t.eval n := by
        rw [eval, hx]
        exact if_pos h0
      have hexact : (conditional c t e).exact n.toInt = t.exact n.toInt := by
        rw [exact, ha]
        exact if_pos h0'
      rw [Agrees, heval, hexact]
      exact ht (.yes t e ha h0')
  · exact agrees_of_error (by rw [eval, hx]; rfl) (by rw [exact, ha]; rfl)

/-- If all that the evaluation over the integers asks for can be done with words, the rule has the
exact value, or fails as it does over the integers. -/
theorem eval_eq_exact {e : Expr} {n : Int32} (h : Fits n e) :
    (e.eval n).map Int32.toInt = e.exact n.toInt := by
  change Agrees n e
  induction e with
  | literal value => rfl
  | count => rfl
  | unary op e ih => exact h.agrees_unary (ih (h.of_needs (.operand op e)))
  | binary op l r ihl ihr =>
      exact h.agrees_binary (ihl (h.of_needs (.left op l r))) fun hr => ihr (h.of_needs hr)
  | division op l r ihl ihr =>
      exact h.agrees_division (ihl (h.of_needs (.dividend op l r))) fun hr => ihr (h.of_needs hr)
  | conditional c t e ihc iht ihe =>
      exact agrees_conditional (ihc (h.of_needs (.condition c t e)))
        (fun ht => iht (h.of_needs ht)) fun he => ihe (h.of_needs he)

/-! ## A rule that overflows where nobody asks -/

theorem fits_literal (value : Int32) : Fits n (literal value) := by
  refine .of_operands nofun ?_ nofun
  intro v hv
  obtain rfl := Except.ok.inj hv
  exact ⟨value.minValue_le_toInt, value.toInt_le⟩

theorem fits_count : Fits n count := by
  refine .of_operands nofun ?_ nofun
  intro v hv
  obtain rfl := Except.ok.inj hv
  exact ⟨n.minValue_le_toInt, n.toInt_le⟩

/-- `n < 0 ? 2147483647 * n : -7 % n >> 1` -/
def halvedRemainder : Expr :=
  conditional (binary .lt count (literal 0)) (binary .mul (literal Int32.maxValue) count)
    (binary .shr (division .remainder (literal (-7)) count) (literal 1))

theorem fits_halvedRemainder : Fits 4 halvedRemainder := by
  have hc : Fits 4 (binary .lt count (literal 0)) := by
    refine .of_operands ?_ ?_ ?_
    · rintro d (_ | _)
      · exact fits_count
      · exact fits_literal 0
    · intro v hv
      obtain rfl : (0 : Int) = v := Except.ok.inj hv
      decide
    · rintro op l r a k ⟨⟩ hop
      cases hop
  have hd : Fits 4 (division .remainder (literal (-7)) count) := by
    refine .of_operands ?_ ?_ nofun
    · rintro d (_ | _)
      · exact fits_literal (-7)
      · exact fits_count
    · intro v hv
      obtain rfl : (-3 : Int) = v := Except.ok.inj hv
      decide
  have hs : Fits 4 (binary .shr (division .remainder (literal (-7)) count) (literal 1)) := by
    refine .of_operands ?_ ?_ ?_
    · rintro d (_ | _)
      · exact hd
      · exact fits_literal 1
    · intro v hv
      obtain rfl : (-2 : Int) = v := Except.ok.inj hv
      decide
    · rintro op l r a k ⟨⟩ - - hk
      obtain rfl : (1 : Int) = k := Except.ok.inj hk
      decide
  refine .of_operands ?_ ?_ nofun
  · intro d hneeds
    cases hneeds with
    | condition => exact hc
    | yes t e hv ha => exact absurd (Except.ok.inj hv).symm ha
    | no => exact hs
  · intro v hv
    obtain rfl : (-2 : Int) = v := Except.ok.inj hv
    decide

theorem eval_eq_exact_halvedRemainder :
    Fits 4 halvedRemainder ∧ halvedRemainder.exact 4 = .ok (-2) ∧
      (halvedRemainder.eval 4).map Int32.toInt = halvedRemainder.exact (4 : Int32).toInt :=
  ⟨fits_halvedRemainder, by decide, eval_eq_exact fits_halvedRemainder⟩

end MessageCatalog.Plural.Expr
