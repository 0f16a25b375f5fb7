import MessageCatalog.Proofs.Plural.Offsets
import MessageCatalog.Proofs.Plural.Parsing
import MessageCatalog.Proofs.Plural.Sentences

/-! # What a syntax error points at

A parse stops at the first token that no sentence has at its place. Where it is known which texts may
stand behind a symbol, the function for the symbol either takes a text of the symbol, or it fails at
a token that none of these texts allows, and the cursor has looked at that token.
-/

namespace MessageCatalog.Plural

/-! ## The token to blame -/

/-- The token with the number `k`, which is `t` and starts at the byte offset `o`, is the first one
that does not fit: what is in front of it is the start of a sentence, and with `t` it is not. -/
structure FirstOffending (source : List Char) (k o : Nat) (t : Token) : Prop where
  placed : (placedTokens source)[k]? = some (o, t)
  starts : ∃ rest l, RestAt source o rest ∧ Lexeme.first rest = .ok l ∧ l.token = t
  viable : Viable (((placedTokens source).take k).map Prod.snd)
  offends : ∀ w, Sentence w →
    ¬ ((placedTokens source).take (k + 1)).map Prod.snd <+: w ++ [.finish]

/-- The source cannot be read beyond a run of digits that writes too large a number, and the tokens
in front of it are the start of a sentence. -/
structure Oversized (source : List Char) (fault : NumberTooLarge) : Prop where
  fault_eq : (reading 0 source).fault = some fault
  starts : ∃ rest, RestAt source fault.offset rest ∧
    fault.digits = rest.takeWhile Char.isDigit ∧ fault.digits ≠ []
  large : 2147483647 < Text.decimalValue fault.digits
  viable : Viable (reading 0 source).tokens

/-- What each error says of the source. An error about a limit says nothing, and the recursion is
never cut off. -/
def Blamed (source : List Char) : SyntaxError → Prop
  | .number fault => Oversized source fault
  | .unexpected t o => ∃ k, FirstOffending source k o t
  | .missing _ t o => ∃ k, FirstOffending source k o t
  | .trailing t o => ∃ k, FirstOffending source k o t
  | .endOfExpression => ∃ k, FirstOffending source k (Text.utf8Length source) .finish
  | .nestedTooDeep _ => True
  | .treeTooDeep _ => True
  | .exhausted => False

variable {source : List Char} {s : Symbol} {t : Token} {u v w : List Token} {c : Char}

theorem Lexeme.of_first_error {cs digits : List Char} (h : Lexeme.first cs = .error digits) :
    digits = cs.takeWhile Char.isDigit ∧ digits ≠ [] ∧ 2147483647 < Text.decimalValue digits := by
  cases cs with
  | nil => cases h
  | cons c cs =>
      simp only [first] at h
      split at h
      · cases h
      · split at h
        · next hc =>
            simp only [ofDigits?] at h
            split at h
            · cases h
            · next hl =>
                obtain rfl := Except.error.inj h
                exact ⟨rfl, by simp [hc], Nat.lt_of_not_le hl⟩
        · split at h <;> cases h

theorem oversized {fault : NumberTooLarge} (h : (reading 0 source).fault = some fault)
    (hv : Viable (reading 0 source).tokens) : Oversized source fault := by
  obtain ⟨rest, hrest, hfirst⟩ := (restAt_of_reading [] rfl nofun).2 fault h
  obtain ⟨hdigits, hne, hlarge⟩ := Lexeme.of_first_error hfirst
  exact ⟨h, ⟨rest, hrest, hdigits, hne⟩, hlarge, hv⟩

theorem Cursor.Faces.firstOffending {c : Cursor} (h : Faces source c u w) (hu : Viable u)
    (ho : Offends u (w.headD .finish)) :
    FirstOffending source u.length c.offset (w.headD .finish) := by
  have hplaced := h.placed
  have htake : ((placedTokens source).take u.length).map Prod.snd = u := by
    rw [List.map_take, map_snd_placedTokens, h.tokens, List.append_assoc, List.take_left]
  refine ⟨hplaced, restAt_of_placed (List.mem_of_getElem? hplaced), htake.symm ▸ hu, ?_⟩
  rw [List.take_add_one, hplaced, List.map_append, htake]
  exact ho

theorem Derivation.length_yield_pos (d : Derivation s) (hs : 2 ≤ s.spare) : 0 < d.yield.length := by
  have h := d.calls_add_spare_le
  omega

/-- Whether the function for a symbol looks at the token behind the symbol's text. -/
def Symbol.Looks : Symbol → Prop
  | .conditional => True
  | .level k => k ≤ 10
  | .chain _ => True
  | .unary => False
  | .value => False

namespace Parser

/-! ## Runs with a result or an error -/

variable {α β : Type} {blame : SyntaxError → Prop} {p q : Parser} {x : Run α} {f : α → Run β}
  {mid : α → Parser → Prop} {post : β → Parser → Prop}

/-- Where `x` ends well, `post` holds of its result, and where it fails, `blame` of the error. -/
def Ensures (blame : SyntaxError → Prop) (x : Run α) (p : Parser) (post : α → Parser → Prop) :
    Prop :=
  match x p with
  | .ok a q => post a q
  | .error e _ => blame e

theorem Ensures.bind (hx : Ensures blame x p mid)
    (hf : ∀ a q, mid a q → Ensures blame (f a) q post) : Ensures blame (x >>= f) p post := by
  unfold Ensures at hx ⊢
  change match EStateM.bind x f p with | .ok a q => _ | .error e _ => _
  unfold EStateM.bind
  cases hp : x p with
  | ok a q =>
      rw [hp] at hx
      exact hf a q hx
  | error e q =>
      rw [hp] at hx
      exact hx

theorem Ensures.mono {post' : α → Parser → Prop} (hx : Ensures blame x p mid)
    (hm : ∀ a q, mid a q → post' a q) : Ensures blame x p post' := by
  unfold Ensures at hx ⊢
  cases hp : x p with
  | ok a q =>
      rw [hp] at hx
      exact hm a q hx
  | error e q =>
      rw [hp] at hx
      exact hx

/-! ## Single steps -/

variable {limit fuel k : Nat} {left : Parsed}

theorem ensures_peek (h : p.cursor.Stands source u w) (hu : Viable u) :
    Ensures (Blamed source) peek p fun t q =>
      t = w.headD .finish ∧ q.cursor.Faces source u w := by
  unfold Ensures peek
  rcases h.peek with ⟨c, hc, hfaces⟩ | ⟨fault, c, hc, rfl, hfault⟩
  · rw [hc]
    exact ⟨rfl, hfaces⟩
  · rw [hc]
    refine oversized hfault ?_
    rwa [h.tokens, List.append_nil]

theorem ensures_offset (p : Parser) :
    Ensures blame offset p fun o q => o = p.cursor.offset ∧ q = p :=
  ⟨rfl, rfl⟩

theorem ensures_advance (h : p.cursor.Faces source u w) :
    Ensures (Blamed source) advance p fun t q =>
      t = w.headD .finish ∧ ∀ t v, w = t :: v → q.cursor.Stands source (u ++ [t]) v := by
  unfold Ensures advance
  obtain ⟨c, hc, hstands⟩ := h.advance
  rw [hc]
  exact ⟨rfl, hstands⟩

theorem ensures_discard (h : p.cursor.Faces source u (t :: w)) :
    Ensures (Blamed source) (discard advance) p fun _ q =>
      q.cursor.Stands source (u ++ [t]) w := by
  obtain ⟨c, hc, hstands⟩ := h.advance
  have ha : p.advance = .ok t { p with cursor := c, taken := p.taken + 1 } := by
    unfold advance
    rw [hc]
    rfl
  have hd : (discard advance : Run Unit) p = .ok () _ := discard_eq_ok_iff.mpr ⟨t, ha⟩
  unfold Ensures
  rw [hd]
  exact hstands t w rfl

/-- The character is the only token that fits behind the text of `s`. -/
theorem ensures_expect {K : Rests} {d : Derivation s} (h : Expects u s (.token c K))
    (hp : p.cursor.Faces source (u ++ d.yield) w) (hw : Ends s w) :
    Ensures (Blamed source) (expect c) p fun _ q =>
      ∃ v, w = .char c :: v ∧ q.cursor.Stands source (u ++ d.yield ++ [.char c]) v := by
  refine (ensures_offset p).bind ?_
  rintro _ p ⟨rfl, rfl⟩
  refine (ensures_advance hp).bind ?_
  rintro _ q ⟨rfl, hstands⟩
  split
  · next ht =>
      obtain ⟨v, rfl⟩ := headD_eq_char_iff.mp ht
      exact ⟨v, rfl, hstands _ v rfl⟩
  · next ht =>
      have hoffends : Offends (u ++ d.yield) (w.headD .finish) := by
        refine h.offends_behind d hw ?_
        rintro _ ⟨v, rfl, -⟩
        exact Ne.symm ht
      exact ⟨_, hp.firstOffending (h.viable_append d) hoffends⟩

theorem ensures_enter (limit : Nat) (p : Parser) :
    Ensures (Blamed source) (enter limit) p fun _ q => q.cursor = p.cursor := by
  simp only [Ensures, enter]
  split
  · next hp =>
      split at hp
      · cases hp
      · cases hp
        rfl
  · next hp =>
      split at hp
      · cases hp
        trivial
      · cases hp

theorem ensures_leave (p : Parser) :
    Ensures blame leave p fun _ q => q.cursor = p.cursor :=
  rfl

theorem ensures_node (e : Expr) (depth : Nat) (p : Parser) :
    Ensures (Blamed source) (node e depth) p fun _ q => q.cursor = p.cursor := by
  unfold node
  split
  · trivial
  · rfl

/-! ## The functions of the parser -/

/-- The cursor is where a text of `s` is read. A value is read only where its first token has been
looked at. -/
def Starts (source : List Char) (c : Cursor) : Symbol → List Token → List Token → Prop
  | .value => c.Faces source
  | _ => c.Stands source

/-- The cursor has taken a text of `s` from `w`, which ends there. -/
def Taken (source : List Char) (s : Symbol) (u w : List Token) (c : Cursor) : Prop :=
  ∃ (d : Derivation s) (v : List Token), w = d.yield ++ v ∧ c.Stands source (u ++ d.yield) v ∧
    Ends s v ∧ (s.Looks → c.Faces source (u ++ d.yield) v)

/-- Where a text of `s` is expected, the function for `s` takes one, or it fails with an error that
tells where the source is wrong, as long as calls may nest deeply enough for the tokens that are
left. -/
def Guided (source : List Char) (limit fuel : Nat) (s : Symbol) : Prop :=
  ∀ {p : Parser} {u w : List Token} {K : Rests} (left : Parsed),
    16 * w.length + 17 ≤ fuel + s.spare → Starts source p.cursor s u w → Expects u s K →
    Opens s w →
    Ensures (Blamed source) (read limit fuel left s) p fun _ q => Taken source s u w q.cursor

theorem guided_conditional (ih : ∀ s, Guided source limit fuel s) :
    Guided source limit (fuel + 1) .conditional := by
  intro p u w K left hfuel hp h _
  simp only [read]
  rw [conditional]
  refine (ih (.level 1) left ?_ hp h.condition trivial).bind ?_
  · simp only [Symbol.spare] at hfuel ⊢
    omega
  rintro condition p₁ ⟨d, v, rfl, hp₁, hbelow, -⟩
  have hd := d.length_yield_pos (by decide)
  refine (ensures_peek hp₁ (h.condition.viable_append d)).bind ?_
  rintro _ p₂ ⟨rfl, hp₂⟩
  split
  · next hq =>
      refine ⟨.bare d, v, rfl, hp₂.toStands, ⟨hbelow, ?_⟩, fun _ => hp₂⟩
      intro hq'
      obtain ⟨v, rfl⟩ := List.head?_eq_some_iff.mp hq'
      exact hq rfl
  · next hq =>
      obtain ⟨v, rfl⟩ := headD_eq_char_iff.mp (Decidable.not_not.mp hq)
      refine (ensures_discard hp₂).bind ?_
      intro _ p₃ hp₃
      refine (ensures_enter limit p₃).bind ?_
      intro _ p₄ hc₄
      rw [← hc₄] at hp₃
      -- From here on the colon and the other branch are still to come.
      have hyes := h.yes d
      simp only [Symbol.spare, List.length_append, List.length_cons] at hfuel
      refine (ih .conditional left ?_ hp₃ hyes trivial).bind ?_
      · simp only [Symbol.spare]
        omega
      rintro yes p₅ ⟨dy, v, rfl, -, hends, hlooks⟩
      refine (ensures_expect hyes (hlooks trivial) hends).bind ?_
      rintro _ p₆ ⟨v, rfl, hp₆⟩
      -- Behind the other branch stands what stands behind the whole.
      have hno := hyes.behind_token h.ends dy
      simp only [List.length_append, List.length_cons] at hfuel
      refine (ih .conditional left ?_ hp₆ hno trivial).bind ?_
      · simp only [Symbol.spare]
        omega
      rintro no p₇ ⟨dn, v, rfl, hp₇, hends, hlooks⟩
      refine (ensures_leave p₇).bind ?_
      intro _ p₈ hc₈
      refine (ensures_node _ _ p₈).mono ?_
      intro _ q hc
      have hy : u ++ d.yield ++ [.char '?'] ++ dy.yield ++ [.char ':'] ++ dn.yield =
          u ++ (Derivation.choice d dy dn).yield := by
        simp [Derivation.yield]
      rw [hy] at hp₇ hlooks
      rw [hc, hc₈]
      refine ⟨.choice d dy dn, v, ?_, hp₇, hends, hlooks⟩
      simp [Derivation.yield]

theorem guided_level (ih : ∀ s, Guided source limit fuel s) :
    Guided source limit (fuel + 1) (.level k) := by
  intro p u w K left hfuel hp h _
  simp only [read]
  rw [level]
  split
  · next hk =>
      refine (ih .unary left ?_ hp (h.tightest hk) trivial).mono ?_
      · simp only [Symbol.spare] at hfuel ⊢
        omega
      rintro _ q ⟨d, v, rfl, hq, -, -⟩
      -- No operator binds this tight.
      have hbelow : Below k v := fun op _ _ => Nat.lt_of_le_of_lt op.precedence_le hk
      exact ⟨.tightest hk d, v, rfl, hq, hbelow, fun hk' => absurd hk' (Nat.not_le_of_lt hk)⟩
  · next hk =>
      have hk := Nat.le_of_not_lt hk
      have hoperand := h.operand hk
      refine (ih (.level (k + 1)) left ?_ hp hoperand trivial).bind ?_
      · simp only [Symbol.spare] at hfuel ⊢
        omega
      rintro first p₁ ⟨d, v, rfl, hp₁, hbelow, -⟩
      have hd := d.length_yield_pos (Nat.le_add_right_of_le (by decide))
      refine (ih (.chain k) first ?_ hp₁ (hoperand.chain h.ends d) hbelow).mono ?_
      · simp only [Symbol.spare, List.length_append] at hfuel ⊢
        omega
      rintro _ q ⟨c, v, rfl, hq, hends, hlooks⟩
      rw [List.append_assoc] at hq hlooks
      exact ⟨.operands hk d c, v, (List.append_assoc _ _ _).symm, hq, hends, fun _ => hlooks trivial⟩

theorem guided_chain (ih : ∀ s, Guided source limit fuel s) :
    Guided source limit (fuel + 1) (.chain k) := by
  intro p u w K left hfuel hp h hbelow
  simp only [read]
  rw [chain]
  refine (ensures_peek hp h.viable).bind ?_
  rintro _ p₁ ⟨rfl, hp₁⟩
  -- An operator of another level is left to the levels around this one.
  have hstop (hne : ∀ op, Dyadic.ofToken? (w.headD .finish) = some op → op.precedence ≠ k) :
      Taken source (.chain k) u w p₁.cursor := by
    have hu : p₁.cursor.Faces source (u ++ []) w := by rwa [List.append_nil]
    exact ⟨.stop, w, rfl, hu.toStands, hbelow.of_succ hne, fun _ => hu⟩
  cases hop : Dyadic.ofToken? (w.headD .finish) with
  | none =>
      refine hstop ?_
      rw [hop]
      simp
  | some op =>
      simp only
      split
      · next hk => exact hstop fun op' ht => Option.some.inj (hop.symm.trans ht) ▸ hk
      · next hk =>
          have hmem := Dyadic.mem_ofLevel_iff.mpr (Decidable.not_not.mp hk)
          have ht := Dyadic.ofToken?_eq_some_iff.mp hop
          obtain ⟨v, rfl⟩ := (headD_eq_iff op.token_ne_finish).mp ht
          have hstep := h.step hmem
          refine (ensures_discard hp₁).bind ?_
          intro _ p₂ hp₂
          simp only [Symbol.spare, List.length_cons] at hfuel
          refine (ih (.level (k + 1)) left ?_ hp₂ hstep trivial).bind ?_
          · simp only [Symbol.spare]
            omega
          rintro right p₃ ⟨d, v, rfl, hp₃, hbelow, -⟩
          refine (ensures_node _ _ p₃).bind ?_
          intro joined p₄ hc₄
          rw [← hc₄] at hp₃
          simp only [List.length_append] at hfuel
          refine (ih (.chain k) joined ?_ hp₃ (hstep.chain h.ends d) hbelow).mono ?_
          · simp only [Symbol.spare]
            omega
          rintro _ q ⟨c, v, rfl, hq, hends, hlooks⟩
          have hy : u ++ [op.token] ++ d.yield ++ c.yield =
              u ++ (Derivation.step op hmem d c).yield := by
            simp [Derivation.yield]
          rw [hy] at hq hlooks
          refine ⟨.step op hmem d c, v, ?_, hq, hends, hlooks⟩
          simp [Derivation.yield]

theorem guided_unary (ih : ∀ s, Guided source limit fuel s) :
    Guided source limit (fuel + 1) .unary := by
  intro p u w K left hfuel hp h _
  simp only [read]
  rw [unary]
  refine (ensures_peek hp h.viable).bind ?_
  rintro _ p₁ ⟨rfl, hp₁⟩
  cases hop : UnaryOp.ofToken? (w.headD .finish) with
  | none =>
      have hopens : Opens .value w := by
        intro op ht
        rw [ht, op.ofToken?_token] at hop
        cases hop
      refine (ih .value left ?_ hp₁ h.plain hopens).mono ?_
      · simp only [Symbol.spare] at hfuel ⊢
        omega
      rintro _ q ⟨d, v, rfl, hq, -, -⟩
      exact ⟨.plain d, v, rfl, hq, trivial, False.elim⟩
  | some op =>
      have ht := UnaryOp.ofToken?_eq_some_iff.mp hop
      obtain ⟨v, rfl⟩ := (headD_eq_iff op.token_ne_finish).mp ht
      refine (ensures_discard hp₁).bind ?_
      intro _ p₂ hp₂
      refine (ensures_enter limit p₂).bind ?_
      intro _ p₃ hc₃
      rw [← hc₃] at hp₂
      refine (ih .unary left ?_ hp₂ (h.prefixed op) trivial).bind ?_
      · simp only [Symbol.spare, List.length_cons] at hfuel ⊢
        omega
      rintro operand p₄ ⟨d, v, rfl, hp₄, -, -⟩
      refine (ensures_leave p₄).bind ?_
      intro _ p₅ hc₅
      refine (ensures_node _ _ p₅).mono ?_
      intro _ q hc
      rw [List.append_assoc] at hp₄
      rw [hc, hc₅]
      exact ⟨.prefixed op d, v, rfl, hp₄, trivial, False.elim⟩

theorem guided_value (ih : ∀ s, Guided source limit fuel s) :
    Guided source limit (fuel + 1) .value := by
  intro p u w K left hfuel hp h hopens
  simp only [read]
  rw [value]
  refine (ensures_offset p).bind ?_
  rintro _ p ⟨rfl, rfl⟩
  refine (ensures_advance hp).bind ?_
  rintro t p₁ ⟨rfl, hp₁⟩
  have hblame (hnone : ∀ (d : Derivation .value) (v : List Token),
      (d.yield ++ v).headD .finish ≠ w.headD .finish) :
      FirstOffending source u.length p.cursor.offset (w.headD .finish) :=
    hp.firstOffending h.viable (h.offends_value hopens hnone)
  have hlooked := hp.looked
  generalize ht : w.headD .finish = t at hblame hlooked ⊢
  cases t with
  | number k =>
      obtain ⟨v, rfl⟩ := (headD_eq_iff (t := .number k) (by simp)).mp ht
      exact ⟨.number k, v, rfl, hp₁ _ v rfl, trivial, False.elim⟩
  | count =>
      obtain ⟨v, rfl⟩ := (headD_eq_iff (t := .count) (by simp)).mp ht
      exact ⟨.count, v, rfl, hp₁ _ v rfl, trivial, False.elim⟩
  | char c =>
      obtain ⟨v, rfl⟩ := headD_eq_char_iff.mp ht
      simp only
      split
      · next hc =>
          obtain rfl := hc
          have hp₁ := hp₁ _ v rfl
          refine (ensures_enter limit p₁).bind ?_
          intro _ p₂ hc₂
          rw [← hc₂] at hp₁
          have hinner := h.parens
          refine (ih .conditional left ?_ hp₁ hinner trivial).bind ?_
          · simp only [Symbol.spare, List.length_cons] at hfuel ⊢
            omega
          rintro inner p₃ ⟨d, v, rfl, -, hends, hlooks⟩
          refine (ensures_expect hinner (hlooks trivial) hends).bind ?_
          rintro _ p₄ ⟨v, rfl, hp₄⟩
          refine (ensures_leave p₄).bind ?_
          intro _ p₅ hc₅
          have hy : u ++ [.char '('] ++ d.yield ++ [.char ')'] =
              u ++ (Derivation.parens d).yield := by
            simp [Derivation.yield]
          rw [hy] at hp₄
          change Taken _ _ _ _ p₅.cursor
          rw [hc₅]
          refine ⟨.parens d, v, ?_, hp₄, trivial, False.elim⟩
          simp [Derivation.yield]
      · next hc =>
          refine ⟨u.length, hblame fun d v => ?_⟩
          cases d <;> simp [Derivation.yield, Ne.symm hc]
  | pair pair =>
      refine ⟨u.length, hblame fun d v => ?_⟩
      cases d <;> simp [Derivation.yield]
  | finish =>
      -- The end has been looked at, so that its offset is the size of the source.
      refine ⟨u.length, hp.within.start_eq _ hlooked ▸ hblame fun d v => ?_⟩
      cases d <;> simp [Derivation.yield]

theorem guided (source : List Char) (limit fuel : Nat) (s : Symbol) :
    Guided source limit fuel s := by
  induction fuel generalizing s with
  | zero =>
      intro p u w K left hfuel
      cases s <;> simp only [Symbol.spare] at hfuel <;> omega
  | succ fuel ih =>
      cases s with
      | conditional => exact guided_conditional ih
      | level k => exact guided_level ih
      | chain k => exact guided_chain ih
      | unary => exact guided_unary ih
      | value => exact guided_value ih

theorem ensures_rule (h : p.cursor.Stands source [] w) (hfuel : 16 * w.length + 14 ≤ fuel)
    (limit : Nat) : Ensures (Blamed source) (rule limit fuel) p fun _ _ => True := by
  refine (guided source limit fuel .conditional ⟨.count, 1⟩ (Nat.add_le_add_right hfuel 3) h
    expects_start trivial).bind ?_
  rintro parsed p₁ ⟨d, v, rfl, hp₁, hends, -⟩
  refine (ensures_peek hp₁ (expects_start.viable_append d)).bind ?_
  rintro t p₂ ⟨rfl, hp₂⟩
  split
  · trivial
  · next ht =>
      refine ⟨d.yield.length, hp₂.firstOffending (expects_start.viable_append d) ?_⟩
      refine expects_start.offends_behind d hends ?_
      rintro _ rfl
      exact Ne.symm ht

end Parser

namespace Expr

/-- A syntax error points at the first token that does not fit. What it names starts at the offset
that it tells, the tokens in front of that are the start of a sentence, and with that token they are
not. -/
theorem blamed_of_parseWithin_eq_error {limit : Nat} {source : String} {e : SyntaxError}
    (h : parseWithin limit source = .error e) : Blamed source.toList e := by
  unfold parseWithin at h
  extract_lets cs at h
  have hfuel : 16 * (reading 0 cs).tokens.length + 14 ≤ Parser.bound cs := by
    have hl := length_reading_le 0 cs
    unfold Parser.bound
    omega
  -- A bound that stays open would be unrolled call by call.
  generalize Parser.bound cs = fuel at h hfuel
  have hrule := Parser.ensures_rule (p := .ofSource cs) (Cursor.stands_ofSource cs) hfuel limit
  unfold Parser.Ensures at hrule
  split at h
  · cases h
  · next hp =>
      rw [hp] at hrule
      cases h
      exact hrule

theorem firstOffending_missing_parenthesis :
    parseWithin 100 "n ? (1 2" = .error (.missing ')' (.number 2) 7) ∧
      ∃ k, FirstOffending "n ? (1 2".toList k 7 (.number 2) := by
  have h : parseWithin 100 "n ? (1 2" = .error (.missing ')' (.number 2) 7) := by decide +kernel
  exact ⟨h, blamed_of_parseWithin_eq_error h⟩

end Expr

end MessageCatalog.Plural
