import MessageCatalog.Proofs.Plural.Chains
import MessageCatalog.Proofs.Plural.Completeness

/-! # Starts of sentences

A reader that goes from left to right knows a text `u` and nothing of what follows. Whether `u` can go
on to a sentence, and with which token, depends on the symbol that is expected behind `u` and on the
texts that may stand behind that symbol. Both are kept up through every production.
-/

namespace MessageCatalog.Plural

variable {k : Nat} {s s' : Symbol} {t : Token} {c : Char} {u v w : List Token}

/-- A text of the grammar. -/
def Sentence (w : List Token) : Prop :=
  ∃ d : Derivation .conditional, d.yield = w

/-- Numbers are written without a sign. -/
def Written (w : List Token) : Prop :=
  ∀ k, .number k ∈ w → 0 ≤ k

/-- Some sentence starts with `u` and goes on with what can be written. -/
def Viable (u : List Token) : Prop :=
  ∃ v, Sentence (u ++ v) ∧ Written v

/-- No sentence, with its end for a last token, starts with `u` and then `t`. -/
def Offends (u : List Token) (t : Token) : Prop :=
  ∀ w, Sentence w → ¬ u ++ [t] <+: w ++ [.finish]

theorem written_append : Written (u ++ v) ↔ Written u ∧ Written v := by
  simp only [Written, List.mem_append, or_imp, forall_and]

theorem written_cons_char : Written (.char c :: v) ↔ Written v := by
  simp [Written]

theorem Viable.of_append (h : Viable (u ++ v)) (hv : Written v) : Viable u := by
  obtain ⟨w, hw, hwritten⟩ := h
  exact ⟨v ++ w, by rwa [← List.append_assoc], written_append.mpr ⟨hv, hwritten⟩⟩

/-- It is enough to look at how sentences go on behind `u`. -/
theorem offends_of_headD (h : ∀ v, Sentence (u ++ v) → v.headD .finish ≠ t) : Offends u t := by
  rintro w hw ⟨r, hr⟩
  rw [List.append_assoc, List.singleton_append] at hr
  rcases List.append_eq_append_iff.mp hr with ⟨v, rfl, hv⟩ | ⟨v, rfl, hv⟩
  · refine h v hw ?_
    cases v <;> exact (List.cons.inj hv).1.symm
  · -- The end is one token, so that `u` is all of the sentence.
    cases v with
    | nil =>
        refine h [] (by simpa using hw) ?_
        exact (List.cons.inj hv).1
    | cons t' v => simp at hv

/-! ## What the next token tells -/

theorem headD_eq_iff (ht : t ≠ .finish) : v.headD .finish = t ↔ ∃ v', v = t :: v' := by
  cases v with
  | nil => simp [ht.symm]
  | cons t' v => simp

theorem headD_eq_char_iff : v.headD .finish = .char c ↔ ∃ v', v = .char c :: v' :=
  headD_eq_iff nofun

theorem Below.of_headD (h : Below k v) (hw : w.headD .finish = v.headD .finish) : Below k w := by
  rintro op w' rfl
  obtain ⟨v', rfl⟩ := (headD_eq_iff op.token_ne_finish).mp hw.symm
  exact h op v' rfl

/-- Where only operators of level `k` and looser ones may follow, none of level `k` may not. -/
theorem Below.of_succ (h : Below (k + 1) v)
    (hne : ∀ op, Dyadic.ofToken? (v.headD .finish) = some op → op.precedence ≠ k) : Below k v := by
  rintro op v' rfl
  exact Nat.lt_of_le_of_ne (Nat.le_of_lt_succ (h op v' rfl)) (hne op op.ofToken?_token)

/-- Whether a symbol ends is seen at the next token. -/
theorem Ends.of_headD (h : Ends s v) (hw : w.headD .finish = v.headD .finish) : Ends s w := by
  cases s with
  | conditional =>
      refine ⟨h.1.of_headD hw, ?_⟩
      intro hq
      obtain ⟨w', rfl⟩ := List.head?_eq_some_iff.mp hq
      obtain ⟨v', rfl⟩ := headD_eq_char_iff.mp hw.symm
      exact h.2 rfl
  | level k => exact Below.of_headD h hw
  | chain k => exact Below.of_headD h hw
  | unary => trivial
  | value => trivial

/-- What a text looks like that is read as `s`. A chain is read where its first operand has ended, and
a value where no unary operator stands. -/
def Opens : Symbol → List Token → Prop
  | .chain k, v => Below (k + 1) v
  | .value, v => ∀ op, v.headD .finish ≠ UnaryOp.token op
  | _, _ => True

theorem Derivation.opens (d : Derivation s) (h : Ends s v) : Opens s (d.yield ++ v) := by
  cases s with
  | chain k => exact d.below_chain h
  | value =>
      obtain ⟨t, u, hy, ht⟩ := d.exists_yield_value
      intro op hop
      rw [hy, List.cons_append, List.headD_cons] at hop
      rw [UnaryOp.ofToken?_eq_some_iff.mpr hop] at ht
      cases ht
  | conditional => trivial
  | level k => trivial
  | unary => trivial

/-- Every symbol derives a text without numbers. -/
theorem exists_written_yield (s : Symbol) : ∃ d : Derivation s, Written d.yield := by
  have hcount : Written [.count] := fun k hk => nomatch hk
  cases s with
  | conditional =>
      obtain ⟨d, hy, -⟩ := Derivation.exists_of_links (.plain .count) []
      exact ⟨d, hy ▸ hcount⟩
  | level k =>
      by_cases hk : 10 < k
      · exact ⟨.tightest hk (.plain .count), hcount⟩
      · obtain ⟨d, hy, -⟩ := Derivation.exists_level (k := k) (by omega) (.plain .count) [] nofun
        exact ⟨d, hy ▸ hcount⟩
  | chain k => exact ⟨.stop, fun _ => nofun⟩
  | unary => exact ⟨.plain .count, hcount⟩
  | value => exact ⟨.count, hcount⟩

/-! ## Texts that may stand behind -/

abbrev Rests := List Token → Prop

/-- A text of `s` and then one of `K`. -/
def Rests.derive (s : Symbol) (K : Rests) : Rests :=
  fun v => ∃ (d : Derivation s) (v' : List Token), v = d.yield ++ v' ∧ K v'

/-- The character `c` and then one of `K`. -/
def Rests.token (c : Char) (K : Rests) : Rests :=
  fun v => ∃ v', v = .char c :: v' ∧ K v'

/-- What may stand behind the condition of a conditional, or behind what turns out to be none. -/
def Rests.branches (K : Rests) : Rests :=
  fun v => K v ∨ Rests.token '?' (.derive .conditional (.token ':' (.derive .conditional K))) v

/-- Behind `u` sentences go on with a text of `s` and then with one of `K`. -/
structure Expects (u : List Token) (s : Symbol) (K : Rests) : Prop where
  exists_rest : ∃ v, K v ∧ Written v
  ends : ∀ v, K v → Ends s v
  sentence_iff : ∀ v, Opens s v → (Sentence (u ++ v) ↔ K.derive s v)

variable {K : Rests}

theorem expects_start : Expects [] .conditional (· = []) where
  exists_rest := ⟨[], rfl, fun _ => nofun⟩
  ends := by
    rintro v rfl
    exact ends_nil
  sentence_iff v _ := by
    constructor
    · rintro ⟨d, rfl⟩
      exact ⟨d, [], (List.append_nil _).symm, rfl⟩
    · rintro ⟨d, v', rfl, rfl⟩
      exact ⟨d, (List.append_nil _).symm⟩

namespace Expects

/-- Where the symbol has ended, one of the texts behind it is left. -/
theorem sentence_iff_rest (h : Expects u s K) (d : Derivation s) (hv : Ends s v) :
    Sentence (u ++ d.yield ++ v) ↔ K v := by
  rw [List.append_assoc, h.sentence_iff _ (d.opens hv)]
  constructor
  · rintro ⟨d', v', heq, hk⟩
    obtain ⟨-, rfl⟩ := d.unique_of_append d' heq hv (h.ends v' hk)
    exact hk
  · exact fun hk => ⟨d, v, rfl, hk⟩

theorem viable_append (h : Expects u s K) (d : Derivation s) : Viable (u ++ d.yield) := by
  obtain ⟨v, hv, hwritten⟩ := h.exists_rest
  exact ⟨v, (h.sentence_iff_rest d (h.ends v hv)).mpr hv, hwritten⟩

theorem viable (h : Expects u s K) : Viable u := by
  obtain ⟨d, hd⟩ := exists_written_yield s
  exact (h.viable_append d).of_append hd

/-! ### One production further -/

theorem condition (h : Expects u .conditional K) : Expects u (.level 1) K.branches where
  exists_rest := by
    obtain ⟨v, hv, hwritten⟩ := h.exists_rest
    exact ⟨v, .inl hv, hwritten⟩
  ends := by
    rintro v (hv | ⟨v', rfl, -⟩)
    · exact (h.ends v hv).1
    · exact below_of_ofToken?_eq_none rfl 1 _
  sentence_iff v _ := by
    rw [h.sentence_iff v trivial]
    constructor
    · rintro ⟨d, v', rfl, hk⟩
      cases d with
      | bare condition => exact ⟨condition, v', rfl, .inl hk⟩
      | choice condition yes no =>
          refine ⟨condition, _, ?_, .inr ⟨_, rfl, yes, _, rfl, _, rfl, no, v', rfl, hk⟩⟩
          simp [Derivation.yield]
    · rintro ⟨d, v', rfl, hk | ⟨_, rfl, yes, _, rfl, _, rfl, no, v, rfl, hk⟩⟩
      · exact ⟨.bare d, v', rfl, hk⟩
      · refine ⟨.choice d yes no, v, ?_, hk⟩
        simp [Derivation.yield]

/-- Behind a question mark the branches follow. -/
theorem yes (h : Expects u .conditional K) (d : Derivation (.level 1)) :
    Expects (u ++ d.yield ++ [.char '?']) .conditional (.token ':' (.derive .conditional K)) where
  exists_rest := by
    obtain ⟨v, hv, hwritten⟩ := h.exists_rest
    obtain ⟨no, hno⟩ := exists_written_yield .conditional
    refine ⟨.char ':' :: (no.yield ++ v), ⟨_, rfl, no, v, rfl, hv⟩, ?_⟩
    exact written_cons_char.mpr (written_append.mpr ⟨hno, hwritten⟩)
  ends := by
    rintro v ⟨v', rfl, -⟩
    exact ends_conditional_cons rfl (by decide) v'
  sentence_iff v _ := by
    rw [List.append_assoc, List.singleton_append,
      h.condition.sentence_iff_rest d (below_of_ofToken?_eq_none rfl 1 v)]
    constructor
    · rintro (hk | ⟨v', heq, hv'⟩)
      · exact absurd rfl (h.ends _ hk).2
      · rwa [(List.cons.inj heq).2]
    · exact fun hv => .inr ⟨v, rfl, hv⟩

/-- A character that must stand behind a symbol is followed by what it stands in front of. -/
theorem behind_token (h : Expects u s (.token c (.derive s' K))) (hK : ∀ v, K v → Ends s' v)
    (d : Derivation s) : Expects (u ++ d.yield ++ [.char c]) s' K where
  exists_rest := by
    obtain ⟨_, ⟨_, rfl, d', v, rfl, hv⟩, hwritten⟩ := h.exists_rest
    exact ⟨v, hv, (written_append.mp (written_cons_char.mp hwritten)).2⟩
  ends := hK
  sentence_iff v _ := by
    obtain ⟨_, hc, -⟩ := h.exists_rest
    obtain ⟨_, rfl, -⟩ := id hc
    have hv : Ends s (.char c :: v) := (h.ends _ hc).of_headD rfl
    rw [List.append_assoc, List.singleton_append, h.sentence_iff_rest d hv]
    constructor
    · rintro ⟨v', heq, hv'⟩
      rwa [(List.cons.inj heq).2]
    · exact fun hv => ⟨v, rfl, hv⟩

theorem operand (h : Expects u (.level k) K) (hk : k ≤ 10) :
    Expects u (.level (k + 1)) (K.derive (.chain k)) where
  exists_rest := by
    obtain ⟨v, hv, hwritten⟩ := h.exists_rest
    exact ⟨v, ⟨.stop, v, rfl, hv⟩, hwritten⟩
  ends := by
    rintro v ⟨c, v', rfl, hv⟩
    exact c.below_chain (h.ends v' hv)
  sentence_iff v _ := by
    rw [h.sentence_iff v trivial]
    constructor
    · rintro ⟨d, v', rfl, hv⟩
      cases d with
      | operands hk first rest => exact ⟨first, _, List.append_assoc _ _ _, rest, v', rfl, hv⟩
      | tightest hk' operand => omega
    · rintro ⟨first, _, rfl, rest, v', rfl, hv⟩
      exact ⟨.operands hk first rest, v', (List.append_assoc _ _ _).symm, hv⟩

theorem tightest (h : Expects u (.level k) K) (hk : 10 < k) : Expects u .unary K where
  exists_rest := h.exists_rest
  ends := fun _ _ => trivial
  sentence_iff v _ := by
    rw [h.sentence_iff v trivial]
    constructor
    · rintro ⟨d, v', rfl, hv⟩
      cases d with
      | operands hk' first rest => omega
      | tightest hk operand => exact ⟨operand, v', rfl, hv⟩
    · rintro ⟨operand, v', rfl, hv⟩
      exact ⟨.tightest hk operand, v', rfl, hv⟩

/-- Behind an operand its chain goes on. -/
theorem chain (h : Expects u (.level (k + 1)) (K.derive (.chain k))) (hK : ∀ v, K v → Below k v)
    (d : Derivation (.level (k + 1))) : Expects (u ++ d.yield) (.chain k) K where
  exists_rest := by
    obtain ⟨_, ⟨c, v, rfl, hv⟩, hwritten⟩ := h.exists_rest
    exact ⟨v, hv, (written_append.mp hwritten).2⟩
  ends := hK
  sentence_iff _ hv := h.sentence_iff_rest d hv

theorem step {op : Dyadic} (h : Expects u (.chain k) K) (hop : op ∈ Dyadic.ofLevel k) :
    Expects (u ++ [op.token]) (.level (k + 1)) (K.derive (.chain k)) where
  exists_rest := by
    obtain ⟨v, hv, hwritten⟩ := h.exists_rest
    exact ⟨v, ⟨.stop, v, rfl, hv⟩, hwritten⟩
  ends := by
    rintro v ⟨c, v', rfl, hv⟩
    exact c.below_chain (h.ends v' hv)
  sentence_iff v _ := by
    have hbelow : Below (k + 1) (op.token :: v) :=
      (below_cons_token_iff hop v).mpr (Nat.lt_succ_self k)
    rw [List.append_assoc, List.singleton_append, h.sentence_iff _ hbelow]
    constructor
    · rintro ⟨c, v', heq, hv'⟩
      cases c with
      | stop =>
          -- A rest would start with an operator of level `k`.
          obtain rfl : op.token :: v = v' := heq
          exact absurd ((below_cons_token_iff hop v).mp (h.ends _ hv')) (Nat.lt_irrefl _)
      | step op' hop' right rest =>
          simp only [Derivation.yield, List.cons_append, List.append_assoc] at heq
          exact ⟨right, _, (List.cons.inj heq).2, rest, v', rfl, hv'⟩
    · rintro ⟨right, _, rfl, rest, v', rfl, hv'⟩
      refine ⟨.step op hop right rest, v', ?_, hv'⟩
      simp [Derivation.yield]

theorem prefixed (h : Expects u .unary K) (op : UnaryOp) :
    Expects (u ++ [op.token]) .unary K where
  exists_rest := h.exists_rest
  ends := h.ends
  sentence_iff v _ := by
    rw [List.append_assoc, List.singleton_append, h.sentence_iff _ trivial]
    constructor
    · rintro ⟨d, v', heq, hv'⟩
      cases d with
      | prefixed op' operand => exact ⟨operand, v', (List.cons.inj heq).2, hv'⟩
      | plain value => exact absurd heq (Derivation.unaryToken_ne_value op value v v')
    · rintro ⟨operand, v', rfl, hv'⟩
      exact ⟨.prefixed op operand, v', rfl, hv'⟩

theorem plain (h : Expects u .unary K) : Expects u .value K where
  exists_rest := h.exists_rest
  ends := fun _ _ => trivial
  sentence_iff v hv := by
    rw [h.sentence_iff v trivial]
    constructor
    · rintro ⟨d, v', rfl, hv'⟩
      cases d with
      | prefixed op operand => exact absurd rfl (hv op)
      | plain value => exact ⟨value, v', rfl, hv'⟩
    · rintro ⟨value, v', rfl, hv'⟩
      exact ⟨.plain value, v', rfl, hv'⟩

theorem parens (h : Expects u .value K) :
    Expects (u ++ [.char '(']) .conditional (.token ')' K) where
  exists_rest := by
    obtain ⟨v, hv, hwritten⟩ := h.exists_rest
    exact ⟨_, ⟨v, rfl, hv⟩, written_cons_char.mpr hwritten⟩
  ends := by
    rintro v ⟨v', rfl, -⟩
    exact ends_conditional_cons rfl (by decide) v'
  sentence_iff v _ := by
    have hopens : Opens .value (.char '(' :: v) := fun op => by cases op <;> simp [UnaryOp.token]
    rw [List.append_assoc, List.singleton_append, h.sentence_iff _ hopens]
    constructor
    · rintro ⟨d, v', heq, hv'⟩
      cases d with
      | parens inner =>
          simp only [Derivation.yield, List.cons_append, List.append_assoc] at heq
          exact ⟨inner, _, (List.cons.inj heq).2, v', rfl, hv'⟩
      | number _ => cases heq
      | count => cases heq
    · rintro ⟨inner, _, rfl, v', rfl, hv'⟩
      refine ⟨.parens inner, v', ?_, hv'⟩
      simp [Derivation.yield]

/-! ### Tokens that do not fit -/

/-- Where a symbol has ended, only a token fits that starts one of the texts behind it. -/
theorem offends_behind (h : Expects u s K) (d : Derivation s) (hv : Ends s v)
    (hK : ∀ w, K w → w.headD .finish ≠ v.headD .finish) :
    Offends (u ++ d.yield) (v.headD .finish) := by
  apply offends_of_headD
  intro w hw heq
  exact hK w ((h.sentence_iff_rest d (hv.of_headD heq)).mp hw) heq

/-- Where a value is expected, nothing fits that no value starts with. -/
theorem offends_value (h : Expects u .value K) (hopens : Opens .value v)
    (hnone : ∀ (d : Derivation .value) (w : List Token),
      (d.yield ++ w).headD .finish ≠ v.headD .finish) : Offends u (v.headD .finish) := by
  apply offends_of_headD
  intro w hw heq
  have hopens' : Opens .value w := fun op => heq ▸ hopens op
  obtain ⟨d, w', rfl, -⟩ := (h.sentence_iff w hopens').mp hw
  exact hnone d w' heq

end Expects

end MessageCatalog.Plural
