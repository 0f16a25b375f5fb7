import MessageCatalog.Proofs.Plural.Grammar

/-! # Derivations are unique

Two derivations of one symbol that stand in front of rests that do not go on with the symbol are the
same as soon as their texts are. What does not go on with a symbol starts with no operator that
binds tightly enough, and behind a conditional with no question mark either.
-/

namespace MessageCatalog.Plural

/-! ## Where a symbol ends -/

/-- An operator that `v` starts with binds looser than level `k`. -/
def Below (k : Nat) (v : List Token) : Prop :=
  ∀ op v', v = Dyadic.token op :: v' → op.precedence < k

theorem below_nil (k : Nat) : Below k [] :=
  nofun

theorem below_of_ofToken?_eq_none {t : Token} (h : Dyadic.ofToken? t = none) (k : Nat)
    (v : List Token) : Below k (t :: v) := by
  intro op v' hv
  rw [(List.cons.inj hv).1, op.ofToken?_token] at h
  cases h

theorem Below.mono {j k : Nat} {v : List Token} (h : Below j v) (hjk : j ≤ k) : Below k v :=
  fun op v' hv => Nat.lt_of_lt_of_le (h op v' hv) hjk

/-- An operator of level `k` ends the operand in front of it, but not the chain that it belongs to. -/
theorem below_cons_token_iff {j k : Nat} {op : Dyadic} (hop : op ∈ Dyadic.ofLevel k)
    (v : List Token) : Below j (op.token :: v) ↔ k < j := by
  rw [← Dyadic.mem_ofLevel_iff.mp hop]
  constructor
  · intro h
    exact h op v rfl
  · intro h op' v' hv
    rwa [← Dyadic.token_injective (List.cons.inj hv).1]

/-- No text of `s` goes on into `v`. -/
def Ends : Symbol → List Token → Prop
  | .conditional, v => Below 1 v ∧ v.head? ≠ some (.char '?')
  | .level k, v => Below k v
  | .chain k, v => Below k v
  | .unary, _ => True
  | .value, _ => True

theorem ends_conditional_cons {c : Char} (h : Dyadic.ofToken? (.char c) = none) (hc : c ≠ '?')
    (v : List Token) : Ends .conditional (.char c :: v) :=
  ⟨below_of_ofToken?_eq_none h 1 v, by simpa using hc⟩

theorem ends_nil : Ends .conditional [] :=
  ⟨below_nil 1, nofun⟩

namespace Derivation

/-- An operand of a chain ends where the chain goes on. -/
theorem below_chain {k : Nat} (rest : Derivation (.chain k)) {v : List Token} (h : Below k v) :
    Below (k + 1) (rest.yield ++ v) := by
  cases rest with
  | stop => exact h.mono (Nat.le_succ k)
  | step op hop right rest => exact (below_cons_token_iff hop _).mpr (Nat.lt_succ_self k)

/-! ## Uniqueness -/

theorem unaryToken_ne_value (op : UnaryOp) (value : Derivation .value) (u v : List Token) :
    op.token :: u ≠ value.yield ++ v := by
  intro h
  cases value <;> cases op <;> cases h

theorem unique_of_append {s : Symbol} (d d' : Derivation s) {v v' : List Token}
    (h : d.yield ++ v = d'.yield ++ v') (hv : Ends s v) (hv' : Ends s v') : d = d' ∧ v = v' := by
  induction d generalizing v v' with
  | bare condition ih =>
      cases d' with
      | bare condition' =>
          obtain ⟨rfl, rfl⟩ := ih condition' h hv.1 hv'.1
          exact ⟨rfl, rfl⟩
      | choice condition' yes' no' =>
          -- The two conditions are the same, so that `v` starts with the question mark.
          simp only [yield, List.append_assoc, List.cons_append] at h
          obtain ⟨-, rfl⟩ := ih condition' h hv.1 (below_of_ofToken?_eq_none rfl 1 _)
          exact absurd rfl hv.2
  | choice condition yes no ihc ihy ihn =>
      cases d' with
      | bare condition' =>
          simp only [yield, List.append_assoc, List.cons_append] at h
          obtain ⟨-, rfl⟩ := ihc condition' h (below_of_ofToken?_eq_none rfl 1 _) hv'.1
          exact absurd rfl hv'.2
      | choice condition' yes' no' =>
          simp only [yield, List.append_assoc, List.cons_append] at h
          obtain ⟨rfl, hy⟩ := ihc condition' h (below_of_ofToken?_eq_none rfl 1 _)
            (below_of_ofToken?_eq_none rfl 1 _)
          obtain ⟨rfl, hn⟩ := ihy yes' (List.cons.inj hy).2
            (ends_conditional_cons rfl (by decide) _) (ends_conditional_cons rfl (by decide) _)
          obtain ⟨rfl, rfl⟩ := ihn no' (List.cons.inj hn).2 hv hv'
          exact ⟨rfl, rfl⟩
  | operands hk first rest ihf ihr =>
      cases d' with
      | operands hk' first' rest' =>
          simp only [yield, List.append_assoc] at h
          obtain ⟨rfl, hr⟩ := ihf first' h (rest.below_chain hv) (rest'.below_chain hv')
          obtain ⟨rfl, rfl⟩ := ihr rest' hr hv hv'
          exact ⟨rfl, rfl⟩
      | tightest hk' operand' => omega
  | tightest hk operand ih =>
      cases d' with
      | operands hk' first' rest' => omega
      | tightest hk' operand' =>
          obtain ⟨rfl, rfl⟩ := ih operand' h trivial trivial
          exact ⟨rfl, rfl⟩
  | stop =>
      cases d' with
      | stop => exact ⟨rfl, h⟩
      -- Here `v` would start with an operator of level `k`.
      | step op hop right' rest' =>
          obtain rfl : v = op.token :: _ := h
          exact absurd ((below_cons_token_iff hop _).mp hv) (Nat.lt_irrefl _)
  | step op hop right rest ihr ihc =>
      cases d' with
      | stop =>
          obtain rfl : op.token :: _ = v' := h
          exact absurd ((below_cons_token_iff hop _).mp hv') (Nat.lt_irrefl _)
      | step op' hop' right' rest' =>
          simp only [yield, List.append_assoc, List.cons_append] at h
          obtain rfl := Dyadic.token_injective (List.cons.inj h).1
          obtain ⟨rfl, hr⟩ := ihr right' (List.cons.inj h).2 (rest.below_chain hv)
            (rest'.below_chain hv')
          obtain ⟨rfl, rfl⟩ := ihc rest' hr hv hv'
          exact ⟨rfl, rfl⟩
  | prefixed op operand ih =>
      cases d' with
      | prefixed op' operand' =>
          obtain rfl := UnaryOp.token_injective (List.cons.inj h).1
          obtain ⟨rfl, rfl⟩ := ih operand' (List.cons.inj h).2 trivial trivial
          exact ⟨rfl, rfl⟩
      | plain value' => exact absurd h (unaryToken_ne_value op value' _ v')
  | plain value ih =>
      cases d' with
      | prefixed op' operand' => exact absurd h.symm (unaryToken_ne_value op' value _ v)
      | plain value' =>
          obtain ⟨rfl, rfl⟩ := ih value' h trivial trivial
          exact ⟨rfl, rfl⟩
  | number k =>
      cases d' with
      | number k' =>
          obtain rfl := Token.number.inj (List.cons.inj h).1
          exact ⟨rfl, (List.cons.inj h).2⟩
      | count => cases h
      | parens inner' => cases h
  | count =>
      cases d' with
      | number k' => cases h
      | count => exact ⟨rfl, (List.cons.inj h).2⟩
      | parens inner' => cases h
  | parens inner ih =>
      cases d' with
      | number k' => cases h
      | count => cases h
      | parens inner' =>
          simp only [yield, List.append_assoc, List.cons_append] at h
          obtain ⟨rfl, hi⟩ := ih inner' (List.cons.inj h).2
            (ends_conditional_cons rfl (by decide) _) (ends_conditional_cons rfl (by decide) _)
          exact ⟨rfl, (List.cons.inj hi).2⟩

/-- A text has at most one derivation. -/
theorem eq_of_yield_eq {d d' : Derivation .conditional} (h : d.yield = d'.yield) : d = d' :=
  (unique_of_append d d' (congrArg (· ++ []) h) ends_nil ends_nil).1

end Derivation

end MessageCatalog.Plural
