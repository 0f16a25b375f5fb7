import MessageCatalog.Proofs.Plural.Steps
import MessageCatalog.Proofs.Plural.Unambiguity

/-! # A parse finds every derivation

What derives from a symbol and does not go on is taken by the symbol's function as a whole, as long
as both limits are kept and the calls may nest deeply enough. The number of tokens bounds how deep
that is.
-/

namespace MessageCatalog.Plural

namespace Derivation

/-! ## Calls -/

/-- How deep calls nest in a parse that follows the derivation. -/
def calls {s : Symbol} : Derivation s → Nat
  | bare condition => condition.calls + 1
  | choice condition yes no => max condition.calls (max yes.calls no.calls) + 1
  | operands _ first rest => max first.calls rest.calls + 1
  | tightest _ operand => operand.calls + 1
  | stop => 1
  | step _ _ right rest => max right.calls rest.calls + 1
  | prefixed _ operand => operand.calls + 1
  | plain value => value.calls + 1
  | number _ => 1
  | count => 1
  | parens inner => inner.calls + 1

end Derivation

/-- Calls that a symbol has left of the sixteen for its first token. -/
def Symbol.spare : Symbol → Nat
  | conditional => 3
  | level k => 3 + min k 11
  | chain _ => 0
  | unary => 15
  | value => 16

namespace Derivation

theorem calls_add_spare_le {s : Symbol} (d : Derivation s) :
    d.calls + s.spare ≤ 16 * d.yield.length + 1 := by
  induction d <;>
    simp only [calls, yield, Symbol.spare, List.length_append, List.length_cons,
      List.length_nil] at * <;>
    omega

/-! ## First tokens -/

theorem exists_yield_value (d : Derivation .value) :
    ∃ t u, d.yield = t :: u ∧ UnaryOp.ofToken? t = none := by
  cases d with
  | number k => exact ⟨_, _, rfl, rfl⟩
  | count => exact ⟨_, _, rfl, rfl⟩
  | parens inner => exact ⟨_, _, rfl, rfl⟩

end Derivation

namespace Parser

variable {limit : Nat}

def whole (e : Expr) : Parsed :=
  ⟨e, e.depth⟩

theorem node_of_le {p : Parser} {e : Expr} {depth : Nat} (hd : depth = e.depth)
    (he : e.depth ≤ maxTreeDepth) : node e depth p = .ok (whole e) p :=
  node_eq_ok_iff.mpr ⟨hd ▸ he, by rw [hd, whole], rfl⟩

/-- In front of a rest that does not go on, the function for `s` takes what the derivation derives
and builds its tree. -/
def Complete (limit : Nat) {s : Symbol} (d : Derivation s) : Prop :=
  ∀ (left : Expr) {p : Parser} {v : List Token} {n fuel : Nat},
    p.Shows (d.yield ++ v) none n → Ends s v → d.calls ≤ fuel → n + d.nesting ≤ limit →
    (d.treeAfter left).depth ≤ maxTreeDepth →
    ∃ q, read limit fuel (whole left) s p = .ok (whole (d.treeAfter left)) q ∧ q.Shows v none n

theorem complete_bare {condition : Derivation (.level 1)} (ih : Complete limit condition) :
    Complete limit (.bare condition) := by
  intro left p v n fuel hp hv hf hn hm
  obtain ⟨fuel, rfl⟩ := Nat.exists_eq_add_one_of_ne_zero (Nat.ne_zero_of_lt hf)
  obtain ⟨p₁, h₁, hp₁⟩ := ih left hp hv.1 (Nat.le_of_succ_le_succ hf) hn hm
  obtain ⟨p₂, h₂, hp₂⟩ := hp₁.exists_peek (next_none v)
  refine ⟨p₂, ?_, hp₂⟩
  have hq : v.headD .finish ≠ .char '?' := by
    cases v with
    | nil => nofun
    | cons t v => exact fun h => hv.2 (congrArg some h)
  simp only [read] at h₁ ⊢
  rw [conditional, bind_of_ok _ h₁, bind_of_ok _ h₂, if_pos hq]
  rfl

theorem complete_choice {condition : Derivation (.level 1)} {yes no : Derivation .conditional}
    (ihc : Complete limit condition) (ihy : Complete limit yes) (ihn : Complete limit no) :
    Complete limit (.choice condition yes no) := by
  intro left p v n fuel hp hv hf hn hm
  obtain ⟨fuel, rfl⟩ := Nat.exists_eq_add_one_of_ne_zero (Nat.ne_zero_of_lt hf)
  simp only [Derivation.yield, List.append_assoc, List.cons_append] at hp
  simp only [Derivation.calls, Nat.add_le_add_iff_right, Nat.max_le] at hf
  simp only [Derivation.nesting] at hn
  have hlimit : n + 1 ≤ limit := by omega
  have hd : (Derivation.choice condition yes no).treeAfter left =
    .conditional (condition.treeAfter left) (yes.treeAfter left) (no.treeAfter left) := rfl
  have hm' := hm
  simp only [hd, Expr.depth] at hm'
  have hcolon : Ends .conditional (.char ':' :: (no.yield ++ v)) :=
    ends_conditional_cons rfl (by decide) _
  obtain ⟨p₁, h₁, hp₁⟩ :=
    ihc left hp (below_of_ofToken?_eq_none rfl 1 _) hf.1 (by omega) (by omega)
  obtain ⟨p₂, h₂, hp₂⟩ := hp₁.exists_peek rfl
  obtain ⟨p₃, h₃, hp₃⟩ := hp₂.exists_discard
  obtain ⟨p₄, h₄, hp₄⟩ := hp₃.exists_enter hlimit
  obtain ⟨p₅, h₅, hp₅⟩ := ihy left hp₄ hcolon hf.2.1 (by omega) (by omega)
  obtain ⟨p₆, h₆, hp₆⟩ := hp₅.exists_expect
  obtain ⟨p₇, h₇, hp₇⟩ := ihn left hp₆ hv hf.2.2 (by omega) (by omega)
  obtain ⟨p₈, h₈, hp₈⟩ := hp₇.leave
  refine ⟨p₈, ?_, hp₈⟩
  simp only [read] at h₁ h₅ h₇ ⊢
  rw [conditional, bind_of_ok _ h₁, bind_of_ok _ h₂, if_neg (by simp), bind_of_ok _ h₃,
    bind_of_ok _ h₄, bind_of_ok _ h₅, bind_of_ok _ h₆, bind_of_ok _ h₇, bind_of_ok _ h₈]
  exact node_of_le rfl hm

theorem complete_operands {k : Nat} (hk : k ≤ 10) {first : Derivation (.level (k + 1))}
    {rest : Derivation (.chain k)} (ihf : Complete limit first) (ihr : Complete limit rest) :
    Complete limit (.operands hk first rest) := by
  intro left p v n fuel hp hv hf hn hm
  obtain ⟨fuel, rfl⟩ := Nat.exists_eq_add_one_of_ne_zero (Nat.ne_zero_of_lt hf)
  simp only [Derivation.yield, List.append_assoc] at hp
  simp only [Derivation.calls, Nat.add_le_add_iff_right, Nat.max_le] at hf
  simp only [Derivation.nesting] at hn
  have hd := rest.depth_le_treeAfter (first.treeAfter left)
  obtain ⟨p₁, h₁, hp₁⟩ :=
    ihf left hp (rest.below_chain hv) hf.1 (by omega) (Nat.le_trans hd hm)
  obtain ⟨p₂, h₂, hp₂⟩ := ihr (first.treeAfter left) hp₁ hv hf.2 (by omega) hm
  refine ⟨p₂, ?_, hp₂⟩
  simp only [read] at h₁ h₂ ⊢
  rw [level, if_neg (Nat.not_lt.mpr hk), bind_of_ok _ h₁]
  exact h₂

theorem complete_tightest {k : Nat} (hk : 10 < k) {operand : Derivation .unary}
    (ih : Complete limit operand) : Complete limit (.tightest hk operand) := by
  intro left p v n fuel hp hv hf hn hm
  obtain ⟨fuel, rfl⟩ := Nat.exists_eq_add_one_of_ne_zero (Nat.ne_zero_of_lt hf)
  obtain ⟨q, h, hq⟩ := ih left hp trivial (Nat.le_of_succ_le_succ hf) hn hm
  refine ⟨q, ?_, hq⟩
  simp only [read] at h ⊢
  rw [level, if_pos hk]
  exact h

theorem complete_stop {k : Nat} : Complete limit (.stop : Derivation (.chain k)) := by
  intro left p v n fuel hp hv hf hn hm
  obtain ⟨fuel, rfl⟩ := Nat.exists_eq_add_one_of_ne_zero (Nat.ne_zero_of_lt hf)
  obtain ⟨p₁, h₁, hp₁⟩ := hp.exists_peek (next_none v)
  refine ⟨p₁, ?_, hp₁⟩
  simp only [read]
  rw [chain, bind_of_ok _ h₁]
  cases hop : Dyadic.ofToken? (v.headD .finish) with
  | none => rfl
  | some op =>
      have hk : op.precedence ≠ k := by
        cases v with
        | nil => cases hop
        | cons t v =>
            obtain rfl := Dyadic.ofToken?_eq_some_iff.mp hop
            exact Nat.ne_of_lt (hv op v rfl)
      simp only [if_pos hk]
      rfl

theorem complete_step {k : Nat} {op : Dyadic} (hop : op ∈ Dyadic.ofLevel k)
    {right : Derivation (.level (k + 1))} {rest : Derivation (.chain k)}
    (ihr : Complete limit right) (ihc : Complete limit rest) :
    Complete limit (.step op hop right rest) := by
  intro left p v n fuel hp hv hf hn hm
  obtain ⟨fuel, rfl⟩ := Nat.exists_eq_add_one_of_ne_zero (Nat.ne_zero_of_lt hf)
  simp only [Derivation.yield, List.append_assoc, List.cons_append] at hp
  simp only [Derivation.calls, Nat.add_le_add_iff_right, Nat.max_le] at hf
  simp only [Derivation.nesting] at hn
  rw [Derivation.treeAfter_step] at hm ⊢
  -- The tree on the left only grows along the chain, so that it is not too deep here either.
  have hd := Nat.le_trans (rest.depth_le_treeAfter (op.node left (right.treeAfter left))) hm
  have hn' := op.depth_node left (right.treeAfter left)
  obtain ⟨p₁, h₁, hp₁⟩ := hp.exists_peek rfl
  obtain ⟨p₂, h₂, hp₂⟩ := hp₁.exists_discard
  obtain ⟨p₃, h₃, hp₃⟩ := ihr left hp₂ (rest.below_chain hv) hf.1 (by omega) (by omega)
  obtain ⟨p₄, h₄, hp₄⟩ := ihc (op.node left (right.treeAfter left)) hp₃ hv hf.2 (by omega) hm
  refine ⟨p₄, ?_, hp₄⟩
  simp only [read] at h₃ h₄ ⊢
  rw [chain, bind_of_ok _ h₁]
  simp only [op.ofToken?_token]
  rw [if_neg (Decidable.not_not.mpr (Dyadic.mem_ofLevel_iff.mp hop)), bind_of_ok _ h₂, bind_of_ok _ h₃]
  exact (bind_of_ok _ (node_of_le hn'.symm hd)).trans h₄

theorem complete_prefixed {op : UnaryOp} {operand : Derivation .unary}
    (ih : Complete limit operand) : Complete limit (.prefixed op operand) := by
  intro left p v n fuel hp hv hf hn hm
  obtain ⟨fuel, rfl⟩ := Nat.exists_eq_add_one_of_ne_zero (Nat.ne_zero_of_lt hf)
  simp only [Derivation.nesting] at hn
  have hlimit : n + 1 ≤ limit := by omega
  have hd : ((Derivation.prefixed op operand).treeAfter left).depth =
    1 + (operand.treeAfter left).depth := rfl
  obtain ⟨p₁, h₁, hp₁⟩ := hp.exists_peek rfl
  obtain ⟨p₂, h₂, hp₂⟩ := hp₁.exists_discard
  obtain ⟨p₃, h₃, hp₃⟩ := hp₂.exists_enter hlimit
  obtain ⟨p₄, h₄, hp₄⟩ :=
    ih left hp₃ trivial (Nat.le_of_succ_le_succ hf) (by omega) (by omega)
  obtain ⟨p₅, h₅, hp₅⟩ := hp₄.leave
  refine ⟨p₅, ?_, hp₅⟩
  simp only [read] at h₄ ⊢
  rw [unary, bind_of_ok _ h₁]
  simp only [op.ofToken?_token]
  rw [bind_of_ok _ h₂, bind_of_ok _ h₃, bind_of_ok _ h₄, bind_of_ok _ h₅]
  exact node_of_le (Nat.add_comm _ _) hm

theorem complete_plain {value : Derivation .value} (ih : Complete limit value) :
    Complete limit (.plain value) := by
  intro left p v n fuel hp hv hf hn hm
  obtain ⟨fuel, rfl⟩ := Nat.exists_eq_add_one_of_ne_zero (Nat.ne_zero_of_lt hf)
  obtain ⟨t, u, hy, ht⟩ := value.exists_yield_value
  have hnext : next (value.yield ++ v) none = .ok t := by rw [hy]; rfl
  obtain ⟨p₁, h₁, hp₁⟩ := hp.exists_peek hnext
  obtain ⟨p₂, h₂, hp₂⟩ := ih left hp₁ trivial (Nat.le_of_succ_le_succ hf) hn hm
  refine ⟨p₂, ?_, hp₂⟩
  simp only [read] at h₂ ⊢
  rw [unary, bind_of_ok _ h₁]
  simp only [ht]
  exact h₂

theorem complete_number {k : Int32} : Complete limit (.number k) := by
  intro left p v n fuel hp hv hf hn hm
  obtain ⟨fuel, rfl⟩ := Nat.exists_eq_add_one_of_ne_zero (Nat.ne_zero_of_lt hf)
  obtain ⟨q, h, hq⟩ := hp.exists_advance
  refine ⟨q, ?_, hq⟩
  simp only [read]
  rw [value, bind_of_ok _ (offset_eq p), bind_of_ok _ h]
  rfl

theorem complete_count : Complete limit .count := by
  intro left p v n fuel hp hv hf hn hm
  obtain ⟨fuel, rfl⟩ := Nat.exists_eq_add_one_of_ne_zero (Nat.ne_zero_of_lt hf)
  obtain ⟨q, h, hq⟩ := hp.exists_advance
  refine ⟨q, ?_, hq⟩
  simp only [read]
  rw [value, bind_of_ok _ (offset_eq p), bind_of_ok _ h]
  rfl

theorem complete_parens {inner : Derivation .conditional} (ih : Complete limit inner) :
    Complete limit (.parens inner) := by
  intro left p v n fuel hp hv hf hn hm
  obtain ⟨fuel, rfl⟩ := Nat.exists_eq_add_one_of_ne_zero (Nat.ne_zero_of_lt hf)
  simp only [Derivation.yield, List.append_assoc, List.cons_append] at hp
  simp only [Derivation.nesting] at hn
  have hlimit : n + 1 ≤ limit := by omega
  have hclose : Ends .conditional (.char ')' :: v) := ends_conditional_cons rfl (by decide) _
  obtain ⟨p₁, h₁, hp₁⟩ := hp.exists_advance
  obtain ⟨p₂, h₂, hp₂⟩ := hp₁.exists_enter hlimit
  obtain ⟨p₃, h₃, hp₃⟩ := ih left hp₂ hclose (Nat.le_of_succ_le_succ hf) (by omega) hm
  obtain ⟨p₄, h₄, hp₄⟩ := hp₃.exists_expect
  obtain ⟨p₅, h₅, hp₅⟩ := hp₄.leave
  refine ⟨p₅, ?_, hp₅⟩
  simp only [read] at h₃ ⊢
  rw [value, bind_of_ok _ (offset_eq p), bind_of_ok _ h₁]
  simp only [if_true]
  rw [bind_of_ok _ h₂, bind_of_ok _ h₃, bind_of_ok _ h₄, bind_of_ok _ h₅]
  rfl

theorem complete (limit : Nat) {s : Symbol} (d : Derivation s) : Complete limit d := by
  induction d with
  | bare condition ih => exact complete_bare ih
  | choice condition yes no ihc ihy ihn => exact complete_choice ihc ihy ihn
  | operands hk first rest ihf ihr => exact complete_operands hk ihf ihr
  | tightest hk operand ih => exact complete_tightest hk ih
  | stop => exact complete_stop
  | step op hop right rest ihr ihc => exact complete_step hop ihr ihc
  | prefixed op operand ih => exact complete_prefixed ih
  | plain value ih => exact complete_plain ih
  | number k => exact complete_number
  | count => exact complete_count
  | parens inner ih => exact complete_parens ih

end Parser

end MessageCatalog.Plural
