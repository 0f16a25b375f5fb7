import MessageCatalog.Proofs.Plural.Steps

/-! # A parse follows the grammar

Where the function for a symbol gives a tree, the tokens that it has taken derive from the symbol,
the tree is the one of the derivation, and both limits are kept.
-/

namespace MessageCatalog.Plural

namespace Parser

variable {limit fuel k : Nat}

/-- The levels that are open at the start are open again at the end. -/
def Sound (limit fuel : Nat) (s : Symbol) : Prop :=
  ∀ {p q : Parser} {w : List Token} {fault : Option NumberTooLarge} {n : Nat} {left r : Parsed},
    p.Shows w fault n → n ≤ limit → Fits left → read limit fuel left s p = .ok r q →
    ∃ (d : Derivation s) (v : List Token), w = d.yield ++ v ∧ q.Shows v fault n ∧
      n + d.nesting ≤ limit ∧ r.expr = d.treeAfter left.expr ∧ Fits r

theorem sound_conditional (ih : ∀ s, Sound limit fuel s) : Sound limit (fuel + 1) .conditional := by
  intro p q w fault n left r hp hn hl hr
  simp only [read] at hr
  rw [conditional] at hr
  obtain ⟨condition, p₁, hc, hr⟩ := bind_eq_ok_iff.mp hr
  obtain ⟨d, v, rfl, hp₁, hdn, hde, hdf⟩ := ih (.level 1) hp hn hl hc
  obtain ⟨t, p₂, ht, hr⟩ := bind_eq_ok_iff.mp hr
  obtain ⟨hv, hp₂⟩ := hp₁.of_peek ht
  split at hr
  · obtain ⟨rfl, rfl⟩ := pure_eq_ok_iff.mp hr
    exact ⟨.bare d, v, rfl, hp₂, hdn, hde, hdf⟩
  · next hq =>
      obtain rfl := Decidable.not_not.mp hq
      obtain ⟨v, rfl⟩ := exists_of_next_eq_ok hv nofun
      obtain ⟨_, p₃, ha, hr⟩ := bind_eq_ok_iff.mp hr
      obtain ⟨_, p₄, he, hr⟩ := bind_eq_ok_iff.mp hr
      obtain ⟨hn', hp₄⟩ := (hp₂.of_discard ha).of_enter he
      obtain ⟨yes, p₅, hy, hr⟩ := bind_eq_ok_iff.mp hr
      obtain ⟨dy, v, rfl, hp₅, hyn, hye, hyf⟩ := ih .conditional hp₄ hn' hl hy
      obtain ⟨_, p₆, hx, hr⟩ := bind_eq_ok_iff.mp hr
      obtain ⟨v, rfl, hp₆⟩ := hp₅.of_expect hx
      obtain ⟨no, p₇, hno, hr⟩ := bind_eq_ok_iff.mp hr
      obtain ⟨dn, v, rfl, hp₇, hnn, hne, hnf⟩ := ih .conditional hp₆ hn' hl hno
      obtain ⟨_, p₈, hlv, hr⟩ := bind_eq_ok_iff.mp hr
      obtain ⟨rfl, hre, hrf⟩ := of_node
        (by simp only [Expr.depth, hdf.depth_eq, hyf.depth_eq, hnf.depth_eq]) hr
      refine ⟨.choice d dy dn, v, ?_, hp₇.of_leave hlv, ?_, ?_, hrf⟩
      · simp [Derivation.yield]
      · simp only [Derivation.nesting]
        omega
      · rw [hre, hde, hye, hne]
        rfl

theorem sound_level (ih : ∀ s, Sound limit fuel s) : Sound limit (fuel + 1) (.level k) := by
  intro p q w fault n left r hp hn hl hr
  simp only [read] at hr
  rw [level] at hr
  split at hr
  · next hk =>
      obtain ⟨d, v, rfl, hp₁, hdn, hde, hdf⟩ := ih .unary hp hn hl hr
      exact ⟨.tightest hk d, v, rfl, hp₁, hdn, hde, hdf⟩
  · next hk =>
      obtain ⟨first, p₁, hf, hr⟩ := bind_eq_ok_iff.mp hr
      obtain ⟨d, v, rfl, hp₁, hdn, hde, hdf⟩ := ih (.level (k + 1)) hp hn hl hf
      obtain ⟨c, v, rfl, hp₂, hcn, hce, hcf⟩ := ih (.chain k) hp₁ hn hdf hr
      refine ⟨.operands (Nat.le_of_not_lt hk) d c, v, ?_, hp₂, ?_, ?_, hcf⟩
      · simp [Derivation.yield]
      · simp only [Derivation.nesting]
        omega
      · rw [hce, hde]
        rfl

theorem sound_chain (ih : ∀ s, Sound limit fuel s) : Sound limit (fuel + 1) (.chain k) := by
  intro p q w fault n left r hp hn hl hr
  simp only [read] at hr
  rw [chain] at hr
  obtain ⟨t, p₁, ht, hr⟩ := bind_eq_ok_iff.mp hr
  obtain ⟨hw, hp₁⟩ := hp.of_peek ht
  cases hop : Dyadic.ofToken? t with
  | none =>
      rw [hop] at hr
      obtain ⟨rfl, rfl⟩ := pure_eq_ok_iff.mp hr
      exact ⟨.stop, w, rfl, hp₁, hn, rfl, hl⟩
  | some op =>
      simp only [hop] at hr
      split at hr
      · -- An operator of another level is left to the levels around this one.
        obtain ⟨rfl, rfl⟩ := pure_eq_ok_iff.mp hr
        exact ⟨.stop, w, rfl, hp₁, hn, rfl, hl⟩
      · next hk =>
          have hmem := Dyadic.mem_ofLevel_iff.mpr (Decidable.not_not.mp hk)
          obtain rfl := Dyadic.ofToken?_eq_some_iff.mp hop
          obtain ⟨v, rfl⟩ := exists_of_next_eq_ok hw op.token_ne_finish
          obtain ⟨_, p₂, ha, hr⟩ := bind_eq_ok_iff.mp hr
          have hp₂ := hp₁.of_discard ha
          obtain ⟨right, p₃, hrt, hr⟩ := bind_eq_ok_iff.mp hr
          obtain ⟨d, v, rfl, hp₃, hdn, hde, hdf⟩ := ih (.level _) hp₂ hn hl hrt
          obtain ⟨joined, p₄, hj, hrest⟩ := bind_eq_ok_iff.mp hr
          obtain ⟨rfl, hje, hjf⟩ := of_node
            (by rw [Dyadic.depth_node, hl.depth_eq, hdf.depth_eq]) hj
          obtain ⟨c, v, rfl, hp₅, hcn, hce, hcf⟩ := ih (.chain _) hp₃ hn hjf hrest
          refine ⟨.step op hmem d c, v, ?_, hp₅, ?_, ?_, hcf⟩
          · simp [Derivation.yield]
          · simp only [Derivation.nesting]
            omega
          · rw [hce, hje, hde, Derivation.treeAfter_step]

theorem sound_unary (ih : ∀ s, Sound limit fuel s) : Sound limit (fuel + 1) .unary := by
  intro p q w fault n left r hp hn hl hr
  simp only [read] at hr
  rw [unary] at hr
  obtain ⟨t, p₁, ht, hr⟩ := bind_eq_ok_iff.mp hr
  obtain ⟨hw, hp₁⟩ := hp.of_peek ht
  cases hop : UnaryOp.ofToken? t with
  | none =>
      simp only [hop] at hr
      obtain ⟨d, v, rfl, hp₂, hdn, hde, hdf⟩ := ih .value hp₁ hn hl hr
      exact ⟨.plain d, v, rfl, hp₂, hdn, hde, hdf⟩
  | some op =>
      simp only [hop] at hr
      obtain rfl := UnaryOp.ofToken?_eq_some_iff.mp hop
      obtain ⟨v, rfl⟩ := exists_of_next_eq_ok hw op.token_ne_finish
      obtain ⟨_, p₂, ha, hr⟩ := bind_eq_ok_iff.mp hr
      obtain ⟨_, p₃, he, hr⟩ := bind_eq_ok_iff.mp hr
      obtain ⟨hn', hp₃⟩ := (hp₁.of_discard ha).of_enter he
      obtain ⟨operand, p₄, ho, hr⟩ := bind_eq_ok_iff.mp hr
      obtain ⟨d, v, rfl, hp₄, hdn, hde, hdf⟩ := ih .unary hp₃ hn' hl ho
      obtain ⟨_, p₅, hlv, hr⟩ := bind_eq_ok_iff.mp hr
      obtain ⟨rfl, hre, hrf⟩ := of_node
        (by rw [Expr.depth, hdf.depth_eq, Nat.add_comm]) hr
      refine ⟨.prefixed op d, v, rfl, hp₄.of_leave hlv, ?_, ?_, hrf⟩
      · simp only [Derivation.nesting]
        omega
      · rw [hre, hde]
        rfl

theorem sound_value (ih : ∀ s, Sound limit fuel s) : Sound limit (fuel + 1) .value := by
  intro p q w fault n left r hp hn hl hr
  simp only [read] at hr
  rw [value, bind_of_ok _ (offset_eq p)] at hr
  obtain ⟨t, p₁, ht, hr⟩ := bind_eq_ok_iff.mp hr
  obtain ⟨hw, hp₁⟩ := hp.of_advance ht
  cases t with
  | number k =>
      obtain ⟨v, rfl⟩ := exists_of_next_eq_ok hw nofun
      obtain ⟨rfl, rfl⟩ := pure_eq_ok_iff.mp hr
      exact ⟨.number k, v, rfl, hp₁, hn, rfl, rfl, one_le_maxTreeDepth⟩
  | count =>
      obtain ⟨v, rfl⟩ := exists_of_next_eq_ok hw nofun
      obtain ⟨rfl, rfl⟩ := pure_eq_ok_iff.mp hr
      exact ⟨.count, v, rfl, hp₁, hn, rfl, rfl, one_le_maxTreeDepth⟩
  | char c =>
      obtain ⟨v, rfl⟩ := exists_of_next_eq_ok hw nofun
      simp only at hr
      split at hr
      · next hc =>
          obtain rfl := hc
          obtain ⟨_, p₂, he, hr⟩ := bind_eq_ok_iff.mp hr
          obtain ⟨hn', hp₂⟩ := hp₁.of_enter he
          obtain ⟨inner, p₃, hi, hr⟩ := bind_eq_ok_iff.mp hr
          obtain ⟨d, v, rfl, hp₃, hdn, hde, hdf⟩ := ih .conditional hp₂ hn' hl hi
          obtain ⟨_, p₄, hx, hr⟩ := bind_eq_ok_iff.mp hr
          obtain ⟨v, rfl, hp₄⟩ := hp₃.of_expect hx
          obtain ⟨_, p₅, hlv, hr⟩ := bind_eq_ok_iff.mp hr
          obtain ⟨rfl, rfl⟩ := pure_eq_ok_iff.mp hr
          refine ⟨.parens d, v, ?_, hp₄.of_leave hlv, ?_, hde, hdf⟩
          · simp [Derivation.yield]
          · simp only [Derivation.nesting]
            omega
      · cases hr
  | pair _ => cases hr
  | finish => cases hr

theorem sound (limit fuel : Nat) (s : Symbol) : Sound limit fuel s := by
  induction fuel generalizing s with
  | zero => cases s <;> (intro p q w fault n left r hp hn hl hr; cases hr)
  | succ fuel ih =>
      cases s with
      | conditional => exact sound_conditional ih
      | level k => exact sound_level ih
      | chain k => exact sound_chain ih
      | unary => exact sound_unary ih
      | value => exact sound_value ih

end Parser

end MessageCatalog.Plural
