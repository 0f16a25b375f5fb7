import MessageCatalog.Proofs.Plural.Limits
import MessageCatalog.Proofs.Plural.Rendering

/-! # Compiling what a rule prints

A rule that compiles has no negative numbers, so that its text stands for the rule itself. But the
text has every operation in parentheses, and these count as nesting where the operators of the source
did not: a long sum compiles and its text does not.
-/

namespace MessageCatalog.Plural

/-! ## Numbers of a source -/

theorem nonneg_ofNat {k : Nat} (h : k ≤ maxNumber) : 0 ≤ Int32.ofNat k := by
  rw [maxNumber] at h
  rw [Int32.le_iff_toInt_le, Int32.toInt_ofNat_of_lt (by omega), Int32.toInt_zero]
  omega

theorem Lexeme.nonneg_of_first {cs : List Char} {l : Lexeme} {k : Int32} (h : first cs = .ok l)
    (hk : l.token = .number k) : 0 ≤ k := by
  cases cs with
  | nil =>
      cases h
      cases hk
  | cons c cs =>
      simp only [first] at h
      split at h
      · cases h
        cases hk
      · split at h
        · rw [ofDigits?] at h
          split at h
          · next hmax =>
              cases h
              cases hk
              exact nonneg_ofNat hmax
          · cases h
        · split at h <;>
          · cases h
            cases hk

theorem nonneg_of_mem_reading {position : Nat} {cs : List Char} {k : Int32}
    (h : .number k ∈ (reading position cs).tokens) : 0 ≤ k := by
  fun_induction reading position cs with
  | case1 => cases h
  | case2 position c cs hc ih => exact ih h
  | case3 position c cs hc l hl ih =>
      rcases List.mem_cons.mp h with h | h
      · exact Lexeme.nonneg_of_first hl h.symm
      · exact ih h
  | case4 => cases h

namespace Derivation

/-- The numbers of a tree are written by its tokens. Behind a chain they are also those of the tree on
its left. -/
theorem mem_literals_treeAfter {s : Symbol} (d : Derivation s) (left : Expr) {v : Int32}
    (h : v ∈ (d.treeAfter left).literals) : v ∈ left.literals ∨ .number v ∈ d.yield := by
  induction d generalizing left with
  | bare condition ih => exact ih left h
  | choice condition yes no ihc ihy ihn =>
      change v ∈ (Expr.conditional (condition.treeAfter left) (yes.treeAfter left)
        (no.treeAfter left)).literals at h
      simp only [Expr.literals, List.mem_append] at h
      simp only [yield, List.mem_append, List.mem_cons]
      grind
  | operands hk first rest ihf ihr =>
      change v ∈ (rest.treeAfter (first.treeAfter left)).literals at h
      simp only [yield, List.mem_append]
      grind
  | tightest hk operand ih => exact ih left h
  | stop => exact .inl h
  | step op hop right rest ihr ihrest =>
      rw [treeAfter_step] at h
      simp only [yield, List.mem_append, List.mem_cons]
      have hnode : (op.node left (right.treeAfter left)).literals =
          left.literals ++ (right.treeAfter left).literals := by
        cases op <;> rfl
      grind
  | prefixed op operand ih =>
      exact (ih left h).imp_right (List.mem_cons_of_mem _)
  | plain value ih => exact ih left h
  | number k =>
      obtain rfl := List.mem_singleton.mp h
      exact .inr (List.mem_singleton_self _)
  | count => cases h
  | parens inner ih =>
      simp only [yield, List.mem_append, List.mem_cons]
      exact (ih left h).imp_right fun hv => .inr (.inl hv)

/-- Beyond what is open in the source, a text opens one parenthesis for each level of the tree. Behind
a chain the tree on its left has a say in this, with what was open in its own source. -/
theorem cost_treeAfter_lt {s : Symbol} (d : Derivation s) (left : Expr) (opened : Nat)
    (h : left.cost < left.normal.depth + opened) :
    (d.treeAfter left).cost < (d.treeAfter left).normal.depth + max opened d.nesting := by
  induction d generalizing left opened with
  | bare condition ih => exact ih left opened h
  | choice condition yes no ihc ihy ihn =>
      have hc := ihc .count 0 (by decide)
      have hy := ihy .count 0 (by decide)
      have hn := ihn .count 0 (by decide)
      change (Expr.conditional (condition.treeAfter .count) (yes.treeAfter .count)
        (no.treeAfter .count)).cost < (Expr.conditional (condition.treeAfter .count)
          (yes.treeAfter .count) (no.treeAfter .count)).normal.depth + _
      simp only [Expr.cost, Expr.normal, Expr.depth, nesting]
      omega
  | operands hk first rest ihf ihr =>
      have hr := ihr (first.treeAfter left) (max opened first.nesting) (ihf left opened h)
      rw [Nat.max_assoc] at hr
      exact hr
  | tightest hk operand ih => exact ih left opened h
  | stop => exact Nat.lt_of_lt_of_le h (Nat.add_le_add_left (Nat.le_max_left _ _) _)
  | step op hop right rest ihr ihrest =>
      have hr := ihr left opened h
      have hnode : (op.node left (right.treeAfter left)).cost <
          (op.node left (right.treeAfter left)).normal.depth + max opened right.nesting := by
        cases op <;> simp only [Dyadic.node, Expr.cost, Expr.normal, Expr.depth] <;> omega
      have hrest := ihrest (op.node left (right.treeAfter left)) (max opened right.nesting) hnode
      rw [Nat.max_assoc] at hrest
      rwa [treeAfter_step]
  | prefixed op operand ih =>
      have ho := ih .count 0 (by decide)
      change (Expr.unary op (operand.treeAfter .count)).cost <
        (Expr.unary op (operand.treeAfter .count)).normal.depth + _
      simp only [Expr.cost, Expr.normal, Expr.depth, nesting]
      omega
  | plain value ih => exact ih left opened h
  | number k =>
      change (Expr.literal k).cost < (Expr.literal k).normal.depth + _
      simp only [Expr.cost, Expr.normal]
      split <;> simp only [Expr.depth] <;> omega
  | count =>
      change 0 < 1 + _
      omega
  | parens inner ih =>
      have hi := ih left opened h
      change (inner.treeAfter left).cost < (inner.treeAfter left).normal.depth + _
      simp only [nesting]
      omega

end Derivation

namespace Expr

variable {limit : Nat} {source : String} {e e' : Expr}

/-- A source with a derivation is judged by that one. -/
theorem parseWithin_eq_ok_iff_of_yield {d : Derivation .conditional}
    (hf : (reading 0 source.toList).fault = none) (hy : d.yield = (reading 0 source.toList).tokens) :
    parseWithin limit source = .ok e ↔ d.nesting ≤ limit ∧ d.tree.depth ≤ 4096 ∧ e = d.tree := by
  rw [parseWithin_eq_ok_iff_derivation]
  constructor
  · rintro ⟨-, d', hy', rfl, hn, hd⟩
    obtain rfl := Derivation.eq_of_yield_eq (hy'.trans hy.symm)
    exact ⟨hn, hd, rfl⟩
  · rintro ⟨hn, hd, rfl⟩
    exact ⟨hf, d, hy, rfl, hn, hd⟩

theorem nonneg_of_parseWithin (h : parseWithin limit source = .ok e) :
    ∀ v ∈ e.literals, 0 ≤ v := by
  intro v hv
  obtain ⟨-, d, hy, rfl, -⟩ := parseWithin_eq_ok_iff_derivation.mp h
  rcases d.mem_literals_treeAfter .count hv with hv | hv
  · cases hv
  · exact nonneg_of_mem_reading (hy ▸ hv)

/-! ## Trees without negative numbers -/

theorem minValue_notMem_literals (h : ∀ v ∈ e.literals, 0 ≤ v) : Int32.minValue ∉ e.literals :=
  fun hm => absurd (h _ hm) (by decide)

theorem parseWithin_render_iff_of_nonneg (h : ∀ v ∈ e.literals, 0 ≤ v) :
    parseWithin limit e.render = .ok e' ↔ e.cost ≤ limit ∧ e.depth ≤ 4096 ∧ e' = e := by
  obtain ⟨ht, hf⟩ := reading_render (minValue_notMem_literals h)
  obtain ⟨u, huy, hut, hun⟩ := Derivation.exists_tokens e
  obtain ⟨d, hdy, hdt, hdn⟩ := Derivation.exists_operand 1 (by decide) u
  have hy : (Derivation.bare d).yield = (reading 0 e.render.toList).tokens :=
    (hdy.trans huy).trans ht.symm
  have htree : (Derivation.bare d).tree = e := (hdt.trans hut).trans (normal_eq_self h)
  have hcost : (Derivation.bare d).nesting = e.cost := hdn.trans hun
  rw [parseWithin_eq_ok_iff_of_yield hf hy, htree, hcost]

/-- Nesting is the only thing that can be wrong with the text of a tree that is not too deep. -/
theorem parseWithin_render_of_lt_cost (h : ∀ v ∈ e.literals, 0 ≤ v) (hd : e.depth ≤ 4096)
    (hlt : limit < e.cost) : parseWithin limit e.render = .error (.nestedTooDeep limit) := by
  have hok : parseWithin e.cost e.render = .ok e :=
    (parseWithin_render_iff_of_nonneg h).mpr ⟨Nat.le_refl _, hd, rfl⟩
  rcases parseWithin_of_le (Nat.le_of_lt hlt) e.render with he | he
  · exact he
  · have hle := ((parseWithin_render_iff_of_nonneg h).mp (he.symm.trans hok)).1
    exact absurd hle (Nat.not_le.mpr hlt)

/-! ## Rules that were compiled -/

theorem parse_eq_parseWithin (source : String) : parse source = parseWithin 64 source :=
  rfl

theorem cost_lt_of_parseWithin (h : parseWithin limit source = .ok e) :
    e.cost < e.depth + limit := by
  have hnormal := normal_eq_self (nonneg_of_parseWithin h)
  obtain ⟨-, d, -, rfl, hn, -⟩ := parseWithin_eq_ok_iff_derivation.mp h
  have hd := d.cost_treeAfter_lt .count 0 (by decide)
  change d.tree.cost < d.tree.normal.depth + _ at hd
  rw [hnormal] at hd
  omega

/-- A rule that compiles can be compiled from what it prints exactly if the operations in that nest no
deeper than the limit. It is then the same rule, and nesting too deep is the only failure. What is
printed nests by less than the levels of the tree deeper than the source, so that a limit of 4159
refuses no rule that the limit of 64 has accepted. -/
theorem recompiles_iff_cost_le (h : parse source = .ok e) :
    (parse e.render = .ok e ↔ e.cost ≤ 64) ∧
    (64 < e.cost → parse e.render = .error (.nestedTooDeep 64)) ∧
    e.cost < e.depth + 64 ∧
    ∀ limit, 4159 ≤ limit → parseWithin limit e.render = .ok e := by
  rw [parse_eq_parseWithin] at h ⊢
  have hliterals := nonneg_of_parseWithin h
  have hdepth : e.depth ≤ 4096 := (parseWithin_eq_ok_iff_derivation.mp h).2.elim fun d hd => hd.2.2.2
  have hcost := cost_lt_of_parseWithin h
  have hiff (limit : Nat) : parseWithin limit e.render = .ok e ↔ e.cost ≤ limit := by
    simp [parseWithin_render_iff_of_nonneg hliterals, hdepth]
  refine ⟨hiff 64, ?_, hcost, ?_⟩
  · intro hlt
    exact parseWithin_render_of_lt_cost hliterals hdepth hlt
  · intro limit hle
    exact (hiff limit).mpr (by omega)

/-- The count behind `k` minus signs. -/
def negated : Nat → Expr
  | 0 => .count
  | k + 1 => .unary .negate (negated k)

def negatedSource (k : Nat) : String :=
  .ofList (List.replicate k '-' ++ ['n'])

theorem literals_negated (k : Nat) : (negated k).literals = [] := by
  induction k with
  | zero => rfl
  | succ k ih => exact ih

theorem recompiles_negated :
    parse (negatedSource 32) = .ok (negated 32) ∧ parse (negated 32).render = .ok (negated 32) := by
  have h : parse (negatedSource 32) = .ok (negated 32) := by decide +kernel
  exact ⟨h, (recompiles_iff_cost_le h).1.mpr (by decide)⟩

/-- One minus sign more, and what the rule prints nests 66 levels deep. -/
theorem negated_not_recompiled :
    parse (negatedSource 33) = .ok (negated 33) ∧
      parse (negated 33).render = .error (.nestedTooDeep 64) := by
  constructor
  · decide +kernel
  · have hliterals : ∀ v ∈ (negated 33).literals, 0 ≤ v := by simp [literals_negated]
    exact parseWithin_render_of_lt_cost hliterals (by decide) (by decide)

end Expr

end MessageCatalog.Plural
