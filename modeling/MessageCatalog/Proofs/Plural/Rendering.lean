import MessageCatalog.Plural.Expr.Render
import MessageCatalog.Proofs.Plural.Normal
import MessageCatalog.Proofs.Plural.Parsing

/-! # Reading what was rendered

The text of a tree is read as the tokens of the tree, unless a number in it has no positive
counterpart: the digits of that number stop the reading.
-/

namespace MessageCatalog.Plural

/-! ## Reading up to a rest -/

/-- `cs` is read as `ts` and then as `rest` is. -/
def Reads (cs : List Char) (ts : List Token) (rest : List Char) : Prop :=
  ∀ position, ∃ position',
    (reading position cs).tokens = ts ++ (reading position' rest).tokens ∧
      (reading position cs).fault = (reading position' rest).fault

/-- A number that is too large comes up. -/
def Faulty (cs : List Char) : Prop :=
  ∀ position, (reading position cs).fault ≠ none

theorem Reads.trans {cs mid rest : List Char} {ts ts' : List Token} (h : Reads cs ts mid)
    (h' : Reads mid ts' rest) : Reads cs (ts ++ ts') rest := by
  intro position
  obtain ⟨position₁, ht₁, hf₁⟩ := h position
  obtain ⟨position₂, ht₂, hf₂⟩ := h' position₁
  exact ⟨position₂, by rw [ht₁, ht₂, List.append_assoc], hf₁.trans hf₂⟩

theorem Reads.faulty {cs rest : List Char} {ts : List Token} (h : Reads cs ts rest)
    (hr : Faulty rest) : Faulty cs := by
  intro position
  obtain ⟨position', -, hf⟩ := h position
  rw [hf]
  exact hr position'

theorem reads_space (cs : List Char) : Reads (' ' :: cs) [] cs :=
  fun position => ⟨_, by rw [reading_of_gap rfl, List.nil_append], by rw [reading_of_gap rfl]⟩

theorem reads_spelling {c : Char} (cs : List Char) {rest : List Char} {t : Token}
    (hc : isGap c = false) (h : Lexeme.first (c :: (cs ++ rest)) = .ok ⟨t, c :: cs⟩) :
    Reads (c :: cs ++ rest) [t] rest := by
  intro position
  have hd : (c :: (cs ++ rest)).drop (c :: cs).length = rest := by simp
  have hr : reading position (c :: (cs ++ rest)) =
      (reading (position + Text.utf8Length (c :: cs)) rest).cons ⟨position, t, c :: cs⟩ := by
    rw [reading_of_first hc h, hd]
  refine ⟨position + Text.utf8Length (c :: cs), ?_, ?_⟩
  · rw [List.cons_append, hr]
    rfl
  · rw [List.cons_append, hr]
    rfl

/-! ## Characters and operators -/

/-- A character that is a token of its own whatever follows it. -/
structure Lone (c : Char) : Prop where
  gap : isGap c = false
  pair : ∀ d, Pair.ofChars? c d = none
  digit : c.isDigit = false
  count : c ≠ 'n'

theorem reads_lone {c : Char} (h : Lone c) (cs : List Char) : Reads (c :: cs) [.char c] cs := by
  have hf : Lexeme.first (c :: cs) = .ok ⟨.char c, [c]⟩ := by
    cases cs <;> simp [Lexeme.first, h.pair, h.digit, h.count]
  exact reads_spelling [] h.gap hf

theorem lone_open : Lone '(' := ⟨rfl, fun _ => rfl, rfl, by decide⟩
theorem lone_close : Lone ')' := ⟨rfl, fun _ => rfl, rfl, by decide⟩
theorem lone_question : Lone '?' := ⟨rfl, fun _ => rfl, rfl, by decide⟩
theorem lone_colon : Lone ':' := ⟨rfl, fun _ => rfl, rfl, by decide⟩
theorem lone_minus : Lone '-' := ⟨rfl, fun _ => rfl, rfl, by decide⟩
theorem lone_tilde : Lone '~' := ⟨rfl, fun _ => rfl, rfl, by decide⟩

theorem reads_count (cs : List Char) : Reads ('n' :: cs) [.count] cs := by
  have hf : Lexeme.first ('n' :: cs) = .ok ⟨.count, ['n']⟩ := by
    cases cs <;> rfl
  exact reads_spelling [] rfl hf

def Dyadic.text : Dyadic → String
  | plain op => op.text
  | division op => op.text

/-- The space behind it keeps an operator of one character from being taken for one of two. -/
theorem reads_dyadic (op : Dyadic) (cs : List Char) :
    Reads (op.text.toList ++ ' ' :: cs) [op.token] (' ' :: cs) := by
  have hg : ∃ c s, op.text.toList = c :: s ∧ isGap c = false := by
    rcases op with op | op <;> cases op <;> exact ⟨_, _, rfl, rfl⟩
  have hf : Lexeme.first (op.text.toList ++ ' ' :: cs) = .ok ⟨op.token, op.text.toList⟩ := by
    rcases op with op | op <;> cases op <;> rfl
  obtain ⟨c, s, hs, hc⟩ := hg
  rw [hs] at hf ⊢
  exact reads_spelling s hc hf

/-- A tree starts with no sign that a `!` could go with. -/
theorem reads_unaryOp (op : UnaryOp) {cs : List Char} (h : cs.head? ≠ some '=') :
    Reads (op.text.toList ++ cs) [op.token] cs := by
  cases op with
  | negate => exact reads_lone lone_minus cs
  | not =>
      have hf : Lexeme.first ('!' :: cs) = .ok ⟨.char '!', ['!']⟩ := by
        cases cs with
        | nil => rfl
        | cons d cs =>
            have hp : Pair.ofChars? '!' d = none := by
              unfold Pair.ofChars?
              split <;> simp_all
            simp [Lexeme.first, hp]
      exact reads_spelling [] rfl hf
  | bitNot => exact reads_lone lone_tilde cs

/-! ## Numbers -/

theorem exists_toDigits (k : Nat) :
    ∃ c digits, Nat.toDigits 10 k = c :: digits ∧ c.isDigit = true ∧
      ∀ d ∈ c :: digits, d.isDigit = true := by
  have hd : ∀ d ∈ Nat.toDigits 10 k, d.isDigit = true :=
    fun _ hd => Nat.isDigit_of_mem_toDigits (by decide) (by decide) hd
  obtain ⟨c, digits, hs⟩ := List.exists_cons_of_ne_nil (Nat.toDigits_ne_nil (b := 10) (n := k))
  rw [hs] at hd
  exact ⟨c, digits, hs, hd c List.mem_cons_self, hd⟩

theorem reads_number {k : Nat} (hk : k ≤ maxNumber) {rest : List Char} (hr : NoDigit rest) :
    Reads (Nat.toDigits 10 k ++ rest) [.number (Int32.ofNat k)] rest := by
  have hv := Text.decimalValue_toDigits k
  obtain ⟨c, digits, hs, hc, hd⟩ := exists_toDigits k
  rw [hs] at hv ⊢
  apply reads_spelling digits (isGap_of_isDigit hc)
  rw [first_digits hd hr, Lexeme.ofDigits?, hv, if_pos hk]
  rfl

theorem faulty_number {k : Nat} (hk : maxNumber < k) {rest : List Char} (hr : NoDigit rest) :
    Faulty (Nat.toDigits 10 k ++ rest) := by
  intro position
  have hv := Text.decimalValue_toDigits k
  obtain ⟨c, digits, hs, hc, hd⟩ := exists_toDigits k
  rw [hs] at hv ⊢
  have hf : Lexeme.first (c :: (digits ++ rest)) = .error (c :: digits) := by
    rw [first_digits hd hr, Lexeme.ofDigits?, hv, if_neg (Nat.not_le.mpr hk)]
    rfl
  rw [List.cons_append, reading_of_fault (isGap_of_isDigit hc) hf]
  exact Option.some_ne_none _

theorem literalText_of_nonneg {v : Int32} (h : 0 ≤ v) :
    literalText v = Nat.toDigits 10 v.toNatClampNeg := by
  have hv := Int32.toInt_eq_toNatClampNeg h
  unfold literalText
  split
  · next k hk =>
      obtain rfl := Int.ofNat.inj (hk.symm.trans hv)
      rfl
  · next k hk => cases hk.symm.trans hv

theorem exists_literalText_of_neg {v : Int32} (h : v < 0) :
    ∃ k : Nat, v.toInt = -(k : Int) ∧ literalText v = '-' :: Nat.toDigits 10 k ∧
      Int32.ofNat k = -v := by
  have hv : v.toInt < 0 := by simpa [Int32.lt_iff_toInt_lt] using h
  unfold literalText
  split
  · next k hk =>
      rw [hk] at hv
      exact absurd hv (Int.not_lt.mpr (Int.natCast_nonneg k))
  · next k hk =>
      refine ⟨k + 1, hk, rfl, ?_⟩
      have hk' : ((k + 1 : Nat) : Int) = -v.toInt := by rw [hk]; rfl
      rw [← Int32.ofInt_eq_ofNat, hk', Int32.ofInt_neg, Int32.ofInt_toInt]

theorem reads_literal {v : Int32} (h : v ≠ Int32.minValue) {rest : List Char} (hr : NoDigit rest) :
    Reads (literalText v ++ rest) (Expr.literal v).tokens rest := by
  rw [Expr.tokens]
  split
  · next hv =>
      obtain ⟨k, hk, ht, ho⟩ := exists_literalText_of_neg hv
      have hm : k ≤ maxNumber := by
        have hl := Int32.le_toInt v
        have hne : v.toInt ≠ Int32.minValue.toInt := fun he => h (Int32.toInt.inj he)
        rw [hk] at hl hne
        rw [Int32.toInt_minValue] at hne
        rw [maxNumber]
        omega
      rw [ht, ← ho]
      exact (reads_lone lone_minus _).trans (reads_number hm hr)
  · next hv =>
      have hv := Int32.not_lt.mp hv
      have hm : v.toNatClampNeg ≤ maxNumber := Nat.le_of_lt_succ v.toNatClampNeg_lt
      have hn := reads_number hm hr
      rwa [Int32.ofNat_toNatClampNeg v hv, ← literalText_of_nonneg hv] at hn

theorem faulty_literal {rest : List Char} (hr : NoDigit rest) :
    Faulty (literalText Int32.minValue ++ rest) :=
  (reads_lone lone_minus _).faulty (faulty_number (k := 2147483648) (by decide) hr)

/-! ## Trees -/

theorem head?_literalText (v : Int32) (rest : List Char) :
    (literalText v ++ rest).head? ≠ some '=' := by
  rcases Int32.lt_or_le v 0 with hv | hv
  · obtain ⟨k, -, ht, -⟩ := exists_literalText_of_neg hv
    rw [ht]
    nofun
  · obtain ⟨c, digits, hs, hc, -⟩ := exists_toDigits v.toNatClampNeg
    rw [literalText_of_nonneg hv, hs]
    intro h
    obtain rfl := Option.some.inj h
    cases hc

theorem head?_renderOnto (e : Expr) (rest : List Char) : (e.renderOnto rest).head? ≠ some '=' := by
  cases e with
  | literal v => exact head?_literalText v rest
  | count => nofun
  | unary op e => nofun
  | binary op l r => nofun
  | division op l r => nofun
  | conditional c t e => nofun

/-- The text of an operation up to its right operand. -/
theorem reads_left {l : Expr} (op : Dyadic) {cs : List Char}
    (hl : ∀ {rest}, NoDigit rest → Reads (l.renderOnto rest) l.tokens rest) :
    Reads ('(' :: l.renderOnto (' ' :: (op.text.toList ++ ' ' :: cs)))
      (.char '(' :: (l.tokens ++ [op.token])) cs :=
  (reads_lone lone_open _).trans ((hl (noDigit_cons rfl _)).trans
    ((reads_space _).trans ((reads_dyadic op cs).trans (reads_space cs))))

theorem reads_operation {l r : Expr} (op : Dyadic)
    (hl : ∀ {rest}, NoDigit rest → Reads (l.renderOnto rest) l.tokens rest)
    (hr : ∀ {rest}, NoDigit rest → Reads (r.renderOnto rest) r.tokens rest) (rest : List Char) :
    Reads ('(' :: l.renderOnto (' ' :: (op.text.toList ++ ' ' :: r.renderOnto (')' :: rest))))
      (.char '(' :: (l.tokens ++ op.token :: (r.tokens ++ [.char ')']))) rest := by
  have h := (reads_left op hl).trans
    ((hr (noDigit_cons rfl rest)).trans (reads_lone lone_close rest))
  rw [List.cons_append, List.append_assoc] at h
  exact h

theorem reads_sign {c : Char} (h : Lone c) (cs : List Char) :
    Reads (' ' :: c :: ' ' :: cs) [.char c] cs :=
  (reads_space _).trans ((reads_lone h _).trans (reads_space cs))

theorem reads_renderOnto {e : Expr} (h : Int32.minValue ∉ e.literals) {rest : List Char}
    (hr : NoDigit rest) : Reads (e.renderOnto rest) e.tokens rest := by
  induction e generalizing rest with
  | literal v => exact reads_literal (fun hv => h (hv ▸ List.mem_cons_self)) hr
  | count => exact reads_count rest
  | unary op e ih =>
      exact (reads_lone lone_open _).trans ((reads_unaryOp op (head?_renderOnto e _)).trans
        ((ih h (noDigit_cons rfl rest)).trans (reads_lone lone_close rest)))
  | binary op l r ihl ihr =>
      simp only [Expr.literals, List.mem_append, not_or] at h
      exact reads_operation (.plain op) (ihl h.1) (ihr h.2) rest
  | division op l r ihl ihr =>
      simp only [Expr.literals, List.mem_append, not_or] at h
      exact reads_operation (.division op) (ihl h.1) (ihr h.2) rest
  | conditional c t e ihc iht ihe =>
      simp only [Expr.literals, List.mem_append, not_or] at h
      exact (reads_lone lone_open _).trans ((ihc h.1 (noDigit_cons rfl _)).trans
        ((reads_sign lone_question _).trans ((iht h.2.1 (noDigit_cons rfl _)).trans
          ((reads_sign lone_colon _).trans ((ihe h.2.2 (noDigit_cons rfl rest)).trans
            (reads_lone lone_close rest))))))

/-- The fault is in the left operand, or else behind it. -/
theorem faulty_operation {l r : Expr} (op : Dyadic)
    (h : Int32.minValue ∈ l.literals ++ r.literals)
    (hl : Int32.minValue ∈ l.literals → ∀ {rest}, NoDigit rest → Faulty (l.renderOnto rest))
    (hr : Int32.minValue ∈ r.literals → ∀ {rest}, NoDigit rest → Faulty (r.renderOnto rest))
    (rest : List Char) :
    Faulty ('(' :: l.renderOnto
      (' ' :: (op.text.toList ++ ' ' :: r.renderOnto (')' :: rest)))) := by
  by_cases hm : Int32.minValue ∈ l.literals
  · exact (reads_lone lone_open _).faulty (hl hm (noDigit_cons rfl _))
  · have hm' := (List.mem_append.mp h).resolve_left hm
    exact (reads_left op (reads_renderOnto hm)).faulty (hr hm' (noDigit_cons rfl rest))

theorem faulty_renderOnto {e : Expr} (h : Int32.minValue ∈ e.literals) {rest : List Char}
    (hr : NoDigit rest) : Faulty (e.renderOnto rest) := by
  induction e generalizing rest with
  | literal v =>
      obtain rfl := List.mem_singleton.mp h
      exact faulty_literal hr
  | count => cases h
  | unary op e ih =>
      exact (reads_lone lone_open _).faulty ((reads_unaryOp op (head?_renderOnto e _)).faulty
        (ih h (noDigit_cons rfl rest)))
  | binary op l r ihl ihr => exact faulty_operation (.plain op) h ihl ihr rest
  | division op l r ihl ihr => exact faulty_operation (.division op) h ihl ihr rest
  | conditional c t e ihc iht ihe =>
      refine (reads_lone lone_open _).faulty ?_
      by_cases hc : Int32.minValue ∈ c.literals
      · exact ihc hc (noDigit_cons rfl _)
      have hm := (List.mem_append.mp h).resolve_left hc
      refine (reads_renderOnto hc (noDigit_cons rfl _)).faulty ?_
      refine (reads_sign lone_question _).faulty ?_
      by_cases ht : Int32.minValue ∈ t.literals
      · exact iht ht (noDigit_cons rfl _)
      have hm := (List.mem_append.mp hm).resolve_left ht
      refine (reads_renderOnto ht (noDigit_cons rfl _)).faulty ?_
      exact (reads_sign lone_colon _).faulty (ihe hm (noDigit_cons rfl rest))

theorem reading_render {e : Expr} (h : Int32.minValue ∉ e.literals) :
    (reading 0 e.render.toList).tokens = e.tokens ∧ (reading 0 e.render.toList).fault = none := by
  obtain ⟨position, ht, hf⟩ := reads_renderOnto h noDigit_nil 0
  rw [reading_nil] at ht hf
  rw [Expr.render, String.toList_ofList]
  exact ⟨ht.trans (List.append_nil _), hf⟩

theorem fault_reading_render {e : Expr} (h : Int32.minValue ∈ e.literals) :
    (reading 0 e.render.toList).fault ≠ none := by
  rw [Expr.render, String.toList_ofList]
  exact faulty_renderOnto h noDigit_nil 0

namespace Expr

/-- A tree that was rendered is accepted exactly when none of its numbers is the smallest of all,
its parentheses and signs are within the limit, and its normal form is not too deep. What it is then
read as is its normal form: the tree itself if no number is negative, and a tree of the same values
in any case. -/
theorem parseWithin_render_exact (e : Expr) :
    (∀ (limit : Nat) (e' : Expr), parseWithin limit e.render = .ok e' ↔
      Int32.minValue ∉ e.literals ∧ e.cost ≤ limit ∧ e.normal.depth ≤ 4096 ∧ e' = e.normal) ∧
    ((∀ v ∈ e.literals, 0 ≤ v) → e.normal = e) ∧
    ∀ n : Int32, e.normal.eval n = e.eval n := by
  refine ⟨?_, normal_eq_self, eval_normal e⟩
  intro limit e'
  rw [parseWithin_eq_ok_iff_derivation]
  by_cases hm : Int32.minValue ∈ e.literals
  · constructor
    · intro hx
      rcases hx with ⟨hf, -⟩
      exact absurd hf (fault_reading_render hm)
    · intro hx
      rcases hx with ⟨h, -⟩
      exact absurd hm h
  obtain ⟨ht, hf⟩ := reading_render hm
  obtain ⟨u, huy, hut, hun⟩ := Derivation.exists_tokens e
  obtain ⟨d, hdy, hdt, hdn⟩ := Derivation.exists_operand 1 (by decide) u
  have hy : (Derivation.bare d).yield = e.tokens := hdy.trans huy
  have htree : (Derivation.bare d).tree = e.normal := hdt.trans hut
  have hcost : (Derivation.bare d).nesting = e.cost := hdn.trans hun
  rw [ht]
  constructor
  · intro hx
    rcases hx with ⟨-, d', hy', rfl, hn, hd⟩
    obtain rfl := Derivation.eq_of_yield_eq (hy'.trans hy.symm)
    exact ⟨hm, hcost ▸ hn, htree ▸ hd, htree⟩
  · intro hx
    rcases hx with ⟨-, hn, hd, rfl⟩
    exact ⟨hf, .bare d, hy, htree, hcost.symm ▸ hn, hd⟩

end Expr

end MessageCatalog.Plural
