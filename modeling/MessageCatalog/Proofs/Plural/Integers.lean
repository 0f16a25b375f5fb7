import Mathlib.Data.Int.Bitwise
import Mathlib.Tactic.Positivity
import MessageCatalog.Plural.Expr.Eval

/-! # Plural rules over the integers

The operators and the evaluation once more, with integers of any size in place of 32-bit words. What
is computed is then exact, and nothing wraps. Operands are asked for as in the evaluation over words.

An integer has a word that stands for it, `Int32.ofInt`. For the operators of a ring and the bitwise
ones the word of the result depends on the words of the operands only. For all others it does where
the operands are words themselves.
-/

namespace MessageCatalog.Plural

/-! ## Exact operators -/

def exactTruth (b : Bool) : Int :=
  if b then 1 else 0

def UnaryOp.exact : UnaryOp → Int → Int
  | negate, a => -a
  | not, a => exactTruth (a == 0)
  | bitNot, a => -a - 1

/-- The bitwise operators are those of infinite two's complement, and a right shift rounds down. A
shift by a negative count, which has no meaning of its own, is one by zero. -/
def BinaryOp.exact : BinaryOp → Int → Int → Int
  | mul, a, b => a * b
  | add, a, b => a + b
  | sub, a, b => a - b
  | shl, a, k => a * 2 ^ k.toNat
  | shr, a, k => a.fdiv (2 ^ k.toNat)
  | lt, a, b => exactTruth (a < b)
  | gt, a, b => exactTruth (b < a)
  | le, a, b => exactTruth (a ≤ b)
  | ge, a, b => exactTruth (b ≤ a)
  | eq, a, b => exactTruth (a == b)
  | ne, a, b => exactTruth (a != b)
  | bitAnd, a, b => a.land b
  | bitXor, a, b => a.xor b
  | bitOr, a, b => a.lor b
  | and, a, b => exactTruth (a != 0 && b != 0)
  | or, a, b => exactTruth (a != 0 || b != 0)

/-- The value that the left operand settles without the right one. -/
def BinaryOp.exactShortcut : BinaryOp → Int → Option Int
  | and, a => if a = 0 then some 0 else none
  | or, a => if a = 0 then none else some 1
  | _, _ => none

/-- Quotients round toward zero, and a remainder has the sign of the dividend. -/
def DivisionOp.exact : DivisionOp → Int → Int → Int
  | quotient, a, b => a.tdiv b
  | remainder, a, b => a.tmod b

def DivisionOp.exact? (op : DivisionOp) (a b : Int) : Except EvalError Int :=
  if b = 0 then .error op.failure else .ok (op.exact a b)

/-- The value of a rule over the integers. -/
def Expr.exact (n : Int) : Expr → Except EvalError Int
  | literal value => .ok value.toInt
  | count => .ok n
  | unary op e => do
      return op.exact (← e.exact n)
  | binary op l r => do
      let a ← l.exact n
      match op.exactShortcut a with
      | some v => return v
      | none => return op.exact a (← r.exact n)
  | division op l r => do
      let a ← l.exact n
      let b ← r.exact n
      op.exact? a b
  | conditional c t e => do
      if (← c.exact n) ≠ 0 then t.exact n else e.exact n

/-! ## Words of integers -/

/-- The bits of a word are the lowest ones of its integer. -/
theorem getLsbD_ofInt {w i : Nat} (a : Int) (hi : i < w) :
    (BitVec.ofInt w a).getLsbD i = a.testBit i := by
  cases a with
  | ofNat m =>
      change (BitVec.ofNat w m).getLsbD i = m.testBit i
      rw [BitVec.getLsbD_ofNat, decide_eq_true hi, Bool.true_and]
  | negSucc m =>
      rw [BitVec.ofInt_negSucc_eq_not_ofNat, BitVec.getLsbD_not, BitVec.getLsbD_ofNat,
        decide_eq_true hi, Bool.true_and, Bool.true_and]
      rfl

/-- An operation that goes bit by bit may be done on the integers or on their words. -/
theorem ofInt_bitwise {f : Bool → Bool → Bool} {onInts : Int → Int → Int}
    {onWords : Int32 → Int32 → Int32}
    (hints : ∀ a b i, (onInts a b).testBit i = f (a.testBit i) (b.testBit i))
    (hwords : ∀ x y i, (onWords x y).toBitVec.getLsbD i =
      f (x.toBitVec.getLsbD i) (y.toBitVec.getLsbD i)) (a b : Int) :
    Int32.ofInt (onInts a b) = onWords (.ofInt a) (.ofInt b) := by
  apply Int32.toBitVec.inj
  apply BitVec.eq_of_getLsbD_eq
  intro i hi
  simp only [hwords, Int32.toBitVec_ofInt, getLsbD_ofInt _ hi, hints]

theorem ofInt_land (a b : Int) : Int32.ofInt (a.land b) = Int32.ofInt a &&& Int32.ofInt b :=
  ofInt_bitwise Int.testBit_land (by simp) a b

theorem ofInt_lor (a b : Int) : Int32.ofInt (a.lor b) = Int32.ofInt a ||| Int32.ofInt b :=
  ofInt_bitwise Int.testBit_lor (by simp) a b

theorem ofInt_xor (a b : Int) : Int32.ofInt (a.xor b) = Int32.ofInt a ^^^ Int32.ofInt b :=
  ofInt_bitwise Int.testBit_lxor (by simp) a b

/-- A count that is less than the width is not reduced. -/
theorem exists_count {k : Int32} (h : 0 ≤ k.toInt ∧ k.toInt ≤ 31) :
    ∃ j : Nat, k.toInt = j ∧ (k.toBitVec.smod 32).toNat = j := by
  have hsmod (j : Fin 32) : ((Int32.ofInt j).toBitVec.smod 32).toNat = j := by
    revert j
    decide
  have hk : (k.toInt.toNat : Int) = k.toInt := Int.toNat_of_nonneg h.1
  have hj := hsmod ⟨k.toInt.toNat, by omega⟩
  rw [hk, Int32.ofInt_toInt] at hj
  exact ⟨k.toInt.toNat, hk.symm, hj⟩

theorem ofInt_shiftLeft {k : Int32} (h : 0 ≤ k.toInt ∧ k.toInt ≤ 31) (a : Int) :
    Int32.ofInt (a * 2 ^ k.toInt.toNat) = Int32.ofInt a <<< k := by
  obtain ⟨j, hj, hk⟩ := exists_count h
  have hpow : BitVec.ofInt 32 (2 ^ j) = BitVec.twoPow 32 j := by
    apply BitVec.eq_of_toNat_eq
    rw [BitVec.toNat_twoPow, BitVec.toNat_ofInt]
    norm_cast
  apply Int32.toBitVec.inj
  rw [Int32.toBitVec_shiftLeft, BitVec.shiftLeft_eq', hk, BitVec.shiftLeft_eq_mul_twoPow, hj,
    Int.toNat_natCast, Int32.toBitVec_ofInt, Int32.toBitVec_ofInt, BitVec.ofInt_mul, hpow]

theorem toInt_shiftRight {k : Int32} (h : 0 ≤ k.toInt ∧ k.toInt ≤ 31) (x : Int32) :
    (x >>> k).toInt = x.toInt.fdiv (2 ^ k.toInt.toNat) := by
  obtain ⟨j, hj, hk⟩ := exists_count h
  have hpow : (0 : Int) ≤ 2 ^ j := by positivity
  rw [← Int32.toInt_toBitVec, Int32.toBitVec_shiftRight, BitVec.sshiftRight_eq', hk,
    BitVec.toInt_sshiftRight, Int.shiftRight_eq_div_pow, Int32.toInt_toBitVec, hj,
    Int.toNat_natCast, Int.fdiv_eq_ediv_of_nonneg _ hpow]
  norm_cast

/-- The integers that a word can be. -/
def InRange (a : Int) : Prop :=
  Int32.minValue.toInt ≤ a ∧ a ≤ Int32.maxValue.toInt

instance (a : Int) : Decidable (InRange a) :=
  inferInstanceAs (Decidable (_ ∧ _))

theorem toInt_ofInt_of_inRange {a : Int} (h : InRange a) : (Int32.ofInt a).toInt = a :=
  Int32.toInt_ofInt_of_le h.1 (Int.lt_add_one_of_le h.2)

theorem toInt_eq_zero_iff {x : Int32} : x.toInt = 0 ↔ x = 0 :=
  Int32.toInt_inj (y := 0)

theorem ofInt_exactTruth (b : Bool) : Int32.ofInt (exactTruth b) = truth b := by
  cases b <;> rfl

/-! ## Words of results -/

/-- The operators that treat words as integers modulo the number of words. -/
def UnaryOp.isRing : UnaryOp → Bool
  | negate | bitNot => true
  | not => false

def BinaryOp.isRing : BinaryOp → Bool
  | mul | add | sub | bitAnd | bitXor | bitOr => true
  | _ => false

def BinaryOp.isShift : BinaryOp → Bool
  | shl | shr => true
  | _ => false

theorem BinaryOp.shortcut_of_isRing {op : BinaryOp} (h : op.isRing) :
    (∀ a, op.exactShortcut a = none) ∧ ∀ x, op.shortcut x = none := by
  cases op <;> first | exact ⟨fun _ => rfl, fun _ => rfl⟩ | cases h

theorem UnaryOp.ofInt_exact {op : UnaryOp} (h : op.isRing) (a : Int) :
    Int32.ofInt (op.exact a) = op.apply (.ofInt a) := by
  cases op with
  | negate => exact Int32.ofInt_neg a
  | not => cases h
  | bitNot => simp [exact, apply, Int32.not_eq_neg_sub]

theorem BinaryOp.ofInt_exact {op : BinaryOp} (h : op.isRing) (a b : Int) :
    Int32.ofInt (op.exact a b) = op.apply (.ofInt a) (.ofInt b) := by
  cases op with
  | mul => exact Int32.ofInt_mul a b
  | add => exact Int32.ofInt_add a b
  | sub => exact Int32.ofInt_sub a b
  | bitAnd => exact ofInt_land a b
  | bitXor => exact ofInt_xor a b
  | bitOr => exact ofInt_lor a b
  | shl | shr | lt | gt | le | ge | eq | ne | and | or => cases h

theorem UnaryOp.ofInt_exact_toInt (op : UnaryOp) (x : Int32) :
    Int32.ofInt (op.exact x.toInt) = op.apply x := by
  by_cases h : op.isRing
  · rw [ofInt_exact h, Int32.ofInt_toInt]
  · cases op with
    | not =>
        rw [exact, apply, ofInt_exactTruth]
        simp only [beq_eq_decide, toInt_eq_zero_iff]
    | negate | bitNot => exact absurd rfl h

theorem BinaryOp.ofInt_exact_toInt {op : BinaryOp} {y : Int32}
    (h : op.isShift → 0 ≤ y.toInt ∧ y.toInt ≤ 31) (x : Int32) :
    Int32.ofInt (op.exact x.toInt y.toInt) = op.apply x y := by
  by_cases hring : op.isRing
  · rw [ofInt_exact hring, Int32.ofInt_toInt, Int32.ofInt_toInt]
  · cases op with
    | shl => rw [exact, apply, ofInt_shiftLeft (h rfl), Int32.ofInt_toInt]
    | shr => rw [exact, apply, ← toInt_shiftRight (h rfl), Int32.ofInt_toInt]
    | lt | gt => simp only [exact, apply, ofInt_exactTruth, Int32.lt_iff_toInt_lt]
    | le | ge => simp only [exact, apply, ofInt_exactTruth, Int32.le_iff_toInt_le]
    | eq => simp only [exact, apply, ofInt_exactTruth, beq_eq_decide, Int32.toInt_inj]
    | ne => simp only [exact, apply, ofInt_exactTruth, bne, beq_eq_decide, Int32.toInt_inj]
    | and | or =>
        simp only [exact, apply, ofInt_exactTruth, bne, beq_eq_decide, toInt_eq_zero_iff]
    | mul | add | sub | bitAnd | bitXor | bitOr => exact absurd rfl hring

theorem BinaryOp.exactShortcut_toInt (op : BinaryOp) (x : Int32) :
    op.exactShortcut x.toInt = (op.shortcut x).map Int32.toInt := by
  cases op with
  | and | or =>
      simp only [exactShortcut, shortcut, toInt_eq_zero_iff]
      split <;> rfl
  | _ => rfl

theorem DivisionOp.ofInt_exact_toInt (op : DivisionOp) (x y : Int32) :
    Int32.ofInt (op.exact x.toInt y.toInt) = op.apply x y := by
  have hx := And.intro x.minValue_le_toInt x.toInt_le
  have hy := And.intro y.minValue_le_toInt y.toInt_le
  cases op with
  | quotient =>
      rw [exact, apply, Int32.ofInt_tdiv hx.1 hx.2 hy.1 hy.2, Int32.ofInt_toInt, Int32.ofInt_toInt]
  | remainder =>
      rw [exact, apply, Int32.ofInt_tmod hx.1 hx.2 hy.1 hy.2, Int32.ofInt_toInt, Int32.ofInt_toInt]

end MessageCatalog.Plural
