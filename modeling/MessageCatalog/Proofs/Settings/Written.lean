import Mathlib.Data.List.Basic
import MessageCatalog.Proofs.Text.Scan
import MessageCatalog.Settings.Field

/-! # Values as files hold them

Values are written in a way that both formats read: strings in double quotes, numbers in decimal
digits. An empty array stands for a value that no field holds. -/

namespace MessageCatalog.Settings

open Text Text.Scan

/-! ## Strings -/

/-- Characters that stand in a string as they are. -/
def IsLiteral (c : Char) : Prop :=
  ' ' ≤ c ∧ c ≠ '"' ∧ c ≠ '\\' ∧ c ≠ '\x7f'

instance (c : Char) : Decidable (IsLiteral c) :=
  inferInstanceAs (Decidable (_ ∧ _))

/-- The other characters are written by their code points. -/
def quotedChar (c : Char) : List Char :=
  if IsLiteral c then [c]
  else ['\\', 'u', '0', '0', Nat.digitChar (c.toNat / 16), Nat.digitChar (c.toNat % 16)]

def quoted (text : String) : List Char :=
  '"' :: (text.toList.flatMap quotedChar ++ ['"'])

theorem quoted_append (text : String) (rest : List Char) :
    quoted text ++ rest = '"' :: (text.toList.flatMap quotedChar ++ '"' :: rest) := by
  simp [quoted]

theorem toNat_lt_of_not_isLiteral {c : Char} (h : ¬ IsLiteral c) : c.toNat < 128 := by
  by_cases hspace : ' ' ≤ c
  · by_cases hquote : c = '"'
    · subst hquote
      decide
    by_cases hescape : c = '\\'
    · subst hescape
      decide
    by_cases hdelete : c = '\x7f'
    · subst hdelete
      decide
    exact absurd ⟨hspace, hquote, hescape, hdelete⟩ h
  · have hlt : c.toNat < 32 := UInt32.lt_iff_toNat_lt.mp (Char.not_le.mp hspace)
    omega

theorem hexDigit?_digitChar {d : Nat} (h : d < 16) : hexDigit? (Nat.digitChar d) = some d := by
  revert d
  decide

theorem hexNumber_append {digits : List Char} (h : ∀ c ∈ digits, (hexDigit? c).isSome = true)
    (rest : List Char) :
    hexNumber digits.length (digits ++ rest) = some (valueInBase 16 digits, rest) :=
  map_of_some (f := valueInBase 16) (times_satisfy h rest)

theorem hexNumber_byte {k : Nat} (hk : k < 256) (rest : List Char) :
    hexNumber 4 ('0' :: '0' :: Nat.digitChar (k / 16) :: Nat.digitChar (k % 16) :: rest) =
      some (k, rest) := by
  have hzero : hexDigit? '0' = some 0 := rfl
  have hhigh := hexDigit?_digitChar (d := k / 16) (by omega)
  have hlow := hexDigit?_digitChar (d := k % 16) (by omega)
  have hdigits : ∀ c ∈ ['0', '0', Nat.digitChar (k / 16), Nat.digitChar (k % 16)],
      (hexDigit? c).isSome = true := by
    simp [hzero, hhigh, hlow]
  have hvalue : valueInBase 16 ['0', '0', Nat.digitChar (k / 16), Nat.digitChar (k % 16)] = k := by
    simp only [valueInBase, List.foldl_cons, List.foldl_nil, hzero, hhigh, hlow, Option.getD_some]
    omega
  have hread := hexNumber_append hdigits rest
  rw [hvalue] at hread
  exact hread

theorem quotedChar_ne_nil (c : Char) : quotedChar c ≠ [] := by
  unfold quotedChar
  split <;> simp

/-- A string is read to its closing quote if its characters are read. -/
theorem many_quoted {β : Type} {a : Scan β} {f : Char → β}
    (h : ∀ c rest, a (quotedChar c ++ rest) = some (f c, rest))
    (hstop : ∀ rest, a ('"' :: rest) = none) (cs rest : List Char) :
    many a (cs.flatMap quotedChar ++ '"' :: rest) = some (cs.map f, '"' :: rest) :=
  many_flatMap (fun _ => True) (fun c _ rest _ => h c rest) (fun _ _ _ => trivial)
    (fun c _ => quotedChar_ne_nil c) trivial (hstop rest)

theorem scalar?_toNat (c : Char) : scalar? c.toNat = some c := by
  have hvalid : c.toNat.isValidChar := c.valid
  rw [scalar?, if_pos hvalid, Char.ofNat_toNat]

/-! ## Numbers -/

/-- The digits of a number: one at least, and no zero in front of others. -/
structure Numeral (digits : List Char) : Prop where
  ne_nil : digits ≠ []
  isDigit : ∀ c ∈ digits, c.isDigit = true
  head : digits.head? = some '0' → digits = ['0']

theorem Numeral.head?_append_ne {digits : List Char} (h : Numeral digits) {c : Char}
    (hc : c.isDigit = false) (rest : List Char) : (digits ++ rest).head? ≠ some c := by
  obtain ⟨d, ds, rfl⟩ := List.exists_cons_of_ne_nil h.ne_nil
  rintro ⟨⟩
  rw [h.isDigit c List.mem_cons_self] at hc
  cases hc

theorem numeral_toDigits (k : Nat) : Numeral (Nat.toDigits 10 k) where
  ne_nil := Nat.toDigits_ne_nil
  isDigit _ hc := Nat.isDigit_of_mem_toDigits (by decide) (by decide) hc
  head h := by
    have hzero : k = 0 := by
      induction k using Nat.strongRecOn with
      | ind k ih =>
          by_cases hk : k < 10
          · rw [Nat.toDigits_of_lt_base hk] at h
            simpa using h
          · -- The first digit is also the first one of all digits but the last.
            rw [Nat.toDigits_of_base_le (by decide) (by omega),
              List.head?_append_of_ne_nil _ Nat.toDigits_ne_nil] at h
            have htenth := ih (k / 10) (by omega) h
            omega
    rw [hzero, Nat.toDigits_zero]

/-! ## Values -/

def Scalar.written : Scalar → List Char
  | text t => quoted t
  | flag true => "true".toList
  | flag false => "false".toList
  | size k => Nat.toDigits 10 k.toNat
  | other => ['[', ']']

/-- A value starts with no blank. -/
theorem Scalar.exists_written (v : Scalar) : ∃ c cs, v.written = c :: cs ∧ ' ' < c := by
  cases v with
  | text t => exact ⟨_, _, rfl, by decide⟩
  | flag b => cases b <;> exact ⟨_, _, rfl, by decide⟩
  | size k =>
      have h := numeral_toDigits k.toNat
      obtain ⟨c, cs, hcs⟩ := List.exists_cons_of_ne_nil h.ne_nil
      have hdigit := h.isDigit c (hcs ▸ List.mem_cons_self)
      have hle : '0'.val ≤ c.val ∧ c.val ≤ '9'.val := by simpa [Char.isDigit] using hdigit
      exact ⟨c, cs, hcs, Std.lt_of_lt_of_le (b := '0') (by decide) hle.1⟩
  | other => exact ⟨_, _, rfl, by decide⟩

end MessageCatalog.Settings
