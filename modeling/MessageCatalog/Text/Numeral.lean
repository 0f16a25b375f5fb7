/-! Numerals and their values. -/

namespace MessageCatalog.Text

/-- The number that the decimal digits `cs` write, with any number of leading zeros. -/
def decimalValue (cs : List Char) : Nat :=
  Nat.ofDigitChars 10 cs 0

theorem decimalValue_toDigits (n : Nat) : decimalValue (Nat.toDigits 10 n) = n :=
  Nat.ofDigitChars_ten_toDigits

def withoutPlus : List Char → List Char
  | '+' :: cs => cs
  | cs => cs

/-- The 64-bit number that `cs` writes: an optional plus sign and at least one digit. -/
def unsigned? (cs : List Char) : Option UInt64 :=
  let digits := withoutPlus cs
  if digits ≠ [] ∧ digits.all Char.isDigit ∧ decimalValue digits < UInt64.size then
    some (UInt64.ofNat (decimalValue digits))
  else none

theorem withoutPlus_of_isDigit {cs : List Char} (h : ∀ c ∈ cs, c.isDigit) : withoutPlus cs = cs := by
  unfold withoutPlus
  split
  · exact absurd (h '+' (by simp)) (by decide)
  · rfl

/-- Digits without a sign write the number that they have for their value. -/
theorem unsigned?_toDigits (k : UInt64) : unsigned? (Nat.toDigits 10 k.toNat) = some k := by
  have hd : ∀ c ∈ Nat.toDigits 10 k.toNat, c.isDigit := fun c hc =>
    Nat.isDigit_of_mem_toDigits (by decide) (by decide) hc
  simp only [unsigned?, withoutPlus_of_isDigit hd, decimalValue_toDigits]
  rw [if_pos ⟨Nat.toDigits_ne_nil, List.all_eq_true.2 hd, k.toNat_lt_size⟩]
  simp

/-- The value of a hexadecimal digit. -/
def hexDigit? (c : Char) : Option Nat :=
  if c.isDigit then some (c.toNat - '0'.toNat)
  else if 'a' ≤ c ∧ c ≤ 'f' then some (c.toNat - 'a'.toNat + 10)
  else if 'A' ≤ c ∧ c ≤ 'F' then some (c.toNat - 'A'.toNat + 10)
  else none

/-- The number that digits write in a base up to sixteen. -/
def valueInBase (base : Nat) (digits : List Char) : Nat :=
  digits.foldl (fun acc c => base * acc + (hexDigit? c).getD 0) 0

/-- The eight hexadecimal digits of a word. -/
def hexWord (word : UInt32) : String :=
  let digits := Nat.toDigits 16 word.toNat
  .ofList (List.replicate (8 - digits.length) '0' ++ digits)

end MessageCatalog.Text
