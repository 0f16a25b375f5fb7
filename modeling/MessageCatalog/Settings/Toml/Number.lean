import MessageCatalog.Text.Scan

/-! Numbers, dates and times of TOML, for the reader of settings. Dates, times and floating-point
numbers are read for their form alone. -/

namespace MessageCatalog.Settings.Toml

open Text Text.Scan

/-! ### Integers -/

/-- Digits with at most single underscores between them, which are left out. -/
def digitRun (p : Char → Bool) : Scan (List Char) := do
  let first ← satisfy p
  return first :: (← many (satisfy p <|> (char '_' *> satisfy p)))

/-- A sign, and whether it is a minus. -/
def sign : Scan Bool :=
  (char '-' *> pure true) <|> (char '+' *> pure false) <|> pure false

/-- Decimal digits without leading zeros. -/
def wholeDigits : Scan (List Char) :=
  (do
    let digits ← digitRun Char.isDigit
    if digits.length > 1 ∧ digits.head? = some '0' then failure else return digits)
  <|> (char '0' *> pure ['0'])

def decimal : Scan Int := do
  let negative ← sign
  let k := decimalValue (← wholeDigits)
  return if negative then -(k : Int) else k

/-- A number after the mark of its base. -/
def inBase (mark : String) (base : Nat) : Scan Int := do
  word mark
  let digits ← digitRun fun c => (hexDigit? c).any (· < base)
  return valueInBase base digits

/-- A signed number of 64 bits. -/
def integer : Scan Int := do
  let k ← inBase "0x" 16 <|> inBase "0o" 8 <|> inBase "0b" 2 <|> decimal
  if Int64.minValue.toInt ≤ k ∧ k ≤ Int64.maxValue.toInt then return k else failure

/-! ### Floating-point numbers -/

/-- Whether `mantissa * 10 ^ exponent` rounds to a number beyond the largest of the binary64
format. -/
def overflows (mantissa : Nat) (exponent : Int) : Bool :=
  let digits : Int := (Nat.toDigits 10 mantissa).length
  if mantissa = 0 ∨ digits + exponent < 300 then false
  else if 320 < digits + exponent then true
  else
    let limit := Nat.pow 2 1024 - Nat.pow 2 970
    if 0 ≤ exponent then limit ≤ mantissa * Nat.pow 10 exponent.toNat
    else limit * Nat.pow 10 (-exponent).toNat ≤ mantissa

def exponentPart : Scan Int := do
  discard (satisfy fun c => c == 'e' || c == 'E')
  let negative ← sign
  let k := decimalValue (← digitRun Char.isDigit)
  return if negative then -(k : Int) else k

/-- A number with a fraction or an exponent, which is not too large. A negative one may have any
size. -/
def float : Scan Unit := do
  let negative ← sign
  let whole ← wholeDigits
  let fraction ← optional (char '.' *> digitRun Char.isDigit)
  let exponent ← optional exponentPart
  if fraction.isNone ∧ exponent.isNone then failure
  let fraction := fraction.getD []
  let mantissa := decimalValue (whole ++ fraction)
  if !negative ∧ overflows mantissa (exponent.getD 0 - fraction.length) then failure

/-- Infinity and not-a-number. -/
def specialFloat : Scan Unit := do
  discard sign
  word "inf" <|> word "nan"

/-! ### Dates and times -/

/-- Exactly `n` digits that write a number from `low` to `high`. -/
def numberBetween (n low high : Nat) : Scan Nat := do
  let k := decimalValue (← times (satisfy Char.isDigit) n)
  if low ≤ k ∧ k ≤ high then return k else failure

def isLeapYear (year : Nat) : Bool :=
  year % 4 == 0 && (year % 100 != 0 || year % 400 == 0)

def daysInMonth (year month : Nat) : Nat :=
  if month = 2 then (if isLeapYear year then 29 else 28)
  else if month = 4 ∨ month = 6 ∨ month = 9 ∨ month = 11 then 30
  else 31

def date : Scan Unit := do
  let year ← numberBetween 4 0 9999
  char '-'
  let month ← numberBetween 2 1 12
  char '-'
  discard (numberBetween 2 1 (daysInMonth year month))

/-- Seconds may count to 60, for a leap second, and have a fraction. -/
def time : Scan Unit := do
  discard (numberBetween 2 0 23)
  char ':'
  discard (numberBetween 2 0 59)
  char ':'
  discard (numberBetween 2 0 60)
  discard (optional (char '.' *> run1 Char.isDigit))

def zone : Scan Unit :=
  discard (satisfy fun c => c == 'Z' || c == 'z')
  <|> (do
    discard (satisfy fun c => c == '+' || c == '-')
    discard (numberBetween 2 0 23)
    char ':'
    discard (numberBetween 2 0 59))

/-- A date, a time of day, or both with or without a zone. -/
def dateTime : Scan Unit :=
  (do
    date
    discard (optional (do
      discard (satisfy fun c => c == 'T' || c == 't' || c == ' ')
      time
      optional zone)))
  <|> time

end MessageCatalog.Settings.Toml
