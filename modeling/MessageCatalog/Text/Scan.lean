import MessageCatalog.Text.Numeral

/-! Reading a text from its start. A scan that fails leaves the text to its alternatives. -/

namespace MessageCatalog.Text

abbrev Scan := StateT (List Char) Option

namespace Scan

/-- Takes the next character if it passes. -/
def satisfy (p : Char → Bool) : Scan Char
  | [] => none
  | c :: cs => if p c then some (c, cs) else none

def char (c : Char) : Scan Unit :=
  discard (satisfy (· == c))

/-- Takes the characters of `w`. -/
def word (w : String) : Scan Unit := fun cs =>
  if w.toList.isPrefixOf cs then some ((), cs.drop w.length) else none

/-- Takes all characters that pass, up to the first that does not. -/
def run (p : Char → Bool) : Scan (List Char) := fun cs =>
  some (cs.span p)

/-- As `run`, for one character at least. -/
def run1 (p : Char → Bool) : Scan (List Char) := do
  let taken ← run p
  if taken = [] then failure else return taken

/-- Takes `a` at most `n` times. -/
def upTo {α : Type} (a : Scan α) : Nat → Scan (List α)
  | 0 => pure []
  | n + 1 => (do
      let x ← a
      return x :: (← upTo a n)) <|> pure []

/-- Takes `a` for as long as it goes, each time taking a character at least. -/
def many {α : Type} (a : Scan α) : Scan (List α) := fun cs =>
  upTo a cs.length cs

/-- Takes `a` exactly `n` times. -/
def times {α : Type} (a : Scan α) : Nat → Scan (List α)
  | 0 => pure []
  | n + 1 => do
      let x ← a
      return x :: (← times a n)

def sepBy1 {α β : Type} (a : Scan α) (separator : Scan β) : Scan (List α) := do
  let x ← a
  return x :: (← many (separator *> a))

def sepBy {α β : Type} (a : Scan α) (separator : Scan β) : Scan (List α) :=
  sepBy1 a separator <|> pure []

/-- What `a` makes of the whole text. -/
def all {α : Type} (a : Scan α) (text : List Char) : Option α :=
  match a text with
  | some (x, []) => some x
  | _ => none

end Scan

/-- The number that the next `n` characters write in hexadecimal. -/
def hexNumber (n : Nat) : Scan Nat := do
  return valueInBase 16 (← Scan.times (Scan.satisfy fun c => (hexDigit? c).isSome) n)

/-- The character with the code point, unless it is a surrogate or beyond the last one. -/
def scalar? (codePoint : Nat) : Option Char :=
  if codePoint.isValidChar then some (Char.ofNat codePoint) else none

end MessageCatalog.Text
