import MessageCatalog.Settings.Field
import MessageCatalog.Text.Scan

/-! Settings written in JSON: an object of named fields, or an array of them in order.

Values that no field takes are read for their form alone. In particular a string there may spell
half of a surrogate pair, which is no text and no failure either.

Loading and querying catalogs does not rest on this reader. What holds of it is in
`MessageCatalog.Proofs.Settings.Json`. -/

namespace MessageCatalog.Settings.Json

open Text Text.Scan

inductive Value where
  | null
  | flag (flag : Bool)
  /-- A number as it is written. -/
  | number (literal : List Char)
  /-- A string; there is no text where its escapes do not spell one. -/
  | text (text : Option String)
  | array (items : List Value)
  | object (fields : List (Option String × Value))

def isBlank (c : Char) : Bool :=
  c == ' ' || c == '\n' || c == '\t' || c == '\r'

def blanks : Scan Unit :=
  discard (run isBlank)

/-! ### Strings -/

def simpleEscape? : Char → Option Char
  | '"' => some '"'
  | '\\' => some '\\'
  | '/' => some '/'
  | 'b' => some '\x08'
  | 'f' => some '\x0c'
  | 'n' => some '\n'
  | 'r' => some '\r'
  | 't' => some '\t'
  | _ => none

/-- One character or one escape, as a code point or as half of a surrogate pair. -/
def stringUnit : Scan Nat :=
  (do
    char '\\'
    let c ← satisfy fun _ => true
    if c = 'u' then hexNumber 4
    else
      let plain ← simpleEscape? c
      return plain.toNat)
  <|> (do
    let c ← satisfy fun c => c != '"' && c != '\\' && ' ' ≤ c
    return c.toNat)

/-- The text of code points and surrogate pairs, if no half of a pair stands alone. -/
def textOfUnits? : List Nat → Option (List Char)
  | [] => some []
  | high :: low :: units =>
      if 0xD800 ≤ high ∧ high < 0xDC00 then
        if 0xDC00 ≤ low ∧ low < 0xE000 then do
          let c ← scalar? (0x10000 + (high - 0xD800) * 0x400 + (low - 0xDC00))
          return c :: (← textOfUnits? units)
        else none
      else do
        return (← scalar? high) :: (← textOfUnits? (low :: units))
  | [unit] => do
      return [← scalar? unit]

def string : Scan (Option String) := do
  char '"'
  let units ← many stringUnit
  char '"'
  return (textOfUnits? units).map .ofList

/-! ### Numbers -/

def digits : Scan (List Char) :=
  run1 Char.isDigit

/-- A part of a number that may be left out. -/
def orNothing (a : Scan (List Char)) : Scan (List Char) :=
  a <|> pure []

/-- A number has no leading zeros, and digits on both sides of its point. -/
def number : Scan (List Char) := do
  let sign ← orNothing (char '-' *> pure ['-'])
  let whole ← (char '0' *> pure ['0']) <|> digits
  let fraction ← orNothing (do
    char '.'
    return '.' :: (← digits))
  let exponent ← orNothing (do
    let e ← satisfy fun c => c == 'e' || c == 'E'
    let sign ← orNothing (List.singleton <$> satisfy fun c => c == '+' || c == '-')
    return e :: sign ++ (← digits))
  return sign ++ whole ++ fraction ++ exponent

/-! ### Values -/

/-- Items between brackets, separated by commas. -/
def listed {α : Type} (left right : Char) (item : Scan α) : Scan (List α) := do
  char left
  blanks
  let items ← sepBy (item <* blanks) (char ',' <* blanks)
  char right
  return items

/-- A value in which arrays and objects nest fewer than `depth` deep. -/
def value : (depth : Nat) → Scan Value
  | 0 => failure
  | depth + 1 =>
      (word "null" *> pure .null)
      <|> (word "true" *> pure (.flag true))
      <|> (word "false" *> pure (.flag false))
      <|> (.text <$> string)
      <|> (.array <$> listed '[' ']' (value depth))
      <|> (.object <$> listed '{' '}' (do
        let key ← string
        blanks
        char ':'
        blanks
        return (key, ← value depth)))
      <|> (.number <$> number)

/-- The value that a text holds. It cannot nest deeper than the text is long. -/
def parse? (text : List Char) : Option Value :=
  (blanks *> value (text.length + 1) <* blanks).all text

def Value.scalar : Value → Scalar
  | flag b => .flag b
  | text (some t) => .text t
  | number literal => (unsigned? literal).elim .other .size
  | _ => .other

/-- The settings that a value holds. Every name in an object has to be text. -/
def Value.settings? : Value → Option Settings
  | array items =>
      if items.length ≤ Field.all.length then ofFields? (Field.all.zip (items.map scalar)) else none
  | object fields => do
      ofNamed? (← fields.mapM fun (name, v) => do return (← name, v.scalar))
  | _ => none

end MessageCatalog.Settings.Json
