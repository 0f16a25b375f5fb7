import MessageCatalog.Text.Scan

/-! Blanks, comments, strings and keys of TOML, for the reader of settings. -/

namespace MessageCatalog.Settings.Toml

open Text Text.Scan

def isSpace (c : Char) : Bool :=
  c == ' ' || c == '\t'

/-- Characters that comments and strings may hold as they are, but for quotes and backslashes. -/
def isPlain (c : Char) : Bool :=
  c == '\t' || (' ' ≤ c && c ≤ '~') || '\x80' ≤ c

def spaces : Scan Unit :=
  discard (run isSpace)

def newline : Scan Unit :=
  word "\n" <|> word "\r\n"

def comment : Scan Unit :=
  char '#' <* run isPlain

/-- What may stand between the items of an array. -/
def gaps : Scan Unit :=
  discard (many (discard (run1 isSpace) <|> newline <|> (comment *> newline)))

/-! ### Strings -/

def escape : Scan Char := do
  char '\\'
  let c ← satisfy fun _ => true
  match c with
  | 'b' => return '\x08'
  | 't' => return '\t'
  | 'n' => return '\n'
  | 'f' => return '\x0c'
  | 'r' => return '\r'
  | '"' => return '"'
  | '\\' => return '\\'
  | 'u' => scalar? (← hexNumber 4)
  | 'U' => scalar? (← hexNumber 8)
  | _ => failure

def basicString : Scan String := do
  char '"'
  let cs ← many (escape <|> satisfy fun c => isPlain c && c != '"' && c != '\\')
  char '"'
  return .ofList cs

def literalString : Scan String := do
  char '\x27'
  let cs ← run fun c => isPlain c && c != '\x27'
  char '\x27'
  return .ofList cs

/-- A backslash that ends a line joins it to the next text, whatever blanks and lines come before
that. -/
def lineJoin : Scan Unit := do
  char '\\'
  spaces
  newline
  discard (many (discard (run1 isSpace) <|> newline))

/-- Quotes inside a block: not so many that they could end it. -/
def innerQuotes (quote : Char) : Scan (List Char) := do
  let quotes ← run1 (· == quote)
  if quotes.length ≤ 2 then return quotes else failure

/-- The three quotes that end a block, and up to two that belong to it still. -/
def lastQuotes (quote : Char) : Scan (List Char) := do
  let quotes ← run1 (· == quote)
  if 3 ≤ quotes.length ∧ quotes.length ≤ 5 then return quotes.drop 3 else failure

/-- A string over several lines, whose pieces are `piece`. A line break right after its first quotes
is no part of it, and every other one is a line feed. -/
def block (quote : Char) (piece : Scan (List Char)) : Scan String := do
  discard (times (char quote) 3)
  discard (optional newline)
  let pieces ← many (piece <|> (newline *> pure ['\n']) <|> innerQuotes quote)
  return .ofList (pieces.flatten ++ (← lastQuotes quote))

def basicBlock : Scan String :=
  block '"'
    (run1 (fun c => isPlain c && c != '"' && c != '\\') <|> (lineJoin *> pure [])
      <|> (List.singleton <$> escape))

def literalBlock : Scan String :=
  block '\x27' (run1 fun c => isPlain c && c != '\x27')

def string : Scan String :=
  basicBlock <|> literalBlock <|> basicString <|> literalString

/-! ### Keys -/

def simpleKey : Scan String :=
  basicString <|> literalString
    <|> (String.ofList <$> run1 fun c => c.isAlphanum || c == '-' || c == '_')

/-- Neither keys nor values nest this deep. -/
def nestingLimit : Nat := 80

/-- Keys with points between them, and blanks around each. -/
def dottedKey : Scan (List String) := do
  let keys ← sepBy1 (spaces *> simpleKey <* spaces) (char '.')
  if keys.length < nestingLimit then return keys else failure

end MessageCatalog.Settings.Toml
