import MessageCatalog.Settings.Toml.Lexical
import MessageCatalog.Settings.Toml.Number
import MessageCatalog.Settings.Toml.Table

/-! Settings written in TOML: the fields are keys of the root table.

The whole document has to be well-formed, and other keys are passed over.

Loading and querying catalogs does not rest on this reader. What holds of it is in
`MessageCatalog.Proofs.Settings.Toml` and `MessageCatalog.Proofs.Settings.Table`. -/

namespace MessageCatalog.Settings.Toml

open Text Text.Scan

/-- The size that an integer gives. -/
def sizeOfInteger (k : Int) : Scalar :=
  if 0 ≤ k then .size (UInt64.ofNat k.toNat) else .other

/-- A value that holds no other values. -/
def atom : Scan Scalar :=
  (.text <$> string)
  <|> (word "true" *> pure (.flag true))
  <|> (word "false" *> pure (.flag false))
  <|> (dateTime *> pure .other)
  <|> (float *> pure .other)
  <|> (specialFloat *> pure .other)
  <|> (sizeOfInteger <$> integer)

/-- A key with its value. -/
def pair (value : Scan Scalar) : Scan (List String × Scalar) := do
  let keys ← dottedKey
  char '='
  spaces
  return (keys, ← value)

/-- Items between brackets; a comma may follow the last one, and lines may end anywhere. -/
def array (value : Scan Scalar) : Scan Scalar := do
  char '['
  gaps
  discard (optional (sepBy1 (value <* gaps) (char ',' <* gaps) <* optional (char ',' <* gaps)))
  char ']'
  return .other

/-- Pairs between braces, on one line and without a comma after the last one. -/
def inlineTable (value : Scan Scalar) : Scan Scalar := do
  char '\x7b'
  spaces
  let pairs ← sepBy (pair value <* spaces) (char ',')
  spaces
  char '\x7d'
  discard (pairs.foldlM (fun entries (keys, v) => assign keys v .header entries) [] : Option Entries)
  return .other

/-- A value in which arrays and tables nest at most `depth` deep. -/
def value : (depth : Nat) → Scan Scalar
  | 0 => atom
  | depth + 1 => atom <|> array (value depth) <|> inlineTable (value depth)

/-- A line of a document. -/
inductive Line where
  | blank
  | assign (keys : List String) (value : Scalar)
  | header (keys : List String)
  | arrayHeader (keys : List String)

def line : Scan Line := do
  spaces
  let line ←
    (do
      let (keys, v) ← pair (value (nestingLimit - 1))
      return Line.assign keys v)
    <|> (Line.arrayHeader <$> (word "[[" *> dottedKey <* word "]]"))
    <|> (Line.header <$> (char '[' *> dottedKey <* char ']'))
    <|> pure .blank
  spaces
  discard (optional comment)
  return line

def lines : Scan (List Line) := do
  discard (optional (char '\uFEFF'))
  sepBy1 line newline

/-- The root table, and the path of the table that lines without a header belong to. -/
structure Document where
  root : Entries
  current : List String

def Document.add (d : Document) : Line → Option Document
  | .blank => some d
  | .assign keys v => do
      return { d with root := ← change .implied (assign keys v) d.current .header d.root }
  | .header keys => do
      return { root := ← declare openTable keys d.root, current := keys }
  | .arrayHeader keys => do
      return { root := ← declare openNextTable keys d.root, current := keys }

def parse? (text : List Char) : Option Entries := do
  return (← (← lines.all text).foldlM Document.add ⟨[], []⟩).root

def settings? (root : Entries) : Option Settings :=
  ofNamed? (root.map fun (key, node) => (key, node.scalar))

end MessageCatalog.Settings.Toml
