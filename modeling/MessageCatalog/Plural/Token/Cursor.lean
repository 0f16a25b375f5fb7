import MessageCatalog.Plural.Token.Basic
import MessageCatalog.Text.Utf8

/-! Reading the tokens of a source one at a time, with one token of lookahead.

A cursor moves forward only. Where a scan fails, the cursor stays in front of the number that is
too large, so that reading on fails in the same way. -/

namespace MessageCatalog.Plural

/-- A run of digits that writes more than a rule can hold. -/
structure NumberTooLarge where
  digits : List Char
  offset : Nat
deriving DecidableEq, Repr

def NumberTooLarge.describe (e : NumberTooLarge) : String :=
  let digits := String.ofList e.digits
  let offset := e.offset
  s!"invalid number '{digits}' at offset {offset}: number too large to fit in target type"

structure Cursor where
  /-- Bytes of the source in front of `rest`. -/
  position : Nat
  rest : List Char
  /-- A token that was looked at and not yet taken, with the offset where it starts. -/
  lookahead : Option (Nat × Token)
deriving DecidableEq, Repr

namespace Cursor

abbrev Read := EStateM NumberTooLarge Cursor

def ofSource (source : List Char) : Cursor :=
  ⟨0, source, none⟩

/-- The cursor after the gap that it stands in front of. -/
def skipGap (c : Cursor) : Cursor :=
  { c with
    position := c.position + Text.utf8Length (c.rest.takeWhile isGap)
    rest := c.rest.dropWhile isGap }

/-- The cursor after the first characters of its rest, which are `spelling`. -/
def skip (c : Cursor) (spelling : List Char) : Cursor :=
  { c with
    position := c.position + Text.utf8Length spelling
    rest := c.rest.drop spelling.length }

/-- Reads the next token of the rest and gives the offset where it starts. -/
def scan : Read (Nat × Token) := fun c =>
  let c := c.skipGap
  match Lexeme.first c.rest with
  | .ok lexeme => .ok (c.position, lexeme.token) (c.skip lexeme.spelling)
  | .error digits => .error ⟨digits, c.position⟩ c

/-- The next token, which stays in place. -/
def peek : Read Token := fun c =>
  match c.lookahead with
  | some (_, token) => .ok token c
  | none =>
      match c.scan with
      | .ok (start, token) c => .ok token { c with lookahead := some (start, token) }
      | .error e c => .error e c

/-- Takes the next token. -/
def advance : Read Token := fun c =>
  match c.lookahead with
  | some (_, token) => .ok token { c with lookahead := none }
  | none =>
      match c.scan with
      | .ok (_, token) c => .ok token c
      | .error e c => .error e c

/-- Where the token that was looked at starts, or else where the last one taken ended. -/
def offset (c : Cursor) : Nat :=
  match c.lookahead with
  | some (start, _) => start
  | none => c.position

theorem lookahead_of_scan {c d : Cursor} {r : Nat × Token} (h : c.scan = .ok r d) :
    d.lookahead = c.lookahead := by
  simp only [scan] at h
  split at h
  · cases h
    rfl
  · cases h

end Cursor

end MessageCatalog.Plural
