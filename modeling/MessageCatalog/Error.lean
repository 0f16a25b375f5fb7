/-! Failures as a caller sees them: a broad kind and one line of text.

Each stage reports its own causes; a cause becomes an `Error` only where it leaves the library. -/

namespace MessageCatalog

inductive ErrorKind where
  | catalogFormat
  | pluralForm
  | configuration
deriving DecidableEq, Repr

inductive Error where
  | catalogFormat (text : String)
  /-- `length` bytes at `offset` do not lie inside a buffer of `size` bytes. -/
  | outOfBounds (offset length size : Nat)
  | pluralForm (text : String)
  | configuration (text : String)
deriving DecidableEq, Repr

namespace Error

def kind : Error → ErrorKind
  | catalogFormat _ => .catalogFormat
  | outOfBounds .. => .catalogFormat
  | pluralForm _ => .pluralForm
  | configuration _ => .configuration

def message : Error → String
  | catalogFormat text => s!"Catalog format error: {text}"
  | outOfBounds offset length size =>
      s!"Catalog format error: range {offset}..{offset}+{length} exceeds buffer of {size} bytes"
  | pluralForm text => s!"Plural form error: {text}"
  | configuration text => s!"Configuration error: {text}"

end Error

end MessageCatalog
