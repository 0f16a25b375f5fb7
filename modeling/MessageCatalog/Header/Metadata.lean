import MessageCatalog.Text.Blank
import MessageCatalog.Text.Cut
import MessageCatalog.Text.Numeral

/-! The lines `key: value` of a catalog's header.

Lines end at line feeds. A carriage return before one is white space like any other at the ends of a
value, and goes with it. -/

namespace MessageCatalog.Header

structure Metadata where
  /-- Keys and values in the order of their lines; a key may occur again. -/
  entries : List (String × String)
deriving DecidableEq, Repr

namespace Metadata

/-- The entry of a line: its parts before and after the first colon, trimmed. A line without a
colon or without a key has none. -/
def entry? (line : List Char) : Option (String × String) := do
  let (key, value) ← Text.cut? ':' line
  let key := Text.trim key
  if key = [] then none else some (.ofList key, .ofList (Text.trim value))

def parse (header : String) : Metadata :=
  ⟨(header.toList.splitOn '\n').filterMap entry?⟩

/-- One line for each entry. -/
def render (m : Metadata) : String :=
  String.join (m.entries.map fun (key, value) => s!"{key}: {value}\n")

/-- Whether the keys differ in the case of ASCII letters at most. -/
def sameKey (a b : String) : Bool :=
  a.toList.map Char.toLower == b.toList.map Char.toLower

/-- The value of the first entry with the key. -/
def get? (m : Metadata) (key : String) : Option String :=
  (m.entries.find? fun e => sameKey e.1 key).map Prod.snd

def size (m : Metadata) : Nat :=
  m.entries.length

def isEmpty (m : Metadata) : Bool :=
  m.entries.isEmpty

/-- The parameter `charset` of the content type, which ends at a semicolon or white space. -/
def charset? (m : Metadata) : Option String := do
  let contentType ← m.get? "Content-Type"
  let rest ← Text.after? "charset=".toList contentType.toList
  let name := rest.takeWhile fun c => c != ';' && !Text.isBlank c
  if name = [] then none else some (.ofList name)

/-- The number of plural forms that the header announces. -/
def pluralCount? (m : Metadata) : Option UInt64 := do
  let forms ← m.get? "Plural-Forms"
  let rest ← Text.after? "nplurals=".toList forms.toList
  Text.unsigned? (rest.takeWhile Char.isDigit)

end Metadata

end MessageCatalog.Header
