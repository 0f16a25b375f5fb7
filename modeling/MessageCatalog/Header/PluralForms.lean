import MessageCatalog.Text.Cut

/-! The source of the plural rule in a catalog's header.

Its line is found by how it starts, letter by letter, and of several such lines only the first
counts. -/

namespace MessageCatalog.Header

/-- What follows the marker of the plural rule, up to the end of its field. -/
def ruleOfLine? (line : List Char) : Option (List Char) := do
  let rest ← Text.after? "plural=".toList line
  return rest.takeWhile fun c => c != ';' && c != '\r'

def pluralSource? (header : String) : Option String := do
  let line ← (header.toList.splitOn '\n').find? fun line => "Plural-Forms:".toList.isPrefixOf line
  return .ofList (← ruleOfLine? line)

end MessageCatalog.Header
