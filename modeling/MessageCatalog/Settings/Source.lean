import MessageCatalog.Error
import MessageCatalog.Settings.Json
import MessageCatalog.Settings.Toml.Document
import MessageCatalog.Text.Utf8

/-! Settings from texts and files in either format.

What a catalog owes to its settings is in `MessageCatalog.Proofs.Catalog.Settings`, and does not
depend on how these were read. -/

namespace MessageCatalog.Settings

inductive Format where
  | toml
  | json
deriving DecidableEq, Repr

def Format.name : Format → String
  | toml => "TOML"
  | json => "JSON"

inductive SourceError where
  | malformed (format : Format)
  /-- The file is missing, or what it holds is not UTF-8. -/
  | unreadable (format : Format) (path : String)
deriving DecidableEq, Repr

namespace SourceError

def describe : SourceError → String
  | malformed format => s!"Failed to parse {format.name}:"
  | unreadable format path => s!"Failed to read {format.name} file '{path}':"

def toError (e : SourceError) : Error :=
  .configuration e.describe

end SourceError

def parse? (text : String) : Format → Option Settings
  | .toml => Toml.parse? text.toList >>= Toml.settings?
  | .json => Json.parse? text.toList >>= Json.Value.settings?

/-- Settings from a text. Fields that it does not give keep their defaults. -/
def ofText (format : Format) (text : String) : Except SourceError Settings :=
  (parse? text format).elim (.error (.malformed format)) .ok

/-- Settings from the file at `path`, which holds `content` if it exists. -/
def ofFile (format : Format) (path : String) (content : Option (List UInt8)) :
    Except SourceError Settings :=
  match content >>= Text.decode? with
  | some text => ofText format text
  | none => .error (.unreadable format path)

end MessageCatalog.Settings
