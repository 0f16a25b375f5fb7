import MessageCatalog.Catalog.Lookup

/-! Queries for translated messages, of bytes and of text.

A message that is missing or untranslated falls back to the caller's own words, and so does one
whose msgstr is not UTF-8 when text is asked for. The queries whose names begin with `try` report
a plural rule that fails; the others fall back there too. -/

namespace MessageCatalog.Catalog

open Plural

/-- What a caller shows for an untranslated message: the singular for one, else the plural. -/
def defaultForm {α : Type} (msgid plural : α) (n : Int32) : α :=
  if n = 1 then msgid else plural

def gettextBytes (c : Catalog) (msgid : List UInt8) : List UInt8 :=
  (c.singular? msgid).getD msgid

def tryNgettextBytes (c : Catalog) (msgid plural : List UInt8) (n : Int32) :
    Except EvalError (List UInt8) :=
  (c.variant? msgid n).map fun found => found.getD (defaultForm msgid plural n)

def ngettextBytes (c : Catalog) (msgid plural : List UInt8) (n : Int32) : List UInt8 :=
  (c.tryNgettextBytes msgid plural n).toOption.getD (defaultForm msgid plural n)

def gettext (c : Catalog) (msgid : String) : String :=
  ((c.singular? (Text.encode msgid)).bind Text.decode?).getD msgid

def tryNgettext (c : Catalog) (msgid plural : String) (n : Int32) : Except EvalError String :=
  (c.variant? (Text.encode msgid) n).map fun found =>
    (found.bind Text.decode?).getD (defaultForm msgid plural n)

def ngettext (c : Catalog) (msgid plural : String) (n : Int32) : String :=
  (c.tryNgettext msgid plural n).toOption.getD (defaultForm msgid plural n)

/-- What a message in a context is filed under: the two are separated by U+0004. -/
def contextKey (context msgid : String) : String :=
  context ++ "\x04" ++ msgid

def pgettext (c : Catalog) (context msgid : String) : String :=
  ((c.singular? (Text.encode (contextKey context msgid))).bind Text.decode?).getD msgid

def npgettext (c : Catalog) (context msgid plural : String) (n : Int32) : String :=
  let found := (c.variant? (Text.encode (contextKey context msgid)) n).toOption.join
  (found.bind Text.decode?).getD (defaultForm msgid plural n)

end MessageCatalog.Catalog
