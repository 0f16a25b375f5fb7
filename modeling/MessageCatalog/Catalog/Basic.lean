import MessageCatalog.Catalog.Layout

/-! Catalogs: a buffer together with the layout found in it. -/

namespace MessageCatalog

open Bytes Header Plural

structure Catalog where
  data : Array UInt8
  layout : Layout
deriving DecidableEq

namespace Catalog

/-- The catalog without entries, which translates nothing. -/
def empty : Catalog :=
  ⟨#[], .empty⟩

instance : Inhabited Catalog :=
  ⟨empty⟩

def loadWith (settings : Settings) (data : Array UInt8) : Except LoadError Catalog :=
  (Layout.load settings data).map (Catalog.mk data)

def load (data : Array UInt8) : Except LoadError Catalog :=
  loadWith {} data

/-- Messages, that is entries other than the header. -/
def size (c : Catalog) : Nat :=
  c.layout.msgids.size - 1

def isEmpty (c : Catalog) : Bool :=
  c.size == 0

def order (c : Catalog) : ByteOrder :=
  c.layout.order

/-- The msgid of entry `i`. -/
def msgid (c : Catalog) (i : Nat) : List UInt8 :=
  Span.bytesAt c.data c.layout.msgids i

/-- The msgstr of entry `i`. -/
def msgstr (c : Catalog) (i : Nat) : List UInt8 :=
  Span.bytesAt c.data c.layout.msgstrs i

def headerBytes (c : Catalog) : List UInt8 :=
  c.msgstr 0

def header (c : Catalog) : String :=
  .ofList (Text.decodeLossy c.headerBytes)

def metadata (c : Catalog) : Metadata :=
  c.layout.metadata

def rule (c : Catalog) : Option Expr :=
  c.layout.rule

def charset? (c : Catalog) : Option String :=
  c.metadata.charset?

def pluralCount? (c : Catalog) : Option UInt64 :=
  c.metadata.pluralCount?

end Catalog

end MessageCatalog
