import MessageCatalog.Bytes.Cluster
import MessageCatalog.Bytes.Reader
import MessageCatalog.Header.Metadata
import MessageCatalog.Header.PluralForms
import MessageCatalog.Plural.Expr.Parse
import MessageCatalog.Settings.Basic
import MessageCatalog.Text.Utf8

/-! Where a catalog's buffer holds its messages, and what its header says.

```
 0  magic number 0x950412de, which tells the byte order
 4  format revision, 0
 8  number of entries
12  offset of the table of msgids
16  offset of the table of msgstrs
```

A program asks for a msgid and shows the msgstr of the same entry. Each table holds a length and an
offset for every entry, and the msgstr of entry 0 is the header. -/

namespace MessageCatalog

open Bytes Header Plural

inductive Table where
  | msgids
  | msgstrs
deriving DecidableEq, Repr

namespace Table

def name : Table → String
  | msgids => "original"
  | msgstrs => "translated"

/-- Where the header of the buffer gives the table's offset. -/
def field : Table → UInt64
  | msgids => 12
  | msgstrs => 16

end Table

/-- Why a buffer is no catalog. -/
inductive LoadError where
  | tooShort (size : Nat)
  | badMagic (word : UInt32)
  | bigEndianRefused
  | badRevision (revision : Int32)
  | noEntries
  | read (cause : ReadError)
  | tableOverflow (table : Table)
  | outside (table : Table) (index : Nat) (length offset : UInt64) (size : Nat)
  | emptyMsgid (index : Nat)
  | unsorted (index : Nat)
  | rule (cause : SyntaxError)
deriving DecidableEq, Repr

def magic : UInt32 := 0x950412de

/-- The magic number with its bytes in the other order. -/
def swappedMagic : UInt32 := 0xde120495

def headerSize : Nat := 20

/-- Bytes of one entry of a table. -/
def entrySize : UInt64 := 8

namespace LoadError

def toError : LoadError → Error
  | tooShort size =>
      .catalogFormat s!"catalog is {size} bytes, shorter than the {headerSize}-byte header"
  | badMagic word => .catalogFormat s!"bad magic number 0x{Text.hexWord word}"
  | bigEndianRefused => .catalogFormat "big-endian catalog rejected by settings"
  | badRevision revision => .catalogFormat s!"unsupported format revision {revision.toInt}"
  | noEntries => .catalogFormat "catalog has no entries; entry 0 must hold the header"
  | read cause => cause.toError
  | tableOverflow table => .catalogFormat s!"{table.name} table size overflows"
  | outside table index length offset size =>
      let range := s!"{length.toNat} bytes at {offset.toNat}"
      .catalogFormat s!"{table.name} message {index} ({range}) is outside the {size}-byte catalog"
  | emptyMsgid index => .catalogFormat s!"original message {index} is empty"
  | unsorted index => .catalogFormat s!"original messages are not sorted at entry {index}"
  | rule cause => cause.toError

end LoadError

/-- The bytes of a buffer from `start` up to `stop`. -/
structure Span where
  start : UInt64
  stop : UInt64
deriving DecidableEq, Repr

def Span.bytes (data : Array UInt8) (s : Span) : List UInt8 :=
  (data.extract s.start.toNat s.stop.toNat).toList

/-- The bytes of the span with the given index. -/
def Span.bytesAt (data : Array UInt8) (spans : Array Span) (index : Nat) : List UInt8 :=
  (spans[index]?.map (Span.bytes data)).getD []

structure Layout where
  order : ByteOrder
  msgids : Array Span
  msgstrs : Array Span
  metadata : Metadata
  rule : Option Expr
deriving DecidableEq

namespace Layout

/-- The layout of a catalog without entries. -/
def empty : Layout :=
  ⟨.little, #[], #[], ⟨[]⟩, none⟩

def byteOrder (settings : Settings) (data : Array UInt8) : Except LoadError ByteOrder := do
  let word ← (Reader.readWord ⟨data, .little⟩ 0).mapError .read
  if word = magic then return .little
  else if word = swappedMagic then
    if settings.acceptBigEndian then return .big else throw .bigEndianRefused
  else throw (.badMagic word)

/-- Entry `index` of a table that starts at `start`. -/
def readEntry (r : Reader) (table : Table) (start : UInt64) (index : Nat) :
    Except LoadError Span := do
  let entry := start + UInt64.ofNat index * entrySize
  let length ← (r.readSize entry "string length").mapError .read
  let offset ← (r.readSize (entry + 4) "string offset").mapError .read
  match r.readBytes offset length with
  | .ok _ => return ⟨offset, offset + length⟩
  | .error _ => throw (.outside table index length offset r.size)

/-- The first `count` entries of a table. The whole table has to lie inside the buffer before any of
its entries is read. -/
def readTable (r : Reader) (table : Table) (field count : UInt64) :
    Except LoadError (Array Span) := do
  let start ← (r.readSize field "table offset").mapError .read
  match checkedMul count entrySize with
  | none => throw (.tableOverflow table)
  | some length =>
      let _ ← (r.readBytes start length).mapError .read
      let spans ← (List.range count.toNat).mapM (readEntry r table start)
      return spans.toArray

/-- Checks the msgids `keys`, the first of which is number `index`, after the leading string
`previous`. -/
def checkSortedFrom (previous : Option (List UInt8)) (index : Nat) :
    List (List UInt8) → Except LoadError Unit
  | [] => .ok ()
  | key :: keys =>
      let key := leading key
      if key = [] then .error (.emptyMsgid index)
      else if previous.any fun p => compare p key == .gt then .error (.unsorted index)
      else checkSortedFrom (some key) (index + 1) keys

/-- Checks every msgid but that of the header: none is empty, and none is less than the one
before it. -/
def checkSorted (msgids : List (List UInt8)) : Except LoadError Unit :=
  checkSortedFrom none 1 (msgids.drop 1)

/-- The plural rule of a header, if it has one that is not blank. -/
def ruleOfHeader (settings : Settings) (header : String) : Except SyntaxError (Option Expr) :=
  match pluralSource? header with
  | some source => Expr.parseOptional settings.maxExpressionDepth.toNat source
  | none => .ok none

def load (settings : Settings) (data : Array UInt8) : Except LoadError Layout := do
  if data.size < headerSize then throw (.tooShort data.size)
  let order ← byteOrder settings data
  let r : Reader := ⟨data, order⟩
  let revision ← (r.readInt 4).mapError .read
  if revision ≠ 0 then throw (.badRevision revision)
  let count ← (r.readSize 8 "entry count").mapError .read
  if count = 0 then throw .noEntries
  let msgids ← readTable r .msgids Table.msgids.field count
  let msgstrs ← readTable r .msgstrs Table.msgstrs.field count
  if settings.verifySortOrder then checkSorted (msgids.toList.map (Span.bytes data))
  let header := String.ofList (Text.decodeLossy (Span.bytesAt data msgstrs 0))
  let rule ← (ruleOfHeader settings header).mapError .rule
  return ⟨order, msgids, msgstrs, .parse header, rule⟩

end Layout

end MessageCatalog
